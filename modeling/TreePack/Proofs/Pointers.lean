import Mathlib.Data.List.ReduceOption
import TreePack.Proofs.Nodes

namespace TreePack

variable {ι : Type}

def idsOf (ps : List (Piece ι)) : List ι := ps.flatMap fun p => p.cells.map (·.id)

@[simp] theorem idsOf_cons (p : Piece ι) (ps : List (Piece ι)) :
    idsOf (p :: ps) = p.cells.map (·.id) ++ idsOf ps := rfl

@[simp] theorem idsOf_append (ps qs : List (Piece ι)) : idsOf (ps ++ qs) = idsOf ps ++ idsOf qs :=
  List.flatMap_append

@[simp] theorem idsOf_arrayPieces (cells : List (Leaf ι (Cell ι))) :
    idsOf (arrayPieces cells) = cells.map (·.id) := by
  cases cells with
  | nil => rfl
  | cons first others => exact List.append_nil _

/-- An identity of some pieces is that of one of their cells. -/
theorem exists_cell_of_mem_idsOf {ps : List (Piece ι)} {node : ι} (h : node ∈ idsOf ps) :
    ∃ p ∈ ps, ∃ (i : Nat) (c : Leaf ι (Cell ι)), p.cells[i]? = some c ∧ c.id = node := by
  obtain ⟨p, hp, hmem⟩ := List.mem_flatMap.mp h
  obtain ⟨c, hc, hid⟩ := List.mem_map.mp hmem
  obtain ⟨i, hi⟩ := List.mem_iff_getElem?.mp hc
  exact ⟨p, hp, i, c, hi, hid⟩

@[simp] theorem cells_single (id : ι) (cell : Cell ι) : (Piece.single id cell).cells = [⟨id, cell⟩] := rfl

@[simp] theorem cells_textPiece (t : Leaf ι Text) : (textPiece t).cells = [⟨t.id, .text t.val⟩] := rfl

theorem Expr.id_mem_idsOf (e : Expr ι) : e.id ∈ idsOf e.pieces := by
  cases e with
  | node head children =>
    rw [Expr.pieces, idsOf_cons]
    exact List.mem_append_left _ (List.mem_singleton.mpr rfl)

theorem Scope.id_mem_idsOf (s : Scope ι) : s.id ∈ idsOf s.pieces := by
  cases s with
  | mk id locals stmts =>
    rw [Scope.pieces, idsOf_cons]
    exact List.mem_append_left _ (List.mem_singleton.mpr rfl)

theorem exists_arrayPiece {cells : List (Leaf ι (Cell ι))} {c : Leaf ι (Cell ι)} (h : c ∈ cells) :
    ∃ p ∈ arrayPieces cells, c ∈ p.cells := by
  cases cells with
  | nil => cases h
  | cons first others => exact ⟨⟨first, others⟩, List.mem_cons_self, h⟩

mutual

/-- Every statement of a scope stands in an array of it. -/
theorem Scope.exists_stmtPiece (s : Scope ι) :
    ∀ t ∈ s.allStmts, ∃ p ∈ s.pieces, (⟨t.id, t.cell⟩ : Leaf ι (Cell ι)) ∈ p.cells := by
  match s with
  | ⟨id, locals, stmts⟩ =>
    intro t ht
    rw [Scope.pieces]
    rcases stmtList_exists_stmtPiece stmts t ht with h | ⟨p, hp, hcell⟩
    · obtain ⟨p, hp, hcell⟩ := exists_arrayPiece (List.mem_map_of_mem (f := fun t => ⟨t.id, t.cell⟩) h)
      exact ⟨p, List.mem_cons_of_mem _ (List.mem_append_left _ (List.mem_append_right _ hp)), hcell⟩
    · exact ⟨p, List.mem_cons_of_mem _ (List.mem_append_right _ hp), hcell⟩

/-- The array of a statement itself is not among its pieces. -/
theorem Stmt.exists_stmtPiece (s : Stmt ι) :
    ∀ t ∈ s.allStmts, t = s ∨ ∃ p ∈ s.pieces, (⟨t.id, t.cell⟩ : Leaf ι (Cell ι)) ∈ p.cells := by
  match s with
  | ⟨head, scope, exprs⟩ =>
    intro t ht
    rcases List.mem_cons.mp ht with rfl | ht
    · exact .inl rfl
    · obtain ⟨p, hp, hcell⟩ := nested_exists_stmtPiece scope t ht
      rw [Stmt.pieces]
      exact .inr ⟨p, List.mem_append_left _ (List.mem_append_left _ (List.mem_append_left _ hp)), hcell⟩

/-- A statement is in the row itself or in a row further down. -/
theorem stmtList_exists_stmtPiece (ss : List (Stmt ι)) :
    ∀ t ∈ stmtListAllStmts ss,
      t ∈ ss ∨ ∃ p ∈ stmtListPieces ss, (⟨t.id, t.cell⟩ : Leaf ι (Cell ι)) ∈ p.cells := by
  match ss with
  | [] =>
    intro t ht
    cases ht
  | s :: ss =>
    intro t ht
    rw [stmtListAllStmts_cons, List.mem_append] at ht
    rw [stmtListPieces]
    rcases ht with ht | ht
    · rcases Stmt.exists_stmtPiece s t ht with rfl | ⟨p, hp, hcell⟩
      · exact .inl List.mem_cons_self
      · exact .inr ⟨p, List.mem_append_left _ hp, hcell⟩
    · rcases stmtList_exists_stmtPiece ss t ht with h | ⟨p, hp, hcell⟩
      · exact .inl (List.mem_cons_of_mem _ h)
      · exact .inr ⟨p, List.mem_append_right _ hp, hcell⟩

theorem nested_exists_stmtPiece (s : Option (Scope ι)) :
    ∀ t ∈ nestedAllStmts s, ∃ p ∈ nestedPieces s, (⟨t.id, t.cell⟩ : Leaf ι (Cell ι)) ∈ p.cells := by
  match s with
  | none =>
    intro t ht
    cases ht
  | some s => exact Scope.exists_stmtPiece s

end

/-- The statements of a scope are among its nodes. -/
theorem Scope.stmt_id_mem_idsOf (s : Scope ι) {t : Stmt ι} (ht : t ∈ s.allStmts) :
    t.id ∈ idsOf s.pieces := by
  obtain ⟨p, hp, hcell⟩ := s.exists_stmtPiece t ht
  exact List.mem_flatMap.mpr ⟨p, hp, List.mem_map_of_mem (f := (·.id)) hcell⟩

/-- The pointers of filled slots are those of the children that are there. -/
theorem Slots.reduceOption_ofFn {β : Type} {n : Nat} (s : Slots ι n) (f : Expr ι → β) :
    (List.ofFn fun i => (s.get i).map f).reduceOption = s.toList.map f := by
  induction n with
  | zero =>
    cases s
    rfl
  | succ n ih =>
    rw [List.ofFn_succ]
    cases s with
    | empty rest => exact (List.reduceOption_cons_of_none _).trans (ih rest)
    | full child rest => exact (List.reduceOption_cons_of_some _ _).trans (congrArg _ (ih rest))

/-- The children in the slots are among their nodes. -/
theorem Slots.id_mem_idsOf {n : Nat} {s : Slots ι n} {e : Expr ι} (h : e ∈ s.toList) :
    e.id ∈ idsOf s.pieces := by
  induction n with
  | zero =>
    cases s
    cases h
  | succ n ih =>
    cases s with
    | empty rest => exact ih h
    | full child rest =>
      rw [Slots.pieces, idsOf_append, List.mem_append]
      rcases List.mem_cons.mp h with rfl | h
      · exact .inl e.id_mem_idsOf
      · exact .inr (ih h)

theorem mem_idsOf_flatMap_pieces {exprs : List (Expr ι)} {e : Expr ι} (h : e ∈ exprs) :
    e.id ∈ idsOf (exprs.flatMap Expr.pieces) := by
  obtain ⟨p, hp, hid⟩ := List.mem_flatMap.mp e.id_mem_idsOf
  exact List.mem_flatMap.mpr ⟨p, List.mem_flatMap.mpr ⟨e, h, hp⟩, hid⟩

theorem mem_idsOf_stmtListPieces {ss : List (Stmt ι)} {s : Stmt ι} (h : s ∈ ss) {q : ι}
    (hq : q ∈ idsOf s.pieces) : q ∈ idsOf (stmtListPieces ss) := by
  induction ss with
  | nil => cases h
  | cons t ss ih =>
    rw [stmtListPieces, idsOf_append, List.mem_append]
    rcases List.mem_cons.mp h with rfl | h
    · exact .inl hq
    · exact .inr (ih h)

/-- The base of an array is its first node. -/
theorem arrayBase_mem {ids : List ι} {q : ι} (h : arrayBase ids = some q) : q ∈ ids :=
  List.mem_of_mem_head? h

/-- The pointers of a statement's record lead to nodes below it, apart from its loop reference. -/
theorem Stmt.pointers_of {S : ι → Prop} (s : Stmt ι) (hids : ∀ q ∈ idsOf s.pieces, S q)
    (hloop : ∀ q ∈ s.head.loop, S q) : ∀ q ∈ s.cell.pointers, S q := by
  match s with
  | ⟨head, scope, exprs⟩ =>
    rw [Stmt.pieces, idsOf_append, idsOf_append, idsOf_append, idsOf_arrayPieces] at hids
    intro q hq
    simp only [Stmt.cell, Cell.pointers, StmtRecord.pointers, List.mem_append, Option.mem_toList,
      List.reduceOption_mem_iff, Vector.toList_ofFn, List.mem_ofFn, Option.map_eq_some_iff] at hq
    -- In the order of the record: loop, nested scope, expressions, label, switch labels.
    rcases hq with (((hq | ⟨inner, hinner, rfl⟩) | ⟨i, e, he, rfl⟩) | ⟨t, ht, rfl⟩) | hq
    · exact hloop q hq
    · have hmem : inner.id ∈ idsOf (nestedPieces scope) := by
        rw [hinner]
        exact inner.id_mem_idsOf
      exact hids _ (by simp only [List.mem_append, hmem, true_or])
    · have hmem := mem_idsOf_flatMap_pieces (List.mem_of_getElem? he)
      exact hids _ (by simp only [List.mem_append, hmem, true_or, or_true])
    · have hmem : t.id ∈ idsOf (head.label.toList.map textPiece) := by
        rw [ht]
        exact List.mem_singleton.mpr rfl
      exact hids _ (by simp only [List.mem_append, hmem, true_or, or_true])
    · have hmem := arrayBase_mem hq
      have hcells : (switchCells head.switch).map (·.id) = head.switch.map (·.id) := by
        rw [switchCells, List.map_map]
        rfl
      rw [hcells] at hids
      exact hids _ (by simp only [List.mem_append, hmem, or_true])

/-- The pointers of an expression's record lead to its texts and its children. -/
theorem Expr.pointers_below (head : ExprHead ι) (children : Slots ι maxChildren) :
    ∀ q ∈ (Expr.node head children).cell.pointers,
      q ∈ idsOf (head.symbol.toList.map textPiece ++ head.method.toList.map textPiece ++ children.pieces) := by
  intro q hq
  simp only [Expr.cell, Cell.pointers, ExprRecord.pointers, Vector.toList_ofFn, Slots.reduceOption_ofFn,
    List.mem_append, Option.mem_toList, Option.map_eq_some_iff, List.mem_map] at hq
  have htext {t : Option (Leaf ι Text)} {l : Leaf ι Text} (ht : t = some l) :
      l.id ∈ idsOf (t.toList.map textPiece) := by
    rw [ht]
    exact List.mem_singleton.mpr rfl
  rw [idsOf_append, idsOf_append, List.mem_append, List.mem_append]
  rcases hq with (⟨l, hl, rfl⟩ | ⟨l, hl, rfl⟩) | ⟨child, hchild, rfl⟩
  · exact .inl (.inl (htext hl))
  · exact .inl (.inr (htext hl))
  · exact .inr (Slots.id_mem_idsOf hchild)

/-- The pointers of a scope's record lead to its first local and its first statement. -/
theorem Scope.pointers_below (id : ι) (locals : List (Local ι)) (stmts : List (Stmt ι)) :
    ∀ q ∈ (Scope.mk id locals stmts).cell.pointers,
      q ∈ locals.map (·.id) ∨ q ∈ stmts.map (·.id) := by
  intro q hq
  simp only [Scope.cell, Cell.pointers, ScopeRecord.pointers, List.mem_append, Option.mem_toList] at hq
  exact hq.imp arrayBase_mem arrayBase_mem

/-- The pointer of a local's record leads to its name. -/
theorem Local.pointers_below {locals : List (Local ι)} {l : Local ι} (hl : l ∈ locals) :
    ∀ q ∈ l.cell.pointers, q ∈ idsOf (locals.map fun l => textPiece l.name) := by
  intro q hq
  have hname : q = l.name.id := by
    simpa [Local.cell, Cell.pointers, DeclRecord.pointers] using hq
  rw [hname]
  exact List.mem_flatMap.mpr ⟨_, List.mem_map_of_mem hl, List.mem_singleton.mpr rfl⟩

def PointersIn (ps : List (Piece ι)) (S : ι → Prop) : Prop :=
  ∀ p ∈ ps, ∀ c ∈ p.cells, ∀ q ∈ c.val.pointers, S q

section

variable {S : ι → Prop}

@[simp] theorem pointersIn_nil : PointersIn ([] : List (Piece ι)) S := fun _ h => (List.not_mem_nil h).elim

@[simp] theorem pointersIn_cons (p : Piece ι) (ps : List (Piece ι)) :
    PointersIn (p :: ps) S ↔ (∀ c ∈ p.cells, ∀ q ∈ c.val.pointers, S q) ∧ PointersIn ps S :=
  List.forall_mem_cons

@[simp] theorem pointersIn_append (ps qs : List (Piece ι)) :
    PointersIn (ps ++ qs) S ↔ PointersIn ps S ∧ PointersIn qs S := List.forall_mem_append

/-- The pointers of an array are those of its cells. -/
theorem pointersIn_arrayPieces (cells : List (Leaf ι (Cell ι))) :
    PointersIn (arrayPieces cells) S ↔ ∀ c ∈ cells, ∀ q ∈ c.val.pointers, S q := by
  cases cells with
  | nil => simp [arrayPieces]
  | cons first others => simp [arrayPieces, Piece.cells]

theorem pointersIn_texts (ts : List (Leaf ι Text)) : PointersIn (ts.map textPiece) S := by
  intro p hp c hc q hq
  obtain ⟨t, -, rfl⟩ := List.mem_map.mp hp
  rw [cells_textPiece, List.mem_singleton] at hc
  rw [hc] at hq
  cases hq

mutual

/-- An expression points to nodes below it only. -/
theorem Expr.pointersIn (e : Expr ι) (hids : ∀ q ∈ idsOf e.pieces, S q) : PointersIn e.pieces S := by
  match e with
  | .node head children =>
    rw [Expr.pieces, idsOf_cons, idsOf_append, idsOf_append] at hids
    have hchildren := Slots.pointersIn children fun q hq =>
      hids q (by simp only [List.mem_append, hq, or_true])
    rw [Expr.pieces, pointersIn_cons, pointersIn_append, pointersIn_append]
    refine ⟨?_, ⟨pointersIn_texts _, pointersIn_texts _⟩, hchildren⟩
    intro c hc q hq
    rw [cells_single, List.mem_singleton] at hc
    rw [hc] at hq
    have hmem := Expr.pointers_below head children q hq
    rw [idsOf_append, idsOf_append] at hmem
    exact hids q (List.mem_append_right _ hmem)

theorem Slots.pointersIn {n : Nat} (s : Slots ι n) (hids : ∀ q ∈ idsOf s.pieces, S q) :
    PointersIn s.pieces S := by
  match s with
  | .nil => exact pointersIn_nil
  | .empty slots => exact Slots.pointersIn slots hids
  | .full child slots =>
    rw [Slots.pieces, idsOf_append] at hids
    rw [Slots.pieces, pointersIn_append]
    exact ⟨Expr.pointersIn child fun q hq => hids q (List.mem_append_left _ hq),
      Slots.pointersIn slots fun q hq => hids q (List.mem_append_right _ hq)⟩

end

theorem pointersIn_exprs (exprs : List (Expr ι)) (hids : ∀ q ∈ idsOf (exprs.flatMap Expr.pieces), S q) :
    PointersIn (exprs.flatMap Expr.pieces) S := by
  induction exprs with
  | nil => exact pointersIn_nil
  | cons e exprs ih =>
    rw [List.flatMap_cons, idsOf_append] at hids
    rw [List.flatMap_cons, pointersIn_append]
    exact ⟨e.pointersIn fun q hq => hids q (List.mem_append_left _ hq),
      ih fun q hq => hids q (List.mem_append_right _ hq)⟩

theorem pointersIn_switch (labels : List (Leaf ι UInt64)) :
    PointersIn (arrayPieces (switchCells labels)) S := by
  rw [pointersIn_arrayPieces]
  intro c hc q hq
  obtain ⟨n, -, rfl⟩ := List.mem_map.mp hc
  cases hq

mutual

/-- A scope points to nodes below it, apart from the loop references, which are assumed to be
known. -/
theorem Scope.pointersIn (s : Scope ι) (hids : ∀ q ∈ idsOf s.pieces, S q)
    (hloops : ∀ t ∈ s.allStmts, ∀ q ∈ t.head.loop, S q) : PointersIn s.pieces S := by
  match s with
  | ⟨id, locals, stmts⟩ =>
    rw [Scope.pieces, idsOf_cons, idsOf_append, idsOf_append, idsOf_append, idsOf_arrayPieces,
      idsOf_arrayPieces, localCells, stmtCells, List.map_map, List.map_map] at hids
    have hstmtIds : ∀ q ∈ idsOf (stmtListPieces stmts), S q := fun q hq =>
      hids q (by simp only [List.mem_append, hq, or_true])
    rw [Scope.pieces, pointersIn_cons, pointersIn_append, pointersIn_append, pointersIn_append,
      pointersIn_arrayPieces, pointersIn_arrayPieces]
    refine ⟨?_, ⟨⟨?_, ?_⟩, ?_⟩, stmtList_pointersIn stmts hstmtIds hloops⟩
    · intro c hc q hq
      rw [cells_single, List.mem_singleton] at hc
      rw [hc] at hq
      rcases Scope.pointers_below id locals stmts q hq with hmem | hmem
      · exact hids q (by simp only [List.mem_append]; exact .inr (.inl (.inl (.inl hmem))))
      · exact hids q (by simp only [List.mem_append]; exact .inr (.inl (.inr hmem)))
    · intro c hc q hq
      obtain ⟨l, hl, rfl⟩ := List.mem_map.mp hc
      have hmem := Local.pointers_below hl q hq
      exact hids q (by simp only [List.mem_append]; exact .inr (.inl (.inl (.inr hmem))))
    · intro p hp
      obtain ⟨l, -, rfl⟩ := List.mem_map.mp hp
      exact pointersIn_texts [l.name] _ List.mem_cons_self
    · -- The records of the statements lead to what lies below them, and to loops.
      intro c hc q hq
      obtain ⟨t, ht, rfl⟩ := List.mem_map.mp hc
      exact t.pointers_of (fun q hq => hstmtIds q (mem_idsOf_stmtListPieces ht hq))
        (hloops t (mem_stmtListAllStmts ht)) q hq

/-- The same of what is below a statement. -/
theorem Stmt.pointersIn (s : Stmt ι) (hids : ∀ q ∈ idsOf s.pieces, S q)
    (hloops : ∀ t ∈ s.allStmts, ∀ q ∈ t.head.loop, S q) : PointersIn s.pieces S := by
  match s with
  | ⟨head, scope, exprs⟩ =>
    rw [Stmt.pieces, idsOf_append, idsOf_append, idsOf_append] at hids
    rw [Stmt.pieces, pointersIn_append, pointersIn_append, pointersIn_append]
    refine ⟨⟨⟨nested_pointersIn scope ?_ ?_, pointersIn_exprs exprs ?_⟩, pointersIn_texts _⟩,
      pointersIn_switch _⟩
    · intro q hq
      exact hids q (by simp only [List.mem_append, hq, true_or])
    · intro t ht
      exact hloops t (List.mem_cons_of_mem _ ht)
    · intro q hq
      exact hids q (by simp only [List.mem_append, hq, true_or, or_true])

theorem stmtList_pointersIn (ss : List (Stmt ι)) (hids : ∀ q ∈ idsOf (stmtListPieces ss), S q)
    (hloops : ∀ t ∈ stmtListAllStmts ss, ∀ q ∈ t.head.loop, S q) : PointersIn (stmtListPieces ss) S := by
  match ss with
  | [] => exact pointersIn_nil
  | s :: ss =>
    rw [stmtListPieces, idsOf_append] at hids
    rw [stmtListAllStmts_cons] at hloops
    rw [stmtListPieces, pointersIn_append]
    exact ⟨Stmt.pointersIn s (fun q hq => hids q (List.mem_append_left _ hq))
        fun t ht => hloops t (List.mem_append_left _ ht),
      stmtList_pointersIn ss (fun q hq => hids q (List.mem_append_right _ hq))
        fun t ht => hloops t (List.mem_append_right _ ht)⟩

theorem nested_pointersIn (s : Option (Scope ι)) (hids : ∀ q ∈ idsOf (nestedPieces s), S q)
    (hloops : ∀ t ∈ nestedAllStmts s, ∀ q ∈ t.head.loop, S q) : PointersIn (nestedPieces s) S := by
  match s with
  | none => exact pointersIn_nil
  | some s => exact Scope.pointersIn s hids hloops

end

end

/-- The pointers of a function lead to its nodes and to the targets of its loop references. -/
theorem Function.pointersIn (f : Function ι) {S : ι → Prop} (hids : ∀ q ∈ idsOf f.pieces, S q)
    (hloops : ∀ t ∈ f.scope.allStmts, ∀ q ∈ t.head.loop, S q) : PointersIn f.pieces S := by
  rw [Function.pieces, idsOf_append] at hids
  rw [Function.pieces, pointersIn_append]
  constructor
  · exact f.scope.pointersIn (fun q hq => hids q (List.mem_append_left _ hq)) hloops
  · intro p hp c hc q hq
    obtain ⟨t, -, rfl⟩ := List.mem_map.mp hp
    rw [argPiece, cells_single, List.mem_singleton] at hc
    rw [hc] at hq
    cases hq

/-- In a well-formed function every pointer is the identity of some cell. -/
theorem Function.WellFormed.pointersIn {f : Function ι} (h : f.WellFormed) :
    PointersIn f.pieces (· ∈ idsOf f.pieces) := by
  refine f.pointersIn (fun q hq => hq) fun t ht q hq => ?_
  obtain ⟨target, htarget, rfl, -⟩ := h.loops t ht q hq
  rw [Function.pieces, idsOf_append]
  exact List.mem_append_left _ (f.scope.stmt_id_mem_idsOf htarget)

end TreePack
