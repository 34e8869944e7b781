import TreePack.Proofs.Reservations

namespace TreePack

variable {ι : Type}

def Cell.owned {π : Type} : Cell π → List π
  | scope r => r.pointers
  | decl r => r.pointers
  | stmt r => { r with loop := none }.pointers
  | expr r => r.pointers
  | text _ | switchLabel _ | type _ => []

/-- A statement owns nodes of its own pieces only; its loop is not owned. -/
theorem Stmt.owned_below (s : Stmt ι) : ∀ q ∈ s.cell.owned, q ∈ idsOf s.pieces := by
  -- What a statement owns is what its record would lead to without the loop reference.
  let loopless : Stmt ι := ⟨{ s.head with loop := none }, s.scope, s.exprs⟩
  have hcell : loopless.cell.pointers = s.cell.owned := rfl
  have hpieces : loopless.pieces = s.pieces := by
    cases s
    rfl
  rw [← hcell, ← hpieces]
  exact loopless.pointers_of (fun _ hq => hq) fun _ hq => (Option.not_mem_none _ hq).elim

def Forward : List (Piece ι) → Prop
  | [] => True
  | p :: ps => (∀ c ∈ p.cells, ∀ q ∈ c.val.owned, q ∈ idsOf ps) ∧ Forward ps

/-- Pieces that point forward keep doing so in front of other such pieces. -/
theorem Forward.append {ps qs : List (Piece ι)} (h : Forward ps) (h' : Forward qs) : Forward (ps ++ qs) := by
  induction ps with
  | nil => exact h'
  | cons p ps ih =>
    refine ⟨fun c hc q hq => ?_, ih h.2⟩
    change q ∈ idsOf (ps ++ qs)
    rw [idsOf_append]
    exact List.mem_append_left _ (h.1 c hc q hq)

/-- What a cell owns is among the pieces. -/
theorem Forward.mem {ps : List (Piece ι)} (h : Forward ps) :
    ∀ c ∈ cellsOf ps, ∀ q ∈ c.val.owned, q ∈ idsOf ps := by
  induction ps with
  | nil => exact fun _ hc => (List.not_mem_nil hc).elim
  | cons p ps ih =>
    intro c hc q hq
    rw [idsOf_cons]
    apply List.mem_append_right
    rw [cellsOf_cons, List.mem_append] at hc
    rcases hc with hc | hc
    · exact h.1 c hc q hq
    · exact ih h.2 c hc q hq

/-- An array in front of what its elements own. -/
theorem Forward.array_append {cells : List (Leaf ι (Cell ι))} {ps : List (Piece ι)} (h : Forward ps)
    (howned : ∀ c ∈ cells, ∀ q ∈ c.val.owned, q ∈ idsOf ps) : Forward (arrayPieces cells ++ ps) := by
  cases cells with
  | nil => exact h
  | cons first others => exact ⟨howned, h⟩

/-- Pieces that own nothing. -/
theorem forward_of_leaves {ps : List (Piece ι)} (h : ∀ p ∈ ps, ∀ c ∈ p.cells, c.val.owned = []) : Forward ps := by
  induction ps with
  | nil => trivial
  | cons p ps ih =>
    obtain ⟨hself, hothers⟩ := List.forall_mem_cons.mp h
    refine ⟨fun c hc q hq => ?_, ih hothers⟩
    rw [hself c hc] at hq
    cases hq

theorem forward_texts (ts : List (Leaf ι Text)) : Forward (ts.map textPiece) := by
  apply forward_of_leaves
  intro p hp c hc
  obtain ⟨t, -, rfl⟩ := List.mem_map.mp hp
  rw [cells_textPiece, List.mem_singleton] at hc
  rw [hc]
  rfl

theorem forward_switch (labels : List (Leaf ι UInt64)) : Forward (arrayPieces (switchCells labels)) := by
  rw [← List.append_nil (arrayPieces _)]
  have hnil : Forward ([] : List (Piece ι)) := trivial
  apply hnil.array_append
  intro c hc q hq
  obtain ⟨n, -, rfl⟩ := List.mem_map.mp hc
  cases hq

theorem forward_args (args : List (Leaf ι TypeDesc)) : Forward (args.map argPiece) := by
  apply forward_of_leaves
  intro p hp c hc
  obtain ⟨t, -, rfl⟩ := List.mem_map.mp hp
  rw [argPiece, cells_single, List.mem_singleton] at hc
  rw [hc]
  rfl

mutual

/-- The record of an expression stands before its texts and children. -/
theorem Expr.forward (e : Expr ι) : Forward e.pieces := by
  match e with
  | .node head children =>
    refine ⟨fun c hc q hq => ?_, ?_⟩
    · rw [cells_single, List.mem_singleton] at hc
      rw [hc] at hq
      exact Expr.pointers_below head children q hq
    · exact ((forward_texts _).append (forward_texts _)).append (Slots.forward children)

theorem Slots.forward {n : Nat} (s : Slots ι n) : Forward s.pieces := by
  match s with
  | .nil => trivial
  | .empty slots => exact Slots.forward slots
  | .full child slots => exact (Expr.forward child).append (Slots.forward slots)

end

theorem forward_exprs (exprs : List (Expr ι)) : Forward (exprs.flatMap Expr.pieces) := by
  induction exprs with
  | nil => trivial
  | cons e exprs ih => exact e.forward.append ih

mutual

/-- The record of a scope stands before its rows, and each row before what its elements own: their
names in one case, all that is below the statements in the other. -/
theorem Scope.forward (s : Scope ι) : Forward s.pieces := by
  match s with
  | ⟨id, locals, stmts⟩ =>
    have hnames : Forward (locals.map fun l => textPiece l.name) := by
      have h := forward_texts (locals.map (·.name))
      rw [List.map_map] at h
      exact h
    have hlocals : Forward (arrayPieces (localCells locals) ++ locals.map fun l => textPiece l.name) := by
      apply hnames.array_append
      intro c hc q hq
      obtain ⟨l, hl, rfl⟩ := List.mem_map.mp hc
      exact Local.pointers_below hl q hq
    have hstmts : Forward (arrayPieces (stmtCells stmts) ++ stmtListPieces stmts) := by
      apply (stmtList_forward stmts).array_append
      intro c hc q hq
      obtain ⟨t, ht, rfl⟩ := List.mem_map.mp hc
      exact mem_idsOf_stmtListPieces ht (t.owned_below q hq)
    rw [Scope.pieces, List.append_assoc]
    refine ⟨fun c hc q hq => ?_, hlocals.append hstmts⟩
    rw [cells_single, List.mem_singleton] at hc
    rw [hc] at hq
    -- The record leads to the two arrays.
    have hids : idsOf (arrayPieces (localCells locals)) = locals.map (·.id)
        ∧ idsOf (arrayPieces (stmtCells stmts)) = stmts.map (·.id) := by
      rw [idsOf_arrayPieces, idsOf_arrayPieces, localCells, stmtCells, List.map_map, List.map_map]
      exact ⟨rfl, rfl⟩
    rw [idsOf_append, idsOf_append, idsOf_append, hids.1, hids.2]
    rcases Scope.pointers_below id locals stmts q hq with hmem | hmem
    · exact List.mem_append_left _ (List.mem_append_left _ hmem)
    · exact List.mem_append_right _ (List.mem_append_left _ hmem)

/-- Below a statement the pieces point forward; its record is in the row of its scope. -/
theorem Stmt.forward (s : Stmt ι) : Forward s.pieces := by
  match s with
  | ⟨head, scope, exprs⟩ =>
    exact (((nested_forward scope).append (forward_exprs exprs)).append (forward_texts _)).append
      (forward_switch _)

theorem stmtList_forward (ss : List (Stmt ι)) : Forward (stmtListPieces ss) := by
  match ss with
  | [] => trivial
  | s :: ss => exact (Stmt.forward s).append (stmtList_forward ss)

theorem nested_forward (s : Option (Scope ι)) : Forward (nestedPieces s) := by
  match s with
  | none => trivial
  | some s => exact Scope.forward s

end

/-- What a record of a function owns stands in later pieces. -/
theorem Function.forward (f : Function ι) : Forward f.pieces :=
  f.scope.forward.append (forward_args f.args)

section

variable {b : Block} {place : ι → Offset} {ps : List (Piece ι)}

/-- Every node of padded pieces stands at an aligned offset. -/
theorem aligned_of_held (h : Held b place ps) (hpadded : ∀ p ∈ ps, p.Padded) :
    ∀ q ∈ idsOf ps, (place q).toNat % alignment = 0 := by
  intro q hq
  obtain ⟨p, hp, i, c, hc, rfl⟩ := exists_cell_of_mem_idsOf hq
  obtain ⟨haligned, hrow, -⟩ := h p hp
  rw [hrow i c hc]
  rcases hpadded p hp with hsingle | hsizes
  · -- The only cell is the first one.
    rw [Piece.cells, hsingle] at hc
    obtain ⟨hlt, -⟩ := List.getElem?_eq_some_iff.mp hc
    obtain rfl : i = 0 := Nat.lt_one_iff.mp hlt
    rw [Nat.zero_mul, Nat.add_zero]
    exact haligned
  · have hsize : i * p.first.val.size % alignment = 0 := by
      rw [Nat.mul_mod, hsizes p.first List.mem_cons_self, Nat.mul_zero, Nat.zero_mod]
    unfold alignment at *
    omega

/-- The nodes of pieces that follow each other from a position on stand behind that position. -/
theorem le_of_mem_idsOf {pos stop : Nat} (h : Held b place ps) (huniform : ∀ p ∈ ps, p.Uniform)
    (hfollow : Follow pos (ps.map (Piece.extent place)) stop) {q : ι} (hq : q ∈ idsOf ps) :
    pos ≤ (place q).toNat := by
  obtain ⟨p, hp, hmem⟩ := List.mem_flatMap.mp hq
  have hhas := (h p hp).has (huniform p hp) hmem
  have hstart := (hfollow.within _ (List.mem_map_of_mem hp)).1
  exact Nat.le_trans hstart hhas.1

/-- When pieces follow each other, what a node owns stands behind the node. -/
theorem Forward.lt {pos stop : Nat} (h : Forward ps) (hheld : Held b place ps)
    (huniform : ∀ p ∈ ps, p.Uniform) (hfollow : Follow pos (ps.map (Piece.extent place)) stop) :
    ∀ c ∈ cellsOf ps, ∀ q ∈ c.val.owned, (place c.id).toNat < (place q).toNat := by
  induction ps generalizing pos with
  | nil => exact fun _ hc => (List.not_mem_nil hc).elim
  | cons p ps ih =>
    obtain ⟨howned, hforward⟩ := h
    obtain ⟨hself, hothers⟩ := (held_cons p ps).mp hheld
    obtain ⟨hsame, huniform⟩ := List.forall_mem_cons.mp huniform
    obtain ⟨-, hrest⟩ := hfollow
    intro c hc q hq
    rw [cellsOf_cons, List.mem_append] at hc
    rcases hc with hc | hc
    · -- The node stands in the first piece, and what it owns behind that.
      have hhas := hself.has hsame (List.mem_map_of_mem hc)
      have hbehind := le_of_mem_idsOf hothers huniform hrest (howned c hc q hq)
      exact Nat.lt_of_lt_of_le hhas.2 hbehind
    · exact ih hforward hothers huniform hrest c hc q hq

end

end TreePack
