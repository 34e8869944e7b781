import TreePack.Proofs.Recognizing
import TreePack.Proofs.Relocation

namespace TreePack

def textMark (what : Region) (t : Leaf Offset Text) : Mark :=
  .span ⟨t.id.toNat, alignUp t.val.stored.length, what⟩

def rowMarks (what : Region) (stride : Nat) : List Offset → List Mark
  | [] => []
  | first :: others => [.span ⟨first.toNat, alignUp ((others.length + 1) * stride), what⟩]

mutual

def Expr.marks : Expr Offset → List Mark
  | .node head children =>
    .span ⟨head.id.toNat, alignUp (Stored.size (ExprRecord Offset)), .expression⟩ :: .expr ::
      (head.symbol.toList.map (textMark .symbolName)
        ++ (head.method.toList.map (textMark .methodName) ++ children.marks))

def Slots.marks : {n : Nat} → Slots Offset n → List Mark
  | _, .nil => []
  | _, .empty slots => slots.marks
  | _, .full child slots => child.marks ++ slots.marks

end

def StmtHead.loopMark (head : StmtHead Offset) : List Mark :=
  if head.kind.isLoopTarget then [.loop head.id] else []

def StmtHead.refMark (head : StmtHead Offset) : List Mark := head.loop.toList.map (.ref head.id)

mutual

def Scope.marks : Scope Offset → List Mark
  | ⟨id, locals, stmts⟩ =>
    .span ⟨id.toNat, alignUp (Stored.size (ScopeRecord Offset)), .scope⟩ ::
      (rowMarks .locals (Stored.size (DeclRecord Offset)) (locals.map (·.id))
        ++ (locals.map (fun l => textMark .localName l.name)
        ++ (rowMarks .statements (Stored.size (StmtRecord Offset)) (stmts.map (·.id))
        ++ (stmts.map (fun s => .stmt s.id) ++ stmtListMarks stmts))))

def Stmt.marks : Stmt Offset → List Mark
  | ⟨head, scope, exprs⟩ =>
    head.loopMark ++ (exprs.flatMap Expr.marks ++ (head.refMark ++ (nestedMarks scope
      ++ (head.label.toList.map (textMark .label)
      ++ rowMarks .switchLabels (Stored.size UInt64) (head.switch.map (·.id))))))

def stmtListMarks : List (Stmt Offset) → List Mark
  | [] => []
  | s :: ss => s.marks ++ stmtListMarks ss

def nestedMarks : Option (Scope Offset) → List Mark
  | none => []
  | some s => s.marks

end

def argMark (t : Leaf Offset TypeDesc) : Mark :=
  .span ⟨t.id.toNat, alignUp (Stored.size TypeDesc), .argType⟩

def Function.marks (f : Function Offset) : List Mark := f.scope.marks ++ f.args.map argMark

theorem Slots.marks_eq {n : Nat} (s : Slots Offset n) : s.marks = s.toList.flatMap Expr.marks := by
  induction n with
  | zero =>
    cases s
    rfl
  | succ n ih =>
    cases s with
    | empty slots => exact ih slots
    | full child slots => rw [Slots.marks, ih, Slots.toList, List.flatMap_cons]

theorem stmtListMarks_eq (ss : List (Stmt Offset)) : stmtListMarks ss = ss.flatMap Stmt.marks := by
  induction ss with
  | nil => rfl
  | cons s ss ih => rw [stmtListMarks, ih, List.flatMap_cons]

/-! ### Spans -/

def Mark.span? : Mark → Option Span
  | .span s => some s
  | _ => none

def extentsOf (ms : List Mark) : List Extent := (ms.filterMap Mark.span?).map Span.extent

@[simp] theorem extentsOf_append (ms ns : List Mark) :
    extentsOf (ms ++ ns) = extentsOf ms ++ extentsOf ns := by
  rw [extentsOf, List.filterMap_append, List.map_append]
  rfl

theorem extentsOf_cons_span (s : Span) (ms : List Mark) :
    extentsOf (.span s :: ms) = s.extent :: extentsOf ms := rfl

theorem extentsOf_texts (what : Region) (ts : List (Leaf Offset Text)) :
    extentsOf (ts.map (textMark what)) = (ts.map textPiece).map (Piece.extent id) := by
  induction ts with
  | nil => rfl
  | cons t ts ih =>
    rw [List.map_cons, textMark, extentsOf_cons_span, ih]
    rfl

/-- A row claims one extent, that of its array. -/
theorem extentsOf_rowMarks (what : Region) {stride : Nat} {cells : List (Leaf Offset (Cell Offset))}
    (hsize : ∀ c ∈ cells, c.val.size = stride) :
    extentsOf (rowMarks what stride (cells.map (·.id))) = (arrayPieces cells).map (Piece.extent id) := by
  cases cells with
  | nil => rfl
  | cons first others =>
    have hrow := rowSize_of_uniform hsize
    rw [List.length_cons] at hrow
    have hsize' : (Piece.mk first others).size = (others.length + 1) * stride := hrow
    rw [List.map_cons, rowMarks, List.length_map, extentsOf_cons_span, arrayPieces, List.map_cons,
      Piece.extent, hsize']
    rfl

mutual

/-- The spans claimed for an expression are the extents of its pieces, in the same order. -/
theorem Expr.extents_eq (e : Expr Offset) : extentsOf e.marks = e.pieces.map (Piece.extent id) := by
  match e with
  | .node head children =>
    have hrest : extentsOf (Mark.expr :: (head.symbol.toList.map (textMark .symbolName)
          ++ (head.method.toList.map (textMark .methodName) ++ children.marks)))
        = (head.symbol.toList.map textPiece ++ head.method.toList.map textPiece
          ++ children.pieces).map (Piece.extent id) := by
      change extentsOf (_ ++ (_ ++ _)) = _
      rw [extentsOf_append, extentsOf_append, extentsOf_texts, extentsOf_texts, Slots.extents_eq children,
        List.map_append, List.map_append, List.append_assoc]
    rw [Expr.marks, extentsOf_cons_span, hrest]
    rfl

theorem Slots.extents_eq {n : Nat} (s : Slots Offset n) :
    extentsOf s.marks = s.pieces.map (Piece.extent id) := by
  match s with
  | .nil => rfl
  | .empty slots => exact Slots.extents_eq slots
  | .full child slots =>
    rw [Slots.marks, Slots.pieces, extentsOf_append, Expr.extents_eq child, Slots.extents_eq slots,
      List.map_append]

end

theorem exprList_extents_eq (exprs : List (Expr Offset)) :
    extentsOf (exprs.flatMap Expr.marks) = (exprs.flatMap Expr.pieces).map (Piece.extent id) := by
  induction exprs with
  | nil => rfl
  | cons e es ih =>
    rw [List.flatMap_cons, List.flatMap_cons, extentsOf_append, e.extents_eq, ih, List.map_append]

theorem extentsOf_localRow (locals : List (Local Offset)) :
    extentsOf (rowMarks .locals (Stored.size (DeclRecord Offset)) (locals.map (·.id)))
      = (arrayPieces (localCells locals)).map (Piece.extent id) := by
  have h := extentsOf_rowMarks .locals (@size_of_mem_localCells _ locals)
  rw [localCells, List.map_map] at h
  exact h

theorem extentsOf_localNames (locals : List (Local Offset)) :
    extentsOf (locals.map fun l => textMark .localName l.name)
      = (locals.map fun l => textPiece l.name).map (Piece.extent id) := by
  have h := extentsOf_texts .localName (locals.map (·.name))
  rw [List.map_map, List.map_map, List.map_map] at h
  rw [List.map_map]
  exact h

theorem extentsOf_stmtRow (stmts : List (Stmt Offset)) :
    extentsOf (rowMarks .statements (Stored.size (StmtRecord Offset)) (stmts.map (·.id)))
      = (arrayPieces (stmtCells stmts)).map (Piece.extent id) := by
  have h := extentsOf_rowMarks .statements (@size_of_mem_stmtCells _ stmts)
  rw [stmtCells, List.map_map] at h
  exact h

theorem extentsOf_switchRow (labels : List (Leaf Offset UInt64)) :
    extentsOf (rowMarks .switchLabels (Stored.size UInt64) (labels.map (·.id)))
      = (arrayPieces (switchCells labels)).map (Piece.extent id) := by
  have h := extentsOf_rowMarks .switchLabels (@size_of_mem_switchCells _ labels)
  rw [switchCells, List.map_map] at h
  exact h

theorem extentsOf_stmts (ss : List (Stmt Offset)) : extentsOf (ss.map fun s => .stmt s.id) = [] := by
  induction ss with
  | nil => rfl
  | cons s ss ih => exact ih

theorem extentsOf_loopMark (head : StmtHead Offset) : extentsOf head.loopMark = [] := by
  unfold StmtHead.loopMark
  split <;> rfl

theorem extentsOf_refMark (head : StmtHead Offset) : extentsOf head.refMark = [] := by
  unfold StmtHead.refMark
  cases head.loop <;> rfl

mutual

/-- The spans of a scope are the extents of its pieces. Below a statement the check goes through the
expressions first, the layout through the nested scope. -/
theorem Scope.extents_perm (s : Scope Offset) :
    (extentsOf s.marks).Perm (s.pieces.map (Piece.extent id)) := by
  match s with
  | ⟨id', locals, stmts⟩ =>
    have hbelow := stmtList_extents_perm stmts
    rw [Scope.marks, extentsOf_cons_span, extentsOf_append, extentsOf_append, extentsOf_append,
      extentsOf_append, extentsOf_localRow, extentsOf_localNames, extentsOf_stmtRow, extentsOf_stmts]
    simp only [Scope.pieces, List.map_cons, List.map_append, List.append_assoc, List.nil_append]
    exact .cons _ (.append_left _ (.append_left _ (.append_left _ hbelow)))

/-- The spans claimed for a statement are those of its pieces, in another order: the verifier
descends into expressions first and the planner into the nested scope. -/
theorem Stmt.extents_perm (s : Stmt Offset) :
    (extentsOf s.marks).Perm (s.pieces.map (Piece.extent id)) := by
  match s with
  | ⟨head, scope, exprs⟩ =>
    have hnested := nested_extents_perm scope
    rw [Stmt.marks, extentsOf_append, extentsOf_append, extentsOf_append, extentsOf_append,
      extentsOf_append, extentsOf_loopMark, exprList_extents_eq, extentsOf_refMark, extentsOf_texts,
      extentsOf_switchRow]
    simp only [Stmt.pieces, List.map_append, List.append_assoc, List.nil_append]
    exact List.perm_append_comm_assoc _ _ _ |>.trans (hnested.append_right _)

theorem stmtList_extents_perm (ss : List (Stmt Offset)) :
    (extentsOf (stmtListMarks ss)).Perm ((stmtListPieces ss).map (Piece.extent id)) := by
  match ss with
  | [] => exact List.Perm.nil
  | s :: ss =>
    rw [stmtListMarks, stmtListPieces, extentsOf_append, List.map_append]
    exact (Stmt.extents_perm s).append (stmtList_extents_perm ss)

theorem nested_extents_perm (s : Option (Scope Offset)) :
    (extentsOf (nestedMarks s)).Perm ((nestedPieces s).map (Piece.extent id)) := by
  match s with
  | none => exact List.Perm.nil
  | some s => exact Scope.extents_perm s

end

/-- The verifier claims exactly the extents of the tree's pieces. -/
theorem Function.extents_perm (f : Function Offset) :
    (extentsOf f.marks).Perm (f.pieces.map (Piece.extent id)) := by
  have hargs : extentsOf (f.args.map argMark) = (f.args.map argPiece).map (Piece.extent id) := by
    induction f.args with
    | nil => rfl
    | cons t ts ih =>
      rw [List.map_cons, argMark, extentsOf_cons_span, ih]
      rfl
  rw [Function.marks, extentsOf_append, hargs, Function.pieces, List.map_append]
  exact f.scope.extents_perm.append_right _

/-! ### Statements -/

def Mark.OfStmt : Mark → Prop
  | .stmt _ | .loop _ | .ref _ _ => True
  | .span _ | .expr => False

def StmtHead.marks (head : StmtHead Offset) : List Mark :=
  .stmt head.id :: (head.loopMark ++ head.refMark)

section

-- The theorems of one block use the hypothesis through each other.
set_option linter.unusedSectionVars false

variable {m : Mark} (hm : m.OfStmt)

include hm

theorem notMem_texts (what : Region) (ts : List (Leaf Offset Text)) : m ∉ ts.map (textMark what) := by
  intro h
  obtain ⟨t, -, rfl⟩ := List.mem_map.mp h
  exact hm

/-- Rows leave spans only. -/
theorem notMem_rowMarks (what : Region) (stride : Nat) (os : List Offset) :
    m ∉ rowMarks what stride os := by
  intro h
  cases os with
  | nil => cases h
  | cons first others =>
    rw [List.mem_singleton.mp h] at hm
    exact hm

mutual

theorem Expr.notMem_marks (e : Expr Offset) : m ∉ e.marks := by
  match e with
  | .node head children =>
    intro h
    simp only [Expr.marks, List.mem_cons, List.mem_append] at h
    rcases h with rfl | rfl | h | h | h
    · exact hm
    · exact hm
    · exact notMem_texts hm _ _ h
    · exact notMem_texts hm _ _ h
    · exact Slots.notMem_marks children h

theorem Slots.notMem_marks {n : Nat} (s : Slots Offset n) : m ∉ s.marks := by
  match s with
  | .nil => exact List.not_mem_nil
  | .empty slots => exact Slots.notMem_marks slots
  | .full child slots =>
    intro h
    rcases List.mem_append.mp h with h | h
    · exact Expr.notMem_marks child h
    · exact Slots.notMem_marks slots h

end

mutual

/-- The marks of a scope that are no spans are those of the heads of its statements. -/
theorem Scope.mem_marks_iff (s : Scope Offset) :
    m ∈ s.marks ↔ ∃ t ∈ s.allStmts, m ∈ t.head.marks := by
  match s with
  | ⟨id', locals, stmts⟩ =>
    have hnames : m ∉ locals.map fun l => textMark .localName l.name := by
      have h := notMem_texts hm .localName (locals.map (·.name))
      rw [List.map_map] at h
      exact h
    have hspan : m ≠ .span ⟨id'.toNat, alignUp (Stored.size (ScopeRecord Offset)), .scope⟩ := by
      rintro rfl
      exact hm
    -- The statements of the scope are noted in front of everything below them.
    rw [Scope.marks, Scope.allStmts_mk, ← stmtList_mem_marks_iff stmts]
    simp only [List.mem_cons, List.mem_append, hspan, notMem_rowMarks hm, hnames, false_or]

theorem Stmt.mem_marks_iff (s : Stmt Offset) :
    (m = .stmt s.id ∨ m ∈ s.marks) ↔ ∃ t ∈ s.allStmts, m ∈ t.head.marks := by
  match s with
  | ⟨head, scope, exprs⟩ =>
    have hexprs : m ∉ exprs.flatMap Expr.marks := by
      intro h
      obtain ⟨e, -, he⟩ := List.mem_flatMap.mp h
      exact e.notMem_marks hm he
    have hself : (∃ t ∈ (Stmt.mk head scope exprs).allStmts, m ∈ t.head.marks)
        ↔ m ∈ head.marks ∨ m ∈ nestedMarks scope := by
      rw [nested_mem_marks_iff scope, Stmt.allStmts_mk]
      simp only [List.mem_cons, or_and_right, exists_or, exists_eq_left]
    rw [hself]
    simp only [Stmt.marks, StmtHead.marks, List.mem_append, List.mem_cons, hexprs, notMem_texts hm,
      notMem_rowMarks hm, false_or, or_false, or_assoc]
    rfl

theorem stmtList_mem_marks_iff (ss : List (Stmt Offset)) :
    (m ∈ ss.map (fun s => .stmt s.id) ∨ m ∈ stmtListMarks ss)
      ↔ ∃ t ∈ stmtListAllStmts ss, m ∈ t.head.marks := by
  match ss with
  | [] => simp [stmtListMarks]
  | s :: ss =>
    have hfirst := Stmt.mem_marks_iff s
    have hrest := stmtList_mem_marks_iff ss
    simp only [List.map_cons, List.mem_cons, stmtListMarks, List.mem_append, stmtListAllStmts_cons,
      or_and_right, exists_or, ← hfirst, ← hrest]
    constructor
    · rintro ((h | h) | (h | h))
      · exact .inl (.inl h)
      · exact .inr (.inl h)
      · exact .inl (.inr h)
      · exact .inr (.inr h)
    · rintro ((h | h) | (h | h))
      · exact .inl (.inl h)
      · exact .inr (.inl h)
      · exact .inl (.inr h)
      · exact .inr (.inr h)

theorem nested_mem_marks_iff (s : Option (Scope Offset)) :
    m ∈ nestedMarks s ↔ ∃ t ∈ nestedAllStmts s, m ∈ t.head.marks := by
  match s with
  | none => simp [nestedMarks]
  | some s => exact Scope.mem_marks_iff s

end

/-- What the verifier learns of statements and loops is what the heads of the tree's statements
say. -/
theorem Function.mem_marks_iff (f : Function Offset) :
    m ∈ f.marks ↔ ∃ t ∈ f.scope.allStmts, m ∈ t.head.marks := by
  have hargs : m ∉ f.args.map argMark := by
    intro h
    obtain ⟨t, -, rfl⟩ := List.mem_map.mp h
    exact hm
  rw [← f.scope.mem_marks_iff hm, Function.marks, List.mem_append]
  simp only [hargs, or_false]

end

/-- A head leaves a statement mark, a loop mark if it is of a loop kind, and a reference if it has
one. -/
theorem StmtHead.mem_marks_iff (head : StmtHead Offset) (m : Mark) :
    m ∈ head.marks ↔ m = .stmt head.id ∨ (head.kind.isLoopTarget ∧ m = .loop head.id)
      ∨ ∃ target ∈ head.loop, m = .ref head.id target := by
  have hloop : m ∈ head.loopMark ↔ head.kind.isLoopTarget ∧ m = .loop head.id := by
    unfold StmtHead.loopMark
    split
    · rename_i h
      simp [h]
    · rename_i h
      simp [h]
  have href : m ∈ head.refMark ↔ ∃ target ∈ head.loop, m = .ref head.id target := by
    unfold StmtHead.refMark
    cases head.loop with
    | none => simp
    | some target => simp
  rw [StmtHead.marks, List.mem_cons, List.mem_append, hloop, href]

/-- The statements found are the statements of the tree. -/
theorem Function.stmt_mem_marks_iff (f : Function Offset) (o : Offset) :
    Mark.stmt o ∈ f.marks ↔ ∃ t ∈ f.scope.allStmts, t.id = o := by
  have hm : (Mark.stmt o).OfStmt := trivial
  rw [f.mem_marks_iff hm]
  simp only [StmtHead.mem_marks_iff, Mark.stmt.injEq, reduceCtorEq, and_false, exists_false, or_false]
  exact ⟨fun ⟨t, ht, h⟩ => ⟨t, ht, h.symm⟩, fun ⟨t, ht, h⟩ => ⟨t, ht, h.symm⟩⟩

/-- The loops found are the statements of a loop kind. -/
theorem Function.loop_mem_marks_iff (f : Function Offset) (o : Offset) :
    Mark.loop o ∈ f.marks ↔ ∃ t ∈ f.scope.allStmts, t.id = o ∧ t.head.kind.isLoopTarget := by
  have hm : (Mark.loop o).OfStmt := trivial
  rw [f.mem_marks_iff hm]
  simp only [StmtHead.mem_marks_iff, Mark.loop.injEq, reduceCtorEq, and_false, exists_false, or_false,
    false_or]
  exact ⟨fun ⟨t, ht, hkind, h⟩ => ⟨t, ht, h.symm, hkind⟩, fun ⟨t, ht, h, hkind⟩ => ⟨t, ht, hkind, h.symm⟩⟩

/-- The references found are the loop references of the tree. -/
theorem Function.ref_mem_marks_iff (f : Function Offset) (source target : Offset) :
    Mark.ref source target ∈ f.marks
      ↔ ∃ t ∈ f.scope.allStmts, t.id = source ∧ t.head.loop = some target := by
  have hm : (Mark.ref source target).OfStmt := trivial
  rw [f.mem_marks_iff hm]
  simp only [StmtHead.mem_marks_iff, Mark.ref.injEq, reduceCtorEq, and_false, false_or]
  constructor
  · rintro ⟨t, ht, named, hloop, hid, rfl⟩
    exact ⟨t, ht, hid.symm, hloop⟩
  · rintro ⟨t, ht, hid, hloop⟩
    exact ⟨t, ht, target, hloop, hid.symm, rfl⟩

end TreePack
