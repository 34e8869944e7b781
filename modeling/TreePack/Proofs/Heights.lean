import TreePack.Proofs.Relocation

namespace TreePack

variable {ι : Type}

mutual

def Expr.height : Expr ι → Nat
  | .node _ children => children.height + 1

def Slots.height : {n : Nat} → Slots ι n → Nat
  | _, .nil => 0
  | _, .empty slots => slots.height
  | _, .full child slots => max child.height slots.height

end

def exprListHeight : List (Expr ι) → Nat
  | [] => 0
  | e :: es => max e.height (exprListHeight es)

mutual

def Scope.height : Scope ι → Nat
  | ⟨_, _, stmts⟩ => stmtListHeight stmts + 1

def Stmt.height : Stmt ι → Nat
  | ⟨_, scope, exprs⟩ => max (nestedHeight scope) (exprListHeight exprs)

def stmtListHeight : List (Stmt ι) → Nat
  | [] => 0
  | s :: ss => max s.height (stmtListHeight ss)

def nestedHeight : Option (Scope ι) → Nat
  | none => 0
  | some s => s.height

end

theorem Slots.height_le_iff {k n : Nat} {s : Slots ι k} : s.height ≤ n ↔ ∀ e ∈ s.toList, e.height ≤ n := by
  induction k with
  | zero =>
    cases s
    simp [Slots.height, Slots.toList]
  | succ k ih =>
    cases s with
    | empty slots => exact ih
    | full child slots => rw [Slots.height, Nat.max_le, ih, Slots.toList, List.forall_mem_cons]

theorem exprListHeight_le_iff {exprs : List (Expr ι)} {n : Nat} :
    exprListHeight exprs ≤ n ↔ ∀ e ∈ exprs, e.height ≤ n := by
  induction exprs with
  | nil => simp [exprListHeight]
  | cons e es ih => rw [exprListHeight, Nat.max_le, ih, List.forall_mem_cons]

theorem stmtListHeight_le_iff {ss : List (Stmt ι)} {n : Nat} :
    stmtListHeight ss ≤ n ↔ ∀ s ∈ ss, s.height ≤ n := by
  induction ss with
  | nil => simp [stmtListHeight]
  | cons s ss ih => rw [stmtListHeight, Nat.max_le, ih, List.forall_mem_cons]

theorem nestedHeight_le_iff {s : Option (Scope ι)} {n : Nat} :
    nestedHeight s ≤ n ↔ ∀ t ∈ s, t.height ≤ n := by
  cases s with
  | none => simp [nestedHeight]
  | some t => simp [nestedHeight]

mutual

/-- Every level of an expression has a piece of its own, so the height is at most the number of
pieces. -/
theorem Expr.height_le (e : Expr ι) : e.height ≤ e.pieces.length := by
  match e with
  | .node head children =>
    have hchildren := Slots.height_le children
    rw [Expr.height, Expr.pieces, List.length_cons, List.length_append]
    omega

theorem Slots.height_le {n : Nat} (s : Slots ι n) : s.height ≤ s.pieces.length := by
  match s with
  | .nil => exact Nat.le_refl 0
  | .empty slots => exact Slots.height_le slots
  | .full child slots =>
    have hchild := Expr.height_le child
    have hslots := Slots.height_le slots
    rw [Slots.height, Slots.pieces, List.length_append]
    omega

end

theorem exprListHeight_le (exprs : List (Expr ι)) :
    exprListHeight exprs ≤ (exprs.flatMap Expr.pieces).length := by
  induction exprs with
  | nil => exact Nat.le_refl 0
  | cons e es ih =>
    have hfirst := e.height_le
    rw [exprListHeight, List.flatMap_cons, List.length_append]
    omega

mutual

/-- Every level of scopes has a piece of its own. -/
theorem Scope.height_le (s : Scope ι) : s.height ≤ s.pieces.length := by
  match s with
  | ⟨id, locals, stmts⟩ =>
    have hstmts := stmtListHeight_le stmts
    rw [Scope.height, Scope.pieces, List.length_cons, List.length_append]
    omega

theorem Stmt.height_le (s : Stmt ι) : s.height ≤ s.pieces.length := by
  match s with
  | ⟨head, scope, exprs⟩ =>
    have hscope := nestedHeight_le scope
    have hexprs := exprListHeight_le exprs
    rw [Stmt.height, Stmt.pieces, List.length_append, List.length_append, List.length_append]
    omega

theorem stmtListHeight_le (ss : List (Stmt ι)) : stmtListHeight ss ≤ (stmtListPieces ss).length := by
  match ss with
  | [] => exact Nat.le_refl 0
  | s :: ss =>
    have hfirst := Stmt.height_le s
    have hrest := stmtListHeight_le ss
    rw [stmtListHeight, stmtListPieces, List.length_append]
    omega

theorem nestedHeight_le (s : Option (Scope ι)) : nestedHeight s ≤ (nestedPieces s).length := by
  match s with
  | none => exact Nat.le_refl 0
  | some s => exact Scope.height_le s

end

/-- A piece takes at least one aligned place, as it is not empty. -/
theorem Piece.alignment_le_extent (place : ι → Offset) (p : Piece ι) : alignment ≤ (p.extent place).len := by
  have hpos := p.size_pos
  change 8 ≤ (p.size + 7) / 8 * 8
  omega

/-- The height of a relocated tree is bounded by the size of its block. -/
theorem Packed.Relocates.height_le {p : Packed} {place : ι → Offset} {f : Function ι}
    (h : p.Relocates place f) : f.scope.height * alignment ≤ p.block.size := by
  have hcount : (f.pieces.map (Piece.extent place)).length * alignment ≤ p.block.size := by
    apply h.tiles.length_le (by decide)
    intro e he
    obtain ⟨piece, -, rfl⟩ := List.mem_map.mp he
    exact piece.alignment_le_extent place
  have hheight := f.scope.height_le
  rw [List.length_map, Function.pieces, List.length_append, Nat.add_mul] at hcount
  have hmul : f.scope.height * alignment ≤ f.scope.pieces.length * alignment :=
    Nat.mul_le_mul_right _ hheight
  omega

end TreePack
