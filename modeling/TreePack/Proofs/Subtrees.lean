import TreePack.Proofs.Inventory

namespace TreePack

variable {ι : Type}

mutual

/-- The pieces of a subexpression stand together among those of the expression. -/
theorem Expr.exprPieces_isInfix (e : Expr ι) : ∀ d ∈ e.allExprs, d.pieces <:+: e.pieces := by
  match e with
  | .node head children =>
    intro d hd
    rcases List.mem_cons.mp hd with rfl | hd
    · exact List.infix_rfl
    · -- The children come last.
      rw [Expr.pieces, ← List.cons_append]
      exact (Slots.exprPieces_isInfix children d hd).trans (List.suffix_append _ _).isInfix

theorem Slots.exprPieces_isInfix {n : Nat} (s : Slots ι n) : ∀ d ∈ s.allExprs, d.pieces <:+: s.pieces := by
  match s with
  | .nil => exact fun _ h => (List.not_mem_nil h).elim
  | .empty slots => exact Slots.exprPieces_isInfix slots
  | .full child slots =>
    intro d hd
    rw [Slots.pieces]
    rcases List.mem_append.mp hd with hd | hd
    · exact (Expr.exprPieces_isInfix child d hd).trans (List.prefix_append _ _).isInfix
    · exact (Slots.exprPieces_isInfix slots d hd).trans (List.suffix_append _ _).isInfix

end

theorem exprList_exprPieces_isInfix (exprs : List (Expr ι)) :
    ∀ d ∈ exprs.flatMap Expr.allExprs, d.pieces <:+: exprs.flatMap Expr.pieces := by
  intro d hd
  obtain ⟨e, he, hin⟩ := List.mem_flatMap.mp hd
  obtain ⟨front, back, rfl⟩ := List.append_of_mem he
  rw [List.flatMap_append, List.flatMap_cons, ← List.append_assoc]
  exact (e.exprPieces_isInfix d hin).trans ⟨_, _, rfl⟩

theorem Stmt.exprPieces_isInfix (s : Stmt ι) : ∀ e ∈ s.ownExprs, e.pieces <:+: s.pieces := by
  cases s with
  | mk head scope exprs =>
    intro e he
    rw [Stmt.pieces, List.append_assoc]
    exact (exprList_exprPieces_isInfix exprs e he).trans ⟨_, _, rfl⟩

theorem Stmt.scopePieces_isInfix (s : Stmt ι) : ∀ inner ∈ s.scope, inner.pieces <:+: s.pieces := by
  cases s with
  | mk head scope exprs =>
    rintro inner rfl
    rw [Stmt.pieces, List.append_assoc, List.append_assoc]
    exact (List.prefix_append _ _).isInfix

mutual

/-- The pieces below a statement stand together among those of every scope around it. -/
theorem Scope.stmtPieces_isInfix (s : Scope ι) : ∀ t ∈ s.allStmts, t.pieces <:+: s.pieces := by
  match s with
  | ⟨id, locals, stmts⟩ =>
    intro t ht
    -- What lies below the statements comes last.
    rw [Scope.pieces, ← List.cons_append]
    exact (stmtList_stmtPieces_isInfix stmts t ht).trans (List.suffix_append _ _).isInfix

theorem Stmt.stmtPieces_isInfix (s : Stmt ι) : ∀ t ∈ s.allStmts, t.pieces <:+: s.pieces := by
  match s with
  | ⟨head, scope, exprs⟩ =>
    intro t ht
    rcases List.mem_cons.mp ht with rfl | ht
    · exact List.infix_rfl
    · rw [Stmt.pieces, List.append_assoc, List.append_assoc]
      exact (nested_stmtPieces_isInfix scope t ht).trans (List.prefix_append _ _).isInfix

theorem stmtList_stmtPieces_isInfix (ss : List (Stmt ι)) :
    ∀ t ∈ stmtListAllStmts ss, t.pieces <:+: stmtListPieces ss := by
  match ss with
  | [] => exact fun _ h => (List.not_mem_nil h).elim
  | s :: ss =>
    intro t ht
    rw [stmtListAllStmts_cons] at ht
    rw [stmtListPieces]
    rcases List.mem_append.mp ht with ht | ht
    · exact (Stmt.stmtPieces_isInfix s t ht).trans (List.prefix_append _ _).isInfix
    · exact (stmtList_stmtPieces_isInfix ss t ht).trans (List.suffix_append _ _).isInfix

theorem nested_stmtPieces_isInfix (s : Option (Scope ι)) :
    ∀ t ∈ nestedAllStmts s, t.pieces <:+: nestedPieces s := by
  match s with
  | none => exact fun _ h => (List.not_mem_nil h).elim
  | some s => exact Scope.stmtPieces_isInfix s

end

namespace Function

variable (f : Function ι)

/-- The pieces below a statement stand together among those of the tree. So do those of a scope
and of an expression. -/
theorem stmtPieces_isInfix : ∀ t ∈ f.scope.allStmts, t.pieces <:+: f.pieces := fun t ht =>
  (f.scope.stmtPieces_isInfix t ht).trans (List.prefix_append _ _).isInfix

theorem scopePieces_isInfix : ∀ s ∈ f.scopes, s.pieces <:+: f.pieces := by
  intro s hs
  rcases List.mem_cons.mp hs with rfl | hs
  · exact (List.prefix_append _ _).isInfix
  · obtain ⟨t, ht, hs⟩ := List.mem_flatMap.mp hs
    exact (t.scopePieces_isInfix s (Option.mem_toList.mp hs)).trans (f.stmtPieces_isInfix t ht)

theorem exprPieces_isInfix : ∀ e ∈ f.exprs, e.pieces <:+: f.pieces := by
  intro e he
  obtain ⟨t, ht, he⟩ := List.mem_flatMap.mp he
  exact (t.exprPieces_isInfix e he).trans (f.stmtPieces_isInfix t ht)

/-- The row of a scope's declarations is a piece of the tree. -/
theorem localArray_subset {s : Scope ι} (hs : s ∈ f.scopes) : arrayPieces (localCells s.locals) ⊆ f.pieces := by
  intro p hp
  apply (f.scopePieces_isInfix s hs).subset
  cases s with
  | mk id locals stmts =>
    simp only [Scope.pieces, List.mem_cons, List.mem_append]
    exact .inr (.inl (.inl (.inl hp)))

theorem stmtArray_subset {s : Scope ι} (hs : s ∈ f.scopes) : arrayPieces (stmtCells s.stmts) ⊆ f.pieces := by
  intro p hp
  apply (f.scopePieces_isInfix s hs).subset
  cases s with
  | mk id locals stmts =>
    simp only [Scope.pieces, List.mem_cons, List.mem_append]
    exact .inr (.inl (.inr hp))

theorem switchArray_subset {s : Stmt ι} (hs : s ∈ f.scope.allStmts) :
    arrayPieces (switchCells s.head.switch) ⊆ f.pieces := by
  intro p hp
  apply (f.stmtPieces_isInfix s hs).subset
  cases s with
  | mk head scope exprs => exact List.mem_append_right _ hp

end Function

end TreePack
