import TreePack.Proofs.Pieces

namespace TreePack

variable {ι : Type}

def Stmt.allStmts (s : Stmt ι) : List (Stmt ι) := s.stmtsThen []

def stmtListAllStmts (ss : List (Stmt ι)) : List (Stmt ι) := listStmtsThen [] ss

def nestedAllStmts (s : Option (Scope ι)) : List (Stmt ι) := optionStmtsThen [] s

mutual

/-- Collecting statements in front of others is collecting them and appending the others. The
collected lists are used from here on, for they split with the tree. -/
theorem Scope.stmtsThen_eq (rest : List (Stmt ι)) (s : Scope ι) :
    s.stmtsThen rest = s.allStmts ++ rest := by
  match s with
  | ⟨_, _, stmts⟩ => exact listStmtsThen_eq rest stmts
termination_by structural s

theorem Stmt.stmtsThen_eq (rest : List (Stmt ι)) (s : Stmt ι) :
    s.stmtsThen rest = s.allStmts ++ rest := by
  match s with
  | ⟨head, scope, exprs⟩ =>
    rw [Stmt.allStmts, Stmt.stmtsThen, Stmt.stmtsThen, optionStmtsThen_eq rest scope, List.cons_append]
    rfl
termination_by structural s

theorem listStmtsThen_eq (rest : List (Stmt ι)) (ss : List (Stmt ι)) :
    listStmtsThen rest ss = stmtListAllStmts ss ++ rest := by
  match ss with
  | [] => rfl
  | s :: ss =>
    rw [stmtListAllStmts, listStmtsThen, listStmtsThen, Stmt.stmtsThen_eq (listStmtsThen rest ss) s,
      Stmt.stmtsThen_eq (listStmtsThen [] ss) s, listStmtsThen_eq rest ss, List.append_assoc]
    rfl
termination_by structural ss

theorem optionStmtsThen_eq (rest : List (Stmt ι)) (s : Option (Scope ι)) :
    optionStmtsThen rest s = nestedAllStmts s ++ rest := by
  match s with
  | none => rfl
  | some s => exact Scope.stmtsThen_eq rest s
termination_by structural s

end

@[simp] theorem Scope.allStmts_mk (id : ι) (locals : List (Local ι)) (stmts : List (Stmt ι)) :
    (Scope.mk id locals stmts).allStmts = stmtListAllStmts stmts := rfl

@[simp] theorem Stmt.allStmts_mk (head : StmtHead ι) (scope : Option (Scope ι)) (exprs : List (Expr ι)) :
    (Stmt.mk head scope exprs).allStmts = ⟨head, scope, exprs⟩ :: nestedAllStmts scope := rfl

@[simp] theorem stmtListAllStmts_nil : stmtListAllStmts ([] : List (Stmt ι)) = [] := rfl

@[simp] theorem stmtListAllStmts_cons (s : Stmt ι) (ss : List (Stmt ι)) :
    stmtListAllStmts (s :: ss) = s.allStmts ++ stmtListAllStmts ss := Stmt.stmtsThen_eq _ s

@[simp] theorem nestedAllStmts_none : nestedAllStmts (none : Option (Scope ι)) = [] := rfl

@[simp] theorem nestedAllStmts_some (s : Scope ι) : nestedAllStmts (some s) = s.allStmts := rfl

/-- A statement is among the statements from it on. -/
theorem Stmt.mem_allStmts_self (s : Stmt ι) : s ∈ s.allStmts := by
  cases s
  exact List.mem_cons_self

theorem mem_stmtListAllStmts {s : Stmt ι} {ss : List (Stmt ι)} (h : s ∈ ss) :
    s ∈ stmtListAllStmts ss := by
  induction ss with
  | nil => cases h
  | cons t ss ih =>
    rw [stmtListAllStmts_cons, List.mem_append]
    rcases List.mem_cons.mp h with rfl | h
    · exact .inl s.mem_allStmts_self
    · exact .inr (ih h)

mutual

def Scope.allLocals : Scope ι → List (Local ι)
  | ⟨_, locals, stmts⟩ => locals ++ stmtListAllLocals stmts

def Stmt.allLocals : Stmt ι → List (Local ι)
  | ⟨_, scope, _⟩ => nestedAllLocals scope

def stmtListAllLocals : List (Stmt ι) → List (Local ι)
  | [] => []
  | s :: ss => s.allLocals ++ stmtListAllLocals ss

def nestedAllLocals : Option (Scope ι) → List (Local ι)
  | none => []
  | some s => s.allLocals

end

theorem forall_nestedAllLocals {P : Local ι → Prop} {s : Option (Scope ι)} :
    (∀ l ∈ nestedAllLocals s, P l) ↔ ∀ t ∈ s, ∀ l ∈ t.allLocals, P l := by
  cases s with
  | none => simp [nestedAllLocals]
  | some t => simp [nestedAllLocals]

theorem forall_nestedAllStmts {P : Stmt ι → Prop} {s : Option (Scope ι)} :
    (∀ u ∈ nestedAllStmts s, P u) ↔ ∀ t ∈ s, ∀ u ∈ t.allStmts, P u := by
  cases s with
  | none => simp
  | some t => simp

theorem forall_stmtListAllLocals {P : Local ι → Prop} {ss : List (Stmt ι)} :
    (∀ l ∈ stmtListAllLocals ss, P l) ↔ ∀ s ∈ ss, ∀ l ∈ s.allLocals, P l := by
  induction ss with
  | nil => simp [stmtListAllLocals]
  | cons s ss ih => rw [stmtListAllLocals, List.forall_mem_append, ih, List.forall_mem_cons]

theorem forall_stmtListAllStmts {P : Stmt ι → Prop} {ss : List (Stmt ι)} :
    (∀ t ∈ stmtListAllStmts ss, P t) ↔ ∀ s ∈ ss, ∀ t ∈ s.allStmts, P t := by
  induction ss with
  | nil => simp
  | cons s ss ih => rw [stmtListAllStmts_cons, List.forall_mem_append, ih, List.forall_mem_cons]

section

-- The theorems of one block use the hypotheses through each other.
set_option linter.unusedSectionVars false

variable {P : Visit ι → Prop} (hplace : ∀ p, P (.place p)) (hleave : P .leave)

include hplace hleave

theorem forall_textVisits (rest : List (Visit ι)) (t : Leaf ι Text) :
    (∀ v ∈ textVisitsThen rest t, P v) ↔ ∀ v ∈ rest, P v := by
  simp [textVisitsThen, hplace, hleave]

theorem forall_optionTextVisits (rest : List (Visit ι)) (t : Option (Leaf ι Text)) :
    (∀ v ∈ optionTextVisitsThen rest t, P v) ↔ ∀ v ∈ rest, P v := by
  cases t with
  | none => rfl
  | some t => exact forall_textVisits hplace hleave rest t

theorem forall_localVisits (rest : List (Visit ι)) (locals : List (Local ι)) :
    (∀ v ∈ localVisitsThen rest locals, P v)
      ↔ (∀ l ∈ locals, P (.enterLocal l)) ∧ ∀ v ∈ rest, P v := by
  induction locals with
  | nil => simp [localVisitsThen]
  | cons l locals ih =>
    have hcons : localVisitsThen rest (l :: locals)
        = .enterLocal l :: textVisitsThen (localVisitsThen rest locals) l.name := rfl
    rw [hcons, List.forall_mem_cons, forall_textVisits hplace hleave, ih, List.forall_mem_cons, and_assoc]

/-- An array visits what its elements visit, and nothing if it is empty. -/
theorem forall_arrayVisits (cells : List (Leaf ι (Cell ι))) (contents : List (Visit ι) → List (Visit ι))
    (Q : Prop) (rest : List (Visit ι))
    (hcontents : ∀ rest, (∀ v ∈ contents rest, P v) ↔ Q ∧ ∀ v ∈ rest, P v) (hempty : cells = [] → Q) :
    (∀ v ∈ arrayVisitsThen cells contents rest, P v) ↔ Q ∧ ∀ v ∈ rest, P v := by
  cases cells with
  | nil => simp [arrayVisitsThen, hempty rfl]
  | cons first others =>
    rw [arrayVisitsThen, List.forall_mem_cons, hcontents, List.forall_mem_cons]
    simp [hplace, hleave]

theorem forall_switchVisits (rest : List (Visit ι)) (labels : List (Leaf ι UInt64)) :
    (∀ v ∈ switchVisitsThen rest labels, P v) ↔ ∀ v ∈ rest, P v := by
  have h := forall_arrayVisits hplace hleave (switchCells labels) (fun rest => rest) True rest
    (fun rest => by rw [true_and]) (fun _ => trivial)
  rw [true_and] at h
  exact h

mutual

/-- An expression only places pieces: what holds of every piece and of leaving holds of its
visits. -/
theorem Expr.forall_visits (rest : List (Visit ι)) (e : Expr ι) :
    (∀ v ∈ e.visitsThen rest, P v) ↔ ∀ v ∈ rest, P v := by
  match e with
  | .node head children =>
    rw [Expr.visitsThen, List.forall_mem_cons, forall_optionTextVisits hplace hleave,
      forall_optionTextVisits hplace hleave, Slots.forall_visits (.leave :: rest) children,
      List.forall_mem_cons]
    simp [hplace, hleave]

theorem Slots.forall_visits (rest : List (Visit ι)) {n : Nat} (s : Slots ι n) :
    (∀ v ∈ s.visitsThen rest, P v) ↔ ∀ v ∈ rest, P v := by
  match s with
  | .nil => rfl
  | .empty slots => exact Slots.forall_visits rest slots
  | .full child slots =>
    rw [Slots.visitsThen, Expr.forall_visits _ child, Slots.forall_visits rest slots]

end

theorem forall_exprVisits (rest : List (Visit ι)) (exprs : List (Expr ι)) :
    (∀ v ∈ exprListVisitsThen rest exprs, P v) ↔ ∀ v ∈ rest, P v := by
  induction exprs with
  | nil => rfl
  | cons e exprs ih => exact (Expr.forall_visits hplace hleave _ e).trans ih

theorem forall_argVisits (rest : List (Visit ι)) (args : List (Leaf ι TypeDesc)) :
    (∀ v ∈ argVisitsThen rest args, P v) ↔ ∀ v ∈ rest, P v := by
  induction args with
  | nil => rfl
  | cons t args ih =>
    have hcons : argVisitsThen rest (t :: args)
        = .place (.single t.id (.type t.val)) :: .leave :: argVisitsThen rest args := rfl
    rw [hcons, List.forall_mem_cons, List.forall_mem_cons, ih]
    simp [hplace, hleave]

mutual

/-- A scope enters its declarations and statements; all else it does is placing pieces. -/
theorem Scope.forall_visits (rest : List (Visit ι)) (s : Scope ι) :
    (∀ v ∈ s.visitsThen rest, P v)
      ↔ ((∀ l ∈ s.allLocals, P (.enterLocal l)) ∧ ∀ t ∈ s.allStmts, P (.enterStmt t))
        ∧ ∀ v ∈ rest, P v := by
  match s with
  | ⟨id, locals, stmts⟩ =>
    have hlocals (rest : List (Visit ι)) := forall_arrayVisits hplace hleave (localCells locals)
      (fun rest => localVisitsThen rest locals) (∀ l ∈ locals, P (.enterLocal l)) rest
      (fun rest => forall_localVisits hplace hleave rest locals)
      (fun h => by rw [List.map_eq_nil_iff.mp h]; exact fun _ h => (List.not_mem_nil h).elim)
    have hstmts (rest : List (Visit ι)) := forall_arrayVisits hplace hleave (stmtCells stmts)
      (fun rest => stmtListVisitsThen rest stmts) _ rest
      (fun rest => stmtList_forall_visits rest stmts)
      (fun h => by
        rw [List.map_eq_nil_iff.mp h]
        exact ⟨fun _ h => (List.not_mem_nil h).elim, fun _ h => (List.not_mem_nil h).elim⟩)
    rw [localCells] at hlocals
    rw [stmtCells] at hstmts
    rw [Scope.visitsThen, List.forall_mem_cons, hlocals, hstmts, List.forall_mem_cons, Scope.allLocals,
      List.forall_mem_append, Scope.allStmts_mk]
    simp only [hplace, hleave, true_and, and_assoc]

/-- A statement's visits, apart from its own entering, are those of what stands below it. -/
theorem Stmt.forall_visits (rest : List (Visit ι)) (s : Stmt ι) :
    (∀ v ∈ s.visitsThen rest, P v)
      ↔ ((∀ l ∈ s.allLocals, P (.enterLocal l)) ∧ ∀ t ∈ s.allStmts, P (.enterStmt t))
        ∧ ∀ v ∈ rest, P v := by
  match s with
  | ⟨head, scope, exprs⟩ =>
    rw [Stmt.visitsThen, List.forall_mem_cons, nested_forall_visits _ scope,
      forall_exprVisits hplace hleave, forall_optionTextVisits hplace hleave,
      forall_switchVisits hplace hleave, Stmt.allLocals, Stmt.allStmts_mk, List.forall_mem_cons]
    constructor
    · rintro ⟨hself, ⟨hlocals, hstmts⟩, hrest⟩
      exact ⟨⟨hlocals, hself, hstmts⟩, hrest⟩
    · rintro ⟨⟨hlocals, hself, hstmts⟩, hrest⟩
      exact ⟨hself, ⟨hlocals, hstmts⟩, hrest⟩

theorem stmtList_forall_visits (rest : List (Visit ι)) (ss : List (Stmt ι)) :
    (∀ v ∈ stmtListVisitsThen rest ss, P v)
      ↔ ((∀ l ∈ stmtListAllLocals ss, P (.enterLocal l))
          ∧ ∀ t ∈ stmtListAllStmts ss, P (.enterStmt t)) ∧ ∀ v ∈ rest, P v := by
  match ss with
  | [] => simp [stmtListVisitsThen, stmtListAllLocals]
  | s :: ss =>
    rw [stmtListVisitsThen, Stmt.forall_visits _ s, stmtList_forall_visits rest ss, stmtListAllLocals,
      List.forall_mem_append, stmtListAllStmts_cons, List.forall_mem_append]
    constructor
    · rintro ⟨⟨hlocals, hstmts⟩, ⟨hlocals', hstmts'⟩, hrest⟩
      exact ⟨⟨⟨hlocals, hlocals'⟩, hstmts, hstmts'⟩, hrest⟩
    · rintro ⟨⟨⟨hlocals, hlocals'⟩, hstmts, hstmts'⟩, hrest⟩
      exact ⟨⟨hlocals, hstmts⟩, ⟨hlocals', hstmts'⟩, hrest⟩

theorem nested_forall_visits (rest : List (Visit ι)) (s : Option (Scope ι)) :
    (∀ v ∈ nestedVisitsThen rest s, P v)
      ↔ ((∀ l ∈ nestedAllLocals s, P (.enterLocal l)) ∧ ∀ t ∈ nestedAllStmts s, P (.enterStmt t))
        ∧ ∀ v ∈ rest, P v := by
  match s with
  | none => simp [nestedVisitsThen, nestedAllLocals]
  | some s => exact Scope.forall_visits rest s

end

/-- What holds of all steps of a walk is what holds of the locals and statements that it meets. -/
theorem forall_visits (f : Function ι) :
    (∀ v ∈ f.visits, P v)
      ↔ (∀ l ∈ f.scope.allLocals, P (.enterLocal l)) ∧ ∀ s ∈ f.scope.allStmts, P (.enterStmt s) := by
  rw [Function.visits, Scope.forall_visits hplace hleave, forall_argVisits hplace hleave]
  simp

end

structure Function.WellFormed (f : Function ι) : Prop where
  noFunctions : ∀ l ∈ f.scope.allLocals, l.isFunction = false
  fewExprs : ∀ s ∈ f.scope.allStmts, s.exprs.length ≤ maxExprs
  loops : ∀ s ∈ f.scope.allStmts, ∀ target ∈ s.head.loop,
    ∃ t ∈ f.scope.allStmts, t.id = target ∧ t.head.kind.isLoopTarget

end TreePack
