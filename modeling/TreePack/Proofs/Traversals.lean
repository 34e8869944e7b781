import TreePack.Compact.Write
import TreePack.Proofs.Filling
/-!
Two traversals of a tree.

Planning and writing follow one list of steps, `Function.visits`. Here each of them is written as a recursion
over the tree of its own: `Context.planScope` sets aside what a scope needs and notes it, `Progress.writeScope`
writes it, finishes nodes and arrays, and notes what it gave out. Either is the same as following the list
(`Carries`), so the two meet the nodes of a tree in one order.
-/

namespace TreePack

variable {ι : Type}

/-! ### Traversals and steps -/

section

variable {m : Type → Type} [Monad m] {β : Type}

/-- A traversal that does what some steps in front of others do, and notes what it has done. -/
def Carries (walk : List (Visit ι) → m Unit) (x : m (List β)) (steps : List (Visit ι) → List (Visit ι))
    (notes : List β) : Prop :=
  ∀ rest, (do let noted ← x; walk rest; return noted) = (do walk (steps rest); return notes)

variable [LawfulMonad m] {walk : List (Visit ι) → m Unit} {x y : m (List β)}
  {steps steps' : List (Visit ι) → List (Visit ι)} {notes notes' : List β}

theorem Carries.nil : Carries walk (pure [] : m (List β)) (fun rest => rest) [] := by
  intro rest
  rw [pure_bind]

/-- One traversal after another. -/
theorem Carries.append (h : Carries walk x steps notes) (h' : Carries walk y steps' notes') :
    Carries walk (do let noted ← x; let noted' ← y; return noted ++ noted')
      (fun rest => steps (steps' rest)) (notes ++ notes') := by
  intro rest
  calc
    (do let noted ← (do let noted ← x; let noted' ← y; return noted ++ noted'); walk rest; return noted)
        = (do let noted ← x; let noted' ← (do let noted' ← y; walk rest; return noted')
              return noted ++ noted') := by simp only [bind_assoc, pure_bind]
    _ = (do let noted ← (do let noted ← x; walk (steps' rest); return noted); return noted ++ notes') := by
      simp only [h' rest, bind_assoc, pure_bind]
    _ = (do walk (steps (steps' rest)); return notes ++ notes') := by
      simp only [h (steps' rest), bind_assoc, pure_bind]

/-- A traversal followed by a step that notes nothing. -/
theorem Carries.append_step {z : m Unit} (h : Carries walk x steps notes)
    (hz : ∀ rest, walk (steps' rest) = (do z; walk rest)) :
    Carries walk (do let noted ← x; z; return noted) (fun rest => steps (steps' rest)) notes := by
  intro rest
  have h := h (steps' rest)
  simp only [hz, bind_assoc] at h
  simp only [bind_assoc, pure_bind]
  exact h

/-- A step that notes nothing, followed by a traversal. -/
theorem Carries.step_append {z : m Unit} (h : Carries walk x steps notes)
    (hz : ∀ rest, walk (steps' rest) = (do z; walk rest)) :
    Carries walk (do z; x) (fun rest => steps' (steps rest)) notes := by
  intro rest
  have h := h rest
  simp only [hz, bind_assoc]
  rw [h]

omit [LawfulMonad m] in
/-- Steps that do nothing in front of a traversal. -/
theorem Carries.skip_first (h : Carries walk x steps notes) (hskip : ∀ rest, walk (steps' rest) = walk rest) :
    Carries walk x (fun rest => steps' (steps rest)) notes := by
  intro rest
  rw [hskip]
  exact h rest

omit [LawfulMonad m] in
/-- Steps that do nothing after a traversal. -/
theorem Carries.skip_last (h : Carries walk x steps notes) (hskip : ∀ rest, walk (steps' rest) = walk rest) :
    Carries walk x (fun rest => steps (steps' rest)) notes := by
  intro rest
  have h := h (steps' rest)
  rw [hskip] at h
  exact h

/-- What a traversal does when nothing comes after it. -/
theorem Carries.eq (h : Carries walk x steps notes) (hnil : walk [] = pure ()) :
    x = (do walk (steps []); return notes) := by
  have h := h []
  rw [hnil] at h
  simp only [pure_bind, bind_pure] at h
  exact h

end

variable [DecidableEq ι] [Hashable ι]

/-! ### Planning node by node -/

namespace Context

def setAside (p : Piece ι) : CompactM ι (List (Piece ι)) := do
  planNode p
  return [p]

def planArray : List (Leaf ι (Cell ι)) → CompactM ι (List (Piece ι))
  | [] => return []
  | first :: others => do
    planRow ⟨first, others⟩
    return [⟨first, others⟩]

def planOptionText : Option (Leaf ι Text) → CompactM ι (List (Piece ι))
  | none => return []
  | some t => setAside (textPiece t)

def planNames : List (Local ι) → CompactM ι (List (Piece ι))
  | [] => return []
  | l :: locals => do
    planVisit (.enterLocal l)
    let name ← setAside (textPiece l.name)
    let others ← planNames locals
    return name ++ others

mutual

def planExpr : Expr ι → CompactM ι (List (Piece ι))
  | .node head children => do
    let record ← setAside (.single head.id (Expr.node head children).cell)
    let symbol ← planOptionText head.symbol
    let method ← planOptionText head.method
    let below ← planSlots children
    return record ++ symbol ++ method ++ below

def planSlots : {n : Nat} → Slots ι n → CompactM ι (List (Piece ι))
  | _, .nil => return []
  | _, .empty slots => planSlots slots
  | _, .full child slots => do
    let first ← planExpr child
    let others ← planSlots slots
    return first ++ others

end

def planExprs : List (Expr ι) → CompactM ι (List (Piece ι))
  | [] => return []
  | e :: exprs => do
    let first ← planExpr e
    let others ← planExprs exprs
    return first ++ others

def planLocals (locals : List (Local ι)) : CompactM ι (List (Piece ι)) := do
  let row ← planArray (localCells locals)
  let names ← planNames locals
  return row ++ names

mutual

def planScope : Scope ι → CompactM ι (List (Piece ι))
  | ⟨id, locals, stmts⟩ => do
    let record ← setAside (.single id (Scope.mk id locals stmts).cell)
    let declared ← planLocals locals
    let row ← planArray (stmtCells stmts)
    let below ← planStmts stmts
    return record ++ declared ++ row ++ below

def planStmt : Stmt ι → CompactM ι (List (Piece ι))
  | ⟨head, scope, exprs⟩ => do
    planVisit (.enterStmt ⟨head, scope, exprs⟩)
    let nested ← planNested scope
    let values ← planExprs exprs
    let label ← planOptionText head.label
    let switch ← planArray (switchCells head.switch)
    return nested ++ values ++ label ++ switch

def planStmts : List (Stmt ι) → CompactM ι (List (Piece ι))
  | [] => return []
  | s :: ss => do
    let first ← planStmt s
    let others ← planStmts ss
    return first ++ others

def planNested : Option (Scope ι) → CompactM ι (List (Piece ι))
  | none => return []
  | some s => planScope s

end

def planArgs : List (Leaf ι TypeDesc) → CompactM ι (List (Piece ι))
  | [] => return []
  | t :: args => do
    let first ← setAside (argPiece t)
    let others ← planArgs args
    return first ++ others

omit [DecidableEq ι] [Hashable ι] in
theorem inArray_localCells (locals : List (Local ι)) : ∀ c ∈ localCells locals, c.val.kind.inArray = true :=
  List.forall_mem_map.mpr fun _ _ => rfl

omit [DecidableEq ι] [Hashable ι] in
theorem inArray_stmtCells (stmts : List (Stmt ι)) : ∀ c ∈ stmtCells stmts, c.val.kind.inArray = true :=
  List.forall_mem_map.mpr fun _ _ => rfl

omit [DecidableEq ι] [Hashable ι] in
theorem inArray_switchCells (labels : List (Leaf ι UInt64)) :
    ∀ c ∈ switchCells labels, c.val.kind.inArray = true :=
  List.forall_mem_map.mpr fun _ _ => rfl

/-- The walk of planning plans single nodes as a traversal does. -/
theorem carries_setAside (p : Piece ι) (hsingle : p.first.val.kind.inArray = false) :
    Carries planVisits (setAside p) (fun rest => .place p :: rest) [p] := by
  intro rest
  simp only [setAside, planVisits, planVisit, planPiece, hsingle, Bool.false_eq_true, ↓reduceIte, bind_assoc,
    pure_bind]

/-- A row is planned as one step of the walk, with its elements registered before it is reserved. -/
theorem carries_planRow {first : Leaf ι (Cell ι)} (others : List (Leaf ι (Cell ι)))
    (harray : first.val.kind.inArray = true) :
    Carries planVisits (planArray (first :: others)) (fun rest => .place ⟨first, others⟩ :: rest)
      [⟨first, others⟩] := by
  intro rest
  simp only [planArray, planVisits, planVisit, planPiece, harray, ↓reduceIte, bind_assoc, pure_bind]

/-- Planning has nothing to do when a node or an array is finished. -/
theorem planVisits_leave (rest : List (Visit ι)) : planVisits (.leave :: rest) = planVisits rest := by
  rw [planVisits, planVisit, pure_bind]

theorem carries_planText (t : Leaf ι Text) :
    Carries planVisits (setAside (textPiece t)) (fun rest => textVisitsThen rest t) [textPiece t] :=
  (carries_setAside (textPiece t) rfl).skip_last planVisits_leave

theorem carries_planOptionText (t : Option (Leaf ι Text)) :
    Carries planVisits (planOptionText t) (fun rest => optionTextVisitsThen rest t)
      (t.toList.map textPiece) := by
  cases t with
  | none => exact Carries.nil
  | some t => exact carries_planText t

theorem carries_planNames (locals : List (Local ι)) :
    Carries planVisits (planNames locals) (fun rest => localVisitsThen rest locals)
      (locals.map fun l => textPiece l.name) := by
  induction locals with
  | nil => exact Carries.nil
  | cons l locals ih =>
    have hstep (rest : List (Visit ι)) :
        planVisits (.enterLocal l :: rest) = (do planVisit (.enterLocal l); planVisits rest) := rfl
    exact ((carries_planText l.name).append ih).step_append hstep

/-- An array and what belongs to its elements, which is nothing if there are none. -/
theorem carries_planArray {below : CompactM ι (List (Piece ι))} {contents : List (Visit ι) → List (Visit ι)}
    {notes : List (Piece ι)} {cells : List (Leaf ι (Cell ι))}
    (harray : ∀ c ∈ cells, c.val.kind.inArray = true) (h : Carries planVisits below contents notes)
    (hempty : cells = [] → below = pure [] ∧ notes = []) :
    Carries planVisits (do let row ← planArray cells; let noted ← below; return row ++ noted)
      (fun rest => arrayVisitsThen cells contents rest) (arrayPieces cells ++ notes) := by
  cases cells with
  | nil =>
    obtain ⟨rfl, rfl⟩ := hempty rfl
    exact Carries.nil
  | cons first others =>
    exact ((carries_planRow others (harray first List.mem_cons_self)).append h).skip_last planVisits_leave

mutual

/-- Planning an expression by recursion on it runs its visits and sets its pieces aside. -/
theorem carries_planExpr (e : Expr ι) :
    Carries planVisits (planExpr e) (fun rest => e.visitsThen rest) e.pieces := by
  match e with
  | .node head children =>
    have hchildren := (carries_planSlots children).skip_last planVisits_leave
    have h := (((carries_setAside (.single head.id (Expr.node head children).cell) rfl).append
      (carries_planOptionText head.symbol)).append (carries_planOptionText head.method)).append hchildren
    simp only [bind_assoc, pure_bind, List.append_assoc, List.singleton_append] at h
    simp only [planExpr, Expr.pieces, List.append_assoc]
    exact h

theorem carries_planSlots {n : Nat} (s : Slots ι n) :
    Carries planVisits (planSlots s) (fun rest => s.visitsThen rest) s.pieces := by
  match s with
  | .nil => exact Carries.nil
  | .empty slots => exact carries_planSlots slots
  | .full child slots => exact (carries_planExpr child).append (carries_planSlots slots)

end

theorem carries_planExprs (exprs : List (Expr ι)) :
    Carries planVisits (planExprs exprs) (fun rest => exprListVisitsThen rest exprs)
      (exprs.flatMap Expr.pieces) := by
  induction exprs with
  | nil => exact Carries.nil
  | cons e exprs ih => exact (carries_planExpr e).append ih

theorem carries_planSwitch (labels : List (Leaf ι UInt64)) :
    Carries planVisits (planArray (switchCells labels)) (fun rest => switchVisitsThen rest labels)
      (arrayPieces (switchCells labels)) := by
  have h := carries_planArray (inArray_switchCells labels) Carries.nil fun _ => ⟨rfl, rfl⟩
  simp only [pure_bind, List.append_nil, bind_pure] at h
  exact h

theorem carries_planLocals (locals : List (Local ι)) :
    Carries planVisits (planLocals locals)
      (fun rest => arrayVisitsThen (localCells locals) (fun rest => localVisitsThen rest locals) rest)
      (arrayPieces (localCells locals) ++ locals.map fun l => textPiece l.name) := by
  apply carries_planArray (inArray_localCells locals) (carries_planNames locals)
  intro hempty
  rw [List.map_eq_nil_iff.mp hempty]
  exact ⟨rfl, rfl⟩

mutual

/-- Planning a scope by recursion on it runs its visits and sets its pieces aside. -/
theorem carries_planScope (s : Scope ι) :
    Carries planVisits (planScope s) (fun rest => s.visitsThen rest) s.pieces := by
  match s with
  | ⟨id, locals, stmts⟩ =>
    have hstmts := carries_planArray (inArray_stmtCells stmts) (carries_planStmts stmts) fun hempty => by
      rw [List.map_eq_nil_iff.mp hempty]
      exact ⟨rfl, rfl⟩
    have h := ((carries_setAside (.single id (Scope.mk id locals stmts).cell) rfl).append
      (carries_planLocals locals)).append (hstmts.skip_last planVisits_leave)
    simp only [bind_assoc, pure_bind, List.append_assoc, List.cons_append] at h
    simp only [planScope, Scope.pieces, List.append_assoc]
    exact h

/-- Planning what is below a statement runs its visits and sets its pieces aside. -/
theorem carries_planStmt (s : Stmt ι) :
    Carries planVisits (planStmt s) (fun rest => s.visitsThen rest) s.pieces := by
  match s with
  | ⟨head, scope, exprs⟩ =>
    have hstep (rest : List (Visit ι)) : planVisits (.enterStmt ⟨head, scope, exprs⟩ :: rest)
        = (do planVisit (.enterStmt ⟨head, scope, exprs⟩); planVisits rest) := rfl
    have h := ((((carries_planNested scope).append (carries_planExprs exprs)).append
      (carries_planOptionText head.label)).append (carries_planSwitch head.switch)).step_append hstep
    simp only [bind_assoc, pure_bind, List.append_assoc] at h
    simp only [planStmt, Stmt.pieces, List.append_assoc]
    exact h

theorem carries_planStmts (ss : List (Stmt ι)) :
    Carries planVisits (planStmts ss) (fun rest => stmtListVisitsThen rest ss) (stmtListPieces ss) := by
  match ss with
  | [] => exact Carries.nil
  | s :: ss => exact (carries_planStmt s).append (carries_planStmts ss)

theorem carries_planNested (s : Option (Scope ι)) :
    Carries planVisits (planNested s) (fun rest => nestedVisitsThen rest s) (nestedPieces s) := by
  match s with
  | none => exact Carries.nil
  | some s => exact carries_planScope s

end

theorem carries_planArgs (args : List (Leaf ι TypeDesc)) :
    Carries planVisits (planArgs args) (fun rest => argVisitsThen rest args) (args.map argPiece) := by
  induction args with
  | nil => exact Carries.nil
  | cons t args ih => exact ((carries_setAside (argPiece t) rfl).skip_last planVisits_leave).append ih

end Context

/-! ### Writing node by node -/

structure Emission (ι : Type) where
  piece : Piece ι
  offset : Offset
  bytes : List UInt8

def Piece.emission (ledger : Ledger ι) (p : Piece ι) : Emission ι :=
  ⟨p, ledger.offset p.first.id, rowBytes ledger p.cells⟩

namespace Progress

variable (ledger : Ledger ι)

/-- Writes a piece and notes it. The labels of a switch are looked up as a whole before each of them is. -/
def writeOut (p : Piece ι) : WriteM ι (List (Emission ι)) := do
  if p.first.val.kind = .switchLabel then
    let _ ← lookUp ledger p.first.id
  let base := ledger.offset p.first.id
  let bytes ← relocate ledger base.toNat p.cells
  emit base bytes
  return [⟨p, base, bytes⟩]

def writeArray (cells : List (Leaf ι (Cell ι))) (contents : WriteM ι (List (Emission ι))) :
    WriteM ι (List (Emission ι)) :=
  match cells with
  | [] => return []
  | first :: others => do
    let row ← writeOut ledger ⟨first, others⟩
    let below ← contents
    release
    return row ++ below

def writeText (t : Leaf ι Text) : WriteM ι (List (Emission ι)) := do
  let record ← writeOut ledger (textPiece t)
  release
  return record

def writeOptionText : Option (Leaf ι Text) → WriteM ι (List (Emission ι))
  | none => return []
  | some t => writeText ledger t

def writeNames : List (Local ι) → WriteM ι (List (Emission ι))
  | [] => return []
  | l :: locals => do
    let name ← writeText ledger l.name
    let others ← writeNames locals
    return name ++ others

mutual

def writeExpr : Expr ι → WriteM ι (List (Emission ι))
  | .node head children => do
    let record ← writeOut ledger (.single head.id (Expr.node head children).cell)
    let symbol ← writeOptionText ledger head.symbol
    let method ← writeOptionText ledger head.method
    let below ← writeSlots children
    release
    return record ++ symbol ++ method ++ below

def writeSlots : {n : Nat} → Slots ι n → WriteM ι (List (Emission ι))
  | _, .nil => return []
  | _, .empty slots => writeSlots slots
  | _, .full child slots => do
    let first ← writeExpr child
    let others ← writeSlots slots
    return first ++ others

end

def writeExprs : List (Expr ι) → WriteM ι (List (Emission ι))
  | [] => return []
  | e :: exprs => do
    let first ← writeExpr ledger e
    let others ← writeExprs exprs
    return first ++ others

mutual

def writeScope : Scope ι → WriteM ι (List (Emission ι))
  | ⟨id, locals, stmts⟩ => do
    let record ← writeOut ledger (.single id (Scope.mk id locals stmts).cell)
    let declared ← writeArray ledger (localCells locals) (writeNames ledger locals)
    let below ← writeArray ledger (stmtCells stmts) (writeStmts stmts)
    release
    return record ++ declared ++ below

def writeStmt : Stmt ι → WriteM ι (List (Emission ι))
  | ⟨head, scope, exprs⟩ => do
    let nested ← writeNested scope
    let values ← writeExprs ledger exprs
    let label ← writeOptionText ledger head.label
    let switch ← writeArray ledger (switchCells head.switch) (return [])
    return nested ++ values ++ label ++ switch

def writeStmts : List (Stmt ι) → WriteM ι (List (Emission ι))
  | [] => return []
  | s :: ss => do
    let first ← writeStmt s
    let others ← writeStmts ss
    return first ++ others

def writeNested : Option (Scope ι) → WriteM ι (List (Emission ι))
  | none => return []
  | some s => writeScope s

end

def writeArgs : List (Leaf ι TypeDesc) → WriteM ι (List (Emission ι))
  | [] => return []
  | t :: args => do
    let first ← writeOut ledger (argPiece t)
    release
    let others ← writeArgs args
    return first ++ others

/-- If cells are relocated, their bytes are those with the offsets of the ledger. -/
theorem relocate_bind {α : Type} (pos : Nat) (cs : List (Leaf ι (Cell ι))) (next : List UInt8 → WriteM ι α) :
    (relocate ledger pos cs >>= next) = (relocate ledger pos cs >>= fun _ => next (rowBytes ledger cs)) := by
  funext s
  cases h : relocate ledger pos cs s with
  | ok bytes s' =>
    obtain ⟨-, hbytes, -⟩ := relocate_inv h
    rw [bind_of_ok h, bind_of_ok h, hbytes]
  | error e s' => rw [bind_of_error h, bind_of_error h]

/-- Writing a piece emits its bytes once, at its base. -/
theorem carries_writeOut (p : Piece ι) :
    Carries (writeVisits ledger) (writeOut ledger p) (fun rest => .place p :: rest) [p.emission ledger] := by
  let base := ledger.offset p.first.id
  -- Relocation can only give the bytes of the row, so they may be named beforehand.
  have hbytes : (do let bytes ← relocate ledger base.toNat p.cells
                    emit base bytes
                    return [(⟨p, base, bytes⟩ : Emission ι)])
      = (do let bytes ← relocate ledger base.toNat p.cells
            emit base bytes
            return [p.emission ledger]) := (relocate_bind ledger _ _ _).trans
        (relocate_bind ledger _ _ fun bytes => do emit base bytes; return [p.emission ledger]).symm
  have hnote : writeOut ledger p = (do writePiece ledger p; return [p.emission ledger]) := by
    unfold writeOut writePiece
    by_cases hkind : p.first.val.kind = .switchLabel
    · simp only [hkind, ↓reduceIte, bind_assoc]
      exact congrArg _ (funext fun _ => hbytes)
    · simp only [hkind, ↓reduceIte, bind_assoc]
      exact hbytes
  intro rest
  simp only [hnote, writeVisits, writeVisit, bind_assoc, pure_bind]

theorem writeVisits_leave (rest : List (Visit ι)) :
    writeVisits ledger (.leave :: rest) = (do release; writeVisits ledger rest) := rfl

theorem carries_writeText (t : Leaf ι Text) :
    Carries (writeVisits ledger) (writeText ledger t) (fun rest => textVisitsThen rest t)
      [(textPiece t).emission ledger] :=
  (carries_writeOut ledger (textPiece t)).append_step (writeVisits_leave ledger)

theorem carries_writeOptionText (t : Option (Leaf ι Text)) :
    Carries (writeVisits ledger) (writeOptionText ledger t) (fun rest => optionTextVisitsThen rest t)
      ((t.toList.map textPiece).map (Piece.emission ledger)) := by
  cases t with
  | none => exact Carries.nil
  | some t => exact carries_writeText ledger t

theorem carries_writeNames (locals : List (Local ι)) :
    Carries (writeVisits ledger) (writeNames ledger locals) (fun rest => localVisitsThen rest locals)
      ((locals.map fun l => textPiece l.name).map (Piece.emission ledger)) := by
  induction locals with
  | nil => exact Carries.nil
  | cons l locals ih =>
    -- Nothing is written when a local is met.
    have hmeet (rest : List (Visit ι)) :
        writeVisits ledger (.enterLocal l :: rest) = writeVisits ledger rest := rfl
    exact ((carries_writeText ledger l.name).append ih).skip_first hmeet

/-- An array is written before what its elements own, and an empty one not at all. -/
theorem carries_writeArray {contents : WriteM ι (List (Emission ι))}
    {steps : List (Visit ι) → List (Visit ι)} {ps : List (Piece ι)} (cells : List (Leaf ι (Cell ι)))
    (h : Carries (writeVisits ledger) contents steps (ps.map (Piece.emission ledger)))
    (hempty : cells = [] → ps = []) :
    Carries (writeVisits ledger) (writeArray ledger cells contents)
      (fun rest => arrayVisitsThen cells steps rest)
      ((arrayPieces cells ++ ps).map (Piece.emission ledger)) := by
  cases cells with
  | nil =>
    rw [hempty rfl]
    exact Carries.nil
  | cons first others =>
    have h := ((carries_writeOut ledger ⟨first, others⟩).append h).append_step (writeVisits_leave ledger)
    simp only [bind_assoc, pure_bind] at h
    exact h

mutual

/-- Writing an expression by recursion on it runs its visits and emits its pieces. -/
theorem carries_writeExpr (e : Expr ι) :
    Carries (writeVisits ledger) (writeExpr ledger e) (fun rest => e.visitsThen rest)
      (e.pieces.map (Piece.emission ledger)) := by
  match e with
  | .node head children =>
    have h := ((((carries_writeOut ledger (.single head.id (Expr.node head children).cell)).append
      (carries_writeOptionText ledger head.symbol)).append (carries_writeOptionText ledger head.method)).append
      (carries_writeSlots children)).append_step (writeVisits_leave ledger)
    simp only [bind_assoc, pure_bind, List.append_assoc, List.cons_append, List.nil_append] at h
    simp only [writeExpr, Expr.pieces, List.map_cons, List.map_append, List.append_assoc]
    exact h

theorem carries_writeSlots {n : Nat} (s : Slots ι n) :
    Carries (writeVisits ledger) (writeSlots ledger s) (fun rest => s.visitsThen rest)
      (s.pieces.map (Piece.emission ledger)) := by
  match s with
  | .nil => exact Carries.nil
  | .empty slots => exact carries_writeSlots slots
  | .full child slots =>
    rw [Slots.pieces, List.map_append]
    exact (carries_writeExpr child).append (carries_writeSlots slots)

end

theorem carries_writeExprs (exprs : List (Expr ι)) :
    Carries (writeVisits ledger) (writeExprs ledger exprs) (fun rest => exprListVisitsThen rest exprs)
      ((exprs.flatMap Expr.pieces).map (Piece.emission ledger)) := by
  induction exprs with
  | nil => exact Carries.nil
  | cons e exprs ih =>
    rw [List.flatMap_cons, List.map_append]
    exact (carries_writeExpr ledger e).append ih

theorem carries_writeSwitch (labels : List (Leaf ι UInt64)) :
    Carries (writeVisits ledger) (writeArray ledger (switchCells labels) (return []))
      (fun rest => switchVisitsThen rest labels)
      ((arrayPieces (switchCells labels)).map (Piece.emission ledger)) := by
  have h := carries_writeArray ledger (switchCells labels) (Carries.nil : Carries _ _ _ (([] : List (Piece ι)).map _))
    fun _ => rfl
  rw [List.append_nil] at h
  exact h

mutual

/-- Writing a scope by recursion on it runs its visits and emits its pieces. -/
theorem carries_writeScope (s : Scope ι) :
    Carries (writeVisits ledger) (writeScope ledger s) (fun rest => s.visitsThen rest)
      (s.pieces.map (Piece.emission ledger)) := by
  match s with
  | ⟨id, locals, stmts⟩ =>
    have hlocals := carries_writeArray ledger (localCells locals) (carries_writeNames ledger locals) fun hempty => by
      rw [List.map_eq_nil_iff.mp hempty]
      rfl
    have hstmts := carries_writeArray ledger (stmtCells stmts) (carries_writeStmts stmts) fun hempty => by
      rw [List.map_eq_nil_iff.mp hempty]
      rfl
    have h := (((carries_writeOut ledger (.single id (Scope.mk id locals stmts).cell)).append hlocals).append
      hstmts).append_step (writeVisits_leave ledger)
    simp only [bind_assoc, pure_bind, List.append_assoc, List.cons_append, List.nil_append, List.map_append]
      at h
    simp only [writeScope, Scope.pieces, List.map_cons, List.map_append, List.append_assoc]
    exact h

/-- Writing what is below a statement runs its visits and emits its pieces. -/
theorem carries_writeStmt (s : Stmt ι) :
    Carries (writeVisits ledger) (writeStmt ledger s) (fun rest => s.visitsThen rest)
      (s.pieces.map (Piece.emission ledger)) := by
  match s with
  | ⟨head, scope, exprs⟩ =>
    -- Nothing is written when a statement is met.
    have hmeet (rest : List (Visit ι)) : writeVisits ledger (.enterStmt ⟨head, scope, exprs⟩ :: rest)
        = writeVisits ledger rest := rfl
    have h := ((((carries_writeNested scope).append (carries_writeExprs ledger exprs)).append
      (carries_writeOptionText ledger head.label)).append (carries_writeSwitch ledger head.switch)).skip_first hmeet
    simp only [bind_assoc, pure_bind, List.append_assoc] at h
    simp only [writeStmt, Stmt.pieces, List.map_append, List.append_assoc]
    exact h

theorem carries_writeStmts (ss : List (Stmt ι)) :
    Carries (writeVisits ledger) (writeStmts ledger ss) (fun rest => stmtListVisitsThen rest ss)
      ((stmtListPieces ss).map (Piece.emission ledger)) := by
  match ss with
  | [] => exact Carries.nil
  | s :: ss =>
    rw [stmtListPieces, List.map_append]
    exact (carries_writeStmt s).append (carries_writeStmts ss)

theorem carries_writeNested (s : Option (Scope ι)) :
    Carries (writeVisits ledger) (writeNested ledger s) (fun rest => nestedVisitsThen rest s)
      ((nestedPieces s).map (Piece.emission ledger)) := by
  match s with
  | none => exact Carries.nil
  | some s => exact carries_writeScope s

end

theorem carries_writeArgs (args : List (Leaf ι TypeDesc)) :
    Carries (writeVisits ledger) (writeArgs ledger args) (fun rest => argVisitsThen rest args)
      ((args.map argPiece).map (Piece.emission ledger)) := by
  induction args with
  | nil => exact Carries.nil
  | cons t args ih =>
    have h := ((carries_writeOut ledger (argPiece t)).append_step (writeVisits_leave ledger)).append ih
    simp only [bind_assoc, pure_bind] at h
    exact h

end Progress

end TreePack
