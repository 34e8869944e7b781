import TreePack.Tree.Basic

namespace TreePack

variable {ι α : Type}

mutual

def Scope.mapStmts (f : Stmt ι → Stmt ι) : Scope ι → Scope ι
  | ⟨id, locals, stmts⟩ => ⟨id, locals, stmtListMap f stmts⟩

def Stmt.mapStmts (f : Stmt ι → Stmt ι) : Stmt ι → Stmt ι
  | ⟨head, scope, exprs⟩ => f ⟨head, nestedMap f scope, exprs⟩

def stmtListMap (f : Stmt ι → Stmt ι) : List (Stmt ι) → List (Stmt ι)
  | [] => []
  | s :: ss => s.mapStmts f :: stmtListMap f ss

def nestedMap (f : Stmt ι → Stmt ι) : Option (Scope ι) → Option (Scope ι)
  | none => none
  | some s => some (s.mapStmts f)

end

def swapAt? (l : List α) (i j : Nat) : Option (List α) :=
  match l[i]?, l[j]? with
  | some a, some b => some ((l.set i b).set j a)
  | _, _ => none

/-- Exchanges what two places hold, while the places keep their identities: `move a b` is what `b` holds, at the
place of `a`. -/
def swapContents? (move : α → α → α) (l : List α) (i j : Nat) : Option (List α) :=
  match l[i]?, l[j]? with
  | some a, some b => some ((l.set i (move a b)).set j (move b a))
  | _, _ => none

def Local.moveTo (a b : Local ι) : Local ι := { b with id := a.id }

def Stmt.moveTo (a b : Stmt ι) : Stmt ι := ⟨{ b.head with id := a.head.id }, b.scope, b.exprs⟩

namespace Scope

def swapLocals? (s : Scope ι) (i j : Nat) : Option (Scope ι) :=
  (swapContents? Local.moveTo s.locals i j).map fun locals => ⟨s.id, locals, s.stmts⟩

def swapStmts? (s : Scope ι) (i j : Nat) : Option (Scope ι) :=
  (swapContents? Stmt.moveTo s.stmts i j).map fun stmts => ⟨s.id, s.locals, stmts⟩

def popLocal? (s : Scope ι) : Option (Scope ι) :=
  if s.locals.isEmpty then none else some ⟨s.id, s.locals.dropLast, s.stmts⟩

def popStmt? (s : Scope ι) : Option (Scope ι) :=
  if s.stmts.isEmpty then none else some ⟨s.id, s.locals, s.stmts.dropLast⟩

end Scope

namespace Stmt

def withKind (s : Stmt ι) (kind : StmtKind) : Stmt ι := ⟨{ s.head with kind }, s.scope, s.exprs⟩

def withLoc (s : Stmt ι) (loc : Option SourceLoc) : Stmt ι := ⟨{ s.head with loc }, s.scope, s.exprs⟩

def withLoop (s : Stmt ι) (loop : Option ι) : Stmt ι := ⟨{ s.head with loop }, s.scope, s.exprs⟩

def withLabel (s : Stmt ι) (label : Option (Leaf ι Text)) : Stmt ι :=
  ⟨{ s.head with label }, s.scope, s.exprs⟩

def withSwitch (s : Stmt ι) (switch : List (Leaf ι UInt64)) : Stmt ι :=
  ⟨{ s.head with switch }, s.scope, s.exprs⟩

def withScope (s : Stmt ι) (scope : Option (Scope ι)) : Stmt ι := ⟨s.head, scope, s.exprs⟩

def withExprs (s : Stmt ι) (exprs : List (Expr ι)) : Stmt ι := ⟨s.head, s.scope, exprs⟩

def modifyExpr? (s : Stmt ι) (i : Nat) (f : Expr ι → Option (Expr ι)) : Option (Stmt ι) := do
  let e ← s.exprs[i]?
  let e ← f e
  return s.withExprs (s.exprs.set i e)

def setSwitch? (s : Stmt ι) (i : Nat) (n : UInt64) : Option (Stmt ι) := do
  let label ← s.head.switch[i]?
  return s.withSwitch (s.head.switch.set i { label with val := n })

def popSwitch? (s : Stmt ι) : Option (Stmt ι) :=
  if s.head.switch.isEmpty then none else some (s.withSwitch s.head.switch.dropLast)

end Stmt

namespace Expr

def withValue : Expr ι → UInt64 → Expr ι
  | node head children, value => node { head with value } children

def setChild? : Expr ι → Nat → Option (Expr ι) → Option (Expr ι)
  | node head children, slot, child =>
    if h : slot < maxChildren then some (node head (children.set ⟨slot, h⟩ child)) else none

def child? (e : Expr ι) (slot : Nat) : Option (Expr ι) :=
  if h : slot < maxChildren then e.children.get ⟨slot, h⟩ else none

def dropChild? (e : Expr ι) (slot : Nat) : Option (Expr ι) :=
  if (e.child? slot).isSome then e.setChild? slot none else none

def swapChildren? (e : Expr ι) (i j : Nat) : Option (Expr ι) := do
  let swapped ← e.setChild? i (e.child? j)
  swapped.setChild? j (e.child? i)

end Expr

namespace Function

def stmt? (f : Function ι) (n : Nat) : Option (Stmt ι) := f.scope.allStmts[n]?

def modifyScope? (f : Function ι) (g : Scope ι → Option (Scope ι)) : Option (Function ι) :=
  (g f.scope).map fun scope => { f with scope }

variable [DecidableEq ι]

def replaceStmt (f : Function ι) (id : ι) (new : Stmt ι) : Function ι :=
  { f with scope := f.scope.mapStmts fun s => if s.id = id then new else s }

def modifyStmt? (f : Function ι) (n : Nat) (g : Stmt ι → Option (Stmt ι)) : Option (Function ι) := do
  let s ← f.stmt? n
  let new ← g s
  return f.replaceStmt s.id new

def modifyScopeOf? (f : Function ι) (n : Option Nat) (g : Scope ι → Option (Scope ι)) :
    Option (Function ι) :=
  match n with
  | none => f.modifyScope? g
  | some n => f.modifyStmt? n fun s => do
    let scope ← s.scope
    return s.withScope (some (← g scope))

end Function

end TreePack
