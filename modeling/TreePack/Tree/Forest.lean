import TreePack.Tree.Edit

namespace TreePack

variable {ι : Type}

inductive StmtEdit (ι : Type) where
  | setKind (kind : StmtKind)
  | setLoc (loc : Option SourceLoc)
  | setLoop (target : Option ι)
  | setValue (expr : Nat) (value : UInt64)
  | setSwitch (i : Nat) (label : UInt64)
  | popSwitch
  | dropExpr (expr : Nat)
  | dropChild (expr slot : Nat)
  | swapChildren (expr slot other : Nat)
  | dropLabel
  | dropScope

inductive ScopeEdit where
  | popStmt
  | popLocal
  | swapStmts (i j : Nat)
  | swapLocals (i j : Nat)

inductive ArgsEdit where
  | set (i : Nat) (ty : TypeDesc)
  | pop
  | swap (i j : Nat)

structure StmtPlace where
  tree : Nat
  stmt : Nat

inductive Edit (ι : Type) where
  | stmt (place : StmtPlace) (e : StmtEdit ι)
  /-- The scope is that of a statement, or the outermost one. -/
  | scope (tree : Nat) (stmt : Option Nat) (e : ScopeEdit)
  | args (tree : Nat) (e : ArgsEdit)
  /-- An expression goes to the end of those of another statement. -/
  | moveExpr (source : StmtPlace) (expr : Nat) (target : StmtPlace)
  | moveLabel (source target : StmtPlace)
  /-- A scope goes to a statement of another tree. -/
  | moveScope (source target : StmtPlace)
  | moveArg (source i target : Nat)

def StmtEdit.perform? : StmtEdit ι → Stmt ι → Option (Stmt ι)
  | setKind kind, s => some (s.withKind kind)
  | setLoc loc, s => some (s.withLoc loc)
  | setLoop target, s => some (s.withLoop target)
  | setValue i value, s => s.modifyExpr? i fun e => some (e.withValue value)
  | setSwitch i label, s => s.setSwitch? i label
  | popSwitch, s => s.popSwitch?
  | dropExpr i, s => if i < s.exprs.length then some (s.withExprs (s.exprs.eraseIdx i)) else none
  | dropChild i slot, s => s.modifyExpr? i fun e => e.dropChild? slot
  | swapChildren i slot other, s => s.modifyExpr? i fun e => e.swapChildren? slot other
  | dropLabel, s => if s.head.label.isSome then some (s.withLabel none) else none
  | dropScope, s => if s.scope.isSome then some (s.withScope none) else none

def ScopeEdit.perform? : ScopeEdit → Scope ι → Option (Scope ι)
  | popStmt, s => s.popStmt?
  | popLocal, s => s.popLocal?
  | swapStmts i j, s => s.swapStmts? i j
  | swapLocals i j, s => s.swapLocals? i j

def ArgsEdit.perform? : ArgsEdit → List (Leaf ι TypeDesc) → Option (List (Leaf ι TypeDesc))
  | set i ty, args => (args[i]?).map fun a => args.set i { a with val := ty }
  | pop, args => if args.isEmpty then none else some args.dropLast
  | swap i j, args => swapAt? args i j

abbrev Forest (ι : Type) : Type := Array (Option (Function ι))

namespace Forest

def tree? (trees : Forest ι) (t : Nat) : Option (Function ι) := trees[t]?.join

def modifyTree? (trees : Forest ι) (t : Nat) (f : Function ι → Option (Function ι)) :
    Option (Forest ι) := do
  let new ← f (← trees.tree? t)
  return trees.setIfInBounds t (some new)

def stmt? (trees : Forest ι) (p : StmtPlace) : Option (Stmt ι) := do (← trees.tree? p.tree).stmt? p.stmt

def modifyArgs? (trees : Forest ι) (t : Nat)
    (f : List (Leaf ι TypeDesc) → Option (List (Leaf ι TypeDesc))) : Option (Forest ι) :=
  trees.modifyTree? t fun g => (f g.args).map fun args => { g with args }

variable [DecidableEq ι]

def modifyStmt? (trees : Forest ι) (p : StmtPlace) (f : Stmt ι → Option (Stmt ι)) : Option (Forest ι) :=
  trees.modifyTree? p.tree fun t => t.modifyStmt? p.stmt f

def perform? (trees : Forest ι) : Edit ι → Option (Forest ι)
  | .stmt p e => trees.modifyStmt? p e.perform?
  | .scope t n e => trees.modifyTree? t fun f => f.modifyScopeOf? n e.perform?
  | .args t e => trees.modifyArgs? t e.perform?
  | .moveExpr source i target => do
    let e ← (← trees.stmt? source).exprs[i]?
    let trees ← trees.modifyStmt? source (StmtEdit.dropExpr i).perform?
    trees.modifyStmt? target fun s => some (s.withExprs (s.exprs ++ [e]))
  | .moveLabel source target => do
    let label ← (← trees.stmt? source).head.label
    let trees ← trees.modifyStmt? source StmtEdit.dropLabel.perform?
    trees.modifyStmt? target fun s => some (s.withLabel (some label))
  | .moveScope source target => do
    guard (source.tree ≠ target.tree)
    let inner ← (← trees.stmt? source).scope
    let trees ← trees.modifyStmt? source StmtEdit.dropScope.perform?
    trees.modifyStmt? target fun s => some (s.withScope (some inner))
  | .moveArg source i target => do
    let a ← (← trees.tree? source).args[i]?
    let trees ← trees.modifyArgs? source fun args => some (args.eraseIdx i)
    trees.modifyArgs? target fun args => some (args ++ [a])

end Forest

end TreePack
