import Std.Data.HashSet
import TreePack.Tree.Edit
/-!
Trees keyed by names.

`Function.named` gives every node of a function a name that says what it is and where: `stmt:2`,
`label:2`, `expr:5`. Locals, statements and expressions are counted apart from each other, each in the order
of the walk: the locals of a scope, then each statement, its nested scope, its expressions, its label and its
switch labels; the arguments come last. A loop reference is read as the name of its target.
-/

namespace TreePack

structure Naming where
  stem : String
  locals : Nat
  stmts : Nat
  exprs : Nat
  names : Array String

abbrev NameM : Type → Type := StateM Naming

namespace Naming

def give (name : String) : NameM String := fun s =>
  let full := s.stem ++ name
  (full, { s with names := s.names.push full })

def number (kind : String) (n : Nat) : NameM String := give (kind ++ n.repr)

variable {α : Type}

def leaf (kind : String) (n : Nat) (l : Leaf String α) : NameM (Leaf String α) := do
  return { l with id := ← number kind n }

def optionLeaf (kind : String) (n : Nat) : Option (Leaf String α) → NameM (Option (Leaf String α))
  | none => return none
  | some l => return some (← leaf kind n l)

def leaves (kind : String) : Nat → List (Leaf String α) → NameM (List (Leaf String α))
  | _, [] => return []
  | i, l :: ls => do
    let l ← leaf kind i l
    return l :: (← leaves kind (i + 1) ls)

def localList : List (Local String) → NameM (List (Local String))
  | [] => return []
  | l :: ls => do
    let k := (← get).locals
    modify fun s => { s with locals := k + 1 }
    let id ← number "local:" k
    let name ← leaf "localname:" k l.name
    return ⟨id, name, l.ty, l.isFunction⟩ :: (← localList ls)

mutual

def expr : Expr String → NameM (Expr String)
  | .node head children => do
    let k := (← get).exprs
    modify fun s => { s with exprs := k + 1 }
    let id ← number "expr:" k
    let symbol ← optionLeaf "sym:" k head.symbol
    let method ← optionLeaf "meth:" k head.method
    return .node { head with id, symbol, method } (← slots children)

def slots : {n : Nat} → Slots String n → NameM (Slots String n)
  | _, .nil => return .nil
  | _, .empty rest => return .empty (← slots rest)
  | _, .full child rest => do
    let child ← expr child
    return .full child (← slots rest)

end

mutual

def scope (id : String) : Scope String → NameM (Scope String)
  | ⟨_, locals, stmts⟩ => do
    let locals ← localList locals
    return ⟨id, locals, ← stmtList stmts⟩

def stmt : Stmt String → NameM (Stmt String)
  | ⟨head, nested, exprs⟩ => do
    let n := (← get).stmts
    modify fun s => { s with stmts := n + 1 }
    let id ← number "stmt:" n
    let nested ← nestedScope n nested
    let exprs ← exprs.mapM expr
    let label ← optionLeaf "label:" n head.label
    let switch ← leaves ("switch:" ++ n.repr ++ ".") 0 head.switch
    return ⟨{ head with id, label, switch }, nested, exprs⟩

def stmtList : List (Stmt String) → NameM (List (Stmt String))
  | [] => return []
  | s :: ss => do
    let s ← stmt s
    return s :: (← stmtList ss)

def nestedScope (n : Nat) : Option (Scope String) → NameM (Option (Scope String))
  | none => return none
  | some s => do
    let id ← number "scope:" n
    return some (← scope id s)

end

end Naming

def Function.named (stem : String) (f : Function String) : Function String × Array String :=
  let run : NameM (Function String) := do
    let id ← Naming.give "scope"
    let scope ← Naming.scope id f.scope
    return ⟨scope, ← Naming.leaves "arg:" 0 f.args⟩
  let (named, s) := run ⟨stem, 0, 0, 0, #[]⟩
  (named, s.names)

/-- The node that a name denotes: one whose name begins with `stem`, else one with just that name. -/
def denoted (known : Std.HashSet String) (stem name : String) : String :=
  if known.contains (stem ++ name) then stem ++ name else name

def Function.resolveLoops (known : Std.HashSet String) (stem : String) (f : Function String) :
    Function String :=
  { f with
    scope := f.scope.mapStmts fun s => s.withLoop (s.head.loop.map (denoted known stem)) }

def nameAll (fs : List (String × Option (Function String))) :
    List (Option (Function String)) × Array String :=
  let named := fs.map fun (stem, f) => (stem, f.map (Function.named stem))
  let names := named.foldl (fun all f => all ++ (f.2.map (·.2)).getD #[]) #[]
  let known : Std.HashSet String := .ofArray names
  (named.map fun (stem, f) => f.map fun f => f.1.resolveLoops known stem, names)

end TreePack
