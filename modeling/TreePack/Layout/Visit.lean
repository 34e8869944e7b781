import TreePack.Layout.Cell
/-!
The order in which a tree is laid out.

`Function.visits` walks a tree once and says, step by step, what is set aside for it and when a node has been
dealt with. Planning and writing both follow this one list, so they meet the nodes in the same order. A
record comes before everything it leads to, and an array before the contents of its elements:

* a scope: its record, the array of its locals, the names of the locals, the array of its statements;
* a statement: its nested scope, its expressions, its label, the array of its switch labels;
* an expression: its record, its symbol, its method name, its children by slot;
* a function: its scope, then each argument type.
-/

namespace TreePack

structure Piece (ι : Type) where
  first : Leaf ι (Cell ι)
  others : List (Leaf ι (Cell ι))

inductive Visit (ι : Type) where
  /-- A local declaration is met, before its name. -/
  | enterLocal (l : Local ι)
  /-- A statement is met, before everything it owns. -/
  | enterStmt (s : Stmt ι)
  /-- A node or an array takes its place. -/
  | place (p : Piece ι)
  /-- A node or an array is finished, with everything below it. -/
  | leave

namespace Piece

variable {ι : Type}

def single (id : ι) (cell : Cell ι) : Piece ι := ⟨⟨id, cell⟩, []⟩

def cells (p : Piece ι) : List (Leaf ι (Cell ι)) := p.first :: p.others

def size (p : Piece ι) : Nat := p.cells.foldr (fun c n => c.val.size + n) 0

end Piece

variable {ι : Type}

def arrayVisitsThen (cells : List (Leaf ι (Cell ι))) (contents : List (Visit ι) → List (Visit ι))
    (rest : List (Visit ι)) : List (Visit ι) :=
  match cells with
  | [] => rest
  | first :: others => .place ⟨first, others⟩ :: contents (.leave :: rest)

def textVisitsThen (rest : List (Visit ι)) (t : Leaf ι Text) : List (Visit ι) :=
  .place (.single t.id (.text t.val)) :: .leave :: rest

def optionTextVisitsThen (rest : List (Visit ι)) : Option (Leaf ι Text) → List (Visit ι)
  | none => rest
  | some t => textVisitsThen rest t

def localVisitsThen (rest : List (Visit ι)) (locals : List (Local ι)) : List (Visit ι) :=
  locals.foldr (fun l rest => .enterLocal l :: textVisitsThen rest l.name) rest

mutual

def Expr.visitsThen (rest : List (Visit ι)) : Expr ι → List (Visit ι)
  | .node head children =>
    .place (.single head.id (Expr.node head children).cell) ::
      optionTextVisitsThen
        (optionTextVisitsThen (children.visitsThen (.leave :: rest)) head.method) head.symbol

def Slots.visitsThen (rest : List (Visit ι)) : {n : Nat} → Slots ι n → List (Visit ι)
  | _, .nil => rest
  | _, .empty slots => slots.visitsThen rest
  | _, .full child slots => child.visitsThen (slots.visitsThen rest)

end

def exprListVisitsThen (rest : List (Visit ι)) (exprs : List (Expr ι)) : List (Visit ι) :=
  exprs.foldr (fun e rest => e.visitsThen rest) rest

def switchVisitsThen (rest : List (Visit ι)) (labels : List (Leaf ι UInt64)) : List (Visit ι) :=
  arrayVisitsThen (labels.map fun n => ⟨n.id, .switchLabel n.val⟩) (fun rest => rest) rest

mutual

def Scope.visitsThen (rest : List (Visit ι)) : Scope ι → List (Visit ι)
  | ⟨id, locals, stmts⟩ =>
    .place (.single id (Scope.mk id locals stmts).cell) ::
      arrayVisitsThen (locals.map fun l => ⟨l.id, l.cell⟩) (fun rest => localVisitsThen rest locals)
        (arrayVisitsThen (stmts.map fun s => ⟨s.id, s.cell⟩) (fun rest => stmtListVisitsThen rest stmts)
          (.leave :: rest))

def Stmt.visitsThen (rest : List (Visit ι)) : Stmt ι → List (Visit ι)
  | ⟨head, scope, exprs⟩ =>
    .enterStmt ⟨head, scope, exprs⟩ ::
      nestedVisitsThen
        (exprListVisitsThen (optionTextVisitsThen (switchVisitsThen rest head.switch) head.label) exprs)
        scope

def stmtListVisitsThen (rest : List (Visit ι)) : List (Stmt ι) → List (Visit ι)
  | [] => rest
  | s :: ss => s.visitsThen (stmtListVisitsThen rest ss)

def nestedVisitsThen (rest : List (Visit ι)) : Option (Scope ι) → List (Visit ι)
  | none => rest
  | some s => s.visitsThen rest

end

def argVisitsThen (rest : List (Visit ι)) (args : List (Leaf ι TypeDesc)) : List (Visit ι) :=
  args.foldr (fun t rest => .place (.single t.id (.type t.val)) :: .leave :: rest) rest

def Function.visits (f : Function ι) : List (Visit ι) :=
  f.scope.visitsThen (argVisitsThen [] f.args)

end TreePack
