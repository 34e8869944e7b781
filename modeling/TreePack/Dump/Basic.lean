import Std.Data.HashMap
import TreePack.Dump.Line

namespace TreePack

variable {ι : Type}

abbrev StmtNumbers (ι : Type) [DecidableEq ι] [Hashable ι] : Type := Std.HashMap ι Nat

section

variable [DecidableEq ι] [Hashable ι]

/-- Gives each statement in turn the number of statements before it that have other identities. -/
def StmtNumbers.ofStmts (stmts : List (Stmt ι)) : StmtNumbers ι :=
  stmts.foldl (fun numbers s => numbers.insert s.id numbers.size) ∅

def StmtHead.dumpItem (numbers : StmtNumbers ι) (s : StmtHead ι) : DumpItem :=
  .stmt numbers[s.id]? s.kind s.loc (s.loop.map fun target => numbers[target]?) (s.label.map (·.val))
    (s.switch.map (·.val))

end

def ExprHead.dumpItem (e : ExprHead ι) (slot : Option Nat) : DumpItem :=
  .expr slot e.kind e.value e.ty (e.symbol.map (·.val)) (e.method.map (·.val))

mutual

def Expr.linesThen (rest : List DumpLine) (depth : Nat) (slot : Option Nat) : Expr ι → List DumpLine
  | .node head children => ⟨depth, head.dumpItem slot⟩ :: children.linesThen rest (depth + 1) 0

def Slots.linesThen (rest : List DumpLine) (depth slot : Nat) : {n : Nat} → Slots ι n → List DumpLine
  | _, .nil => rest
  | _, .empty slots => slots.linesThen rest depth (slot + 1)
  | _, .full child slots =>
    child.linesThen (slots.linesThen rest depth (slot + 1)) depth (some slot)

end

def exprListLinesThen (rest : List DumpLine) (depth : Nat) (exprs : List (Expr ι)) : List DumpLine :=
  exprs.foldr (fun e rest => e.linesThen rest depth none) rest

section

variable [DecidableEq ι] [Hashable ι]

mutual

def Scope.linesThen (numbers : StmtNumbers ι) (rest : List DumpLine) (depth : Nat) :
    Scope ι → List DumpLine
  | ⟨_, locals, stmts⟩ =>
    locals.map (fun l => ⟨depth, .localDecl l.name.val l.ty⟩)
      ++ stmtListLinesThen numbers rest depth stmts

def Stmt.linesThen (numbers : StmtNumbers ι) (rest : List DumpLine) (depth : Nat) :
    Stmt ι → List DumpLine
  | ⟨head, scope, exprs⟩ =>
    ⟨depth, head.dumpItem numbers⟩ ::
      nestedLinesThen numbers (exprListLinesThen rest (depth + 1) exprs) (depth + 1) scope

def stmtListLinesThen (numbers : StmtNumbers ι) (rest : List DumpLine) (depth : Nat) :
    List (Stmt ι) → List DumpLine
  | [] => rest
  | s :: ss => s.linesThen numbers (stmtListLinesThen numbers rest depth ss) depth

def nestedLinesThen (numbers : StmtNumbers ι) (rest : List DumpLine) (depth : Nat) :
    Option (Scope ι) → List DumpLine
  | none => rest
  | some s => s.linesThen numbers rest depth

end

def Scope.dumpLines (s : Scope ι) (depth : Nat) : List DumpLine :=
  s.linesThen (.ofStmts s.allStmts) [] depth

def Scope.dump (s : Scope ι) (depth : Nat) : String :=
  String.join ((s.dumpLines depth).map DumpLine.render)

end

end TreePack
