import TreePack.Tree.Basic

namespace TreePack

inductive DumpItem where
  | localDecl (name : Text) (ty : TypeDesc)
  /-- The loop is shown by the number of its target, which is absent outside the dumped scope. -/
  | stmt (number : Option Nat) (kind : StmtKind) (loc : Option SourceLoc) (loop : Option (Option Nat))
      (label : Option Text) (switch : List UInt64)
  /-- The slot is that of a child; an expression of a statement has none. -/
  | expr (slot : Option Nat) (kind : ExprKind) (value : UInt64) (ty : TypeDesc)
      (symbol method : Option Text)
  deriving DecidableEq

namespace DumpItem

def renderNumber : Option Nat → String
  | some n => "s" ++ n.repr
  | none => "s?"

def renderLoc : Option SourceLoc → String
  | some loc => " @" ++ loc.line.toNat.repr ++ ":" ++ loc.col.toNat.repr
  | none => ""

def renderLoop : Option (Option Nat) → String
  | some (some n) => " loop=s" ++ n.repr
  | some none => " loop=?"
  | none => ""

def renderField (key : String) : Option Text → String
  | some t => " " ++ key ++ "=" ++ t.display
  | none => ""

def renderSwitch : List UInt64 → String
  | [] => ""
  | labels => " switch=[" ++ ", ".intercalate (labels.map fun n => n.toNat.repr) ++ "]"

def renderSlot : Option Nat → String
  | some slot => "[" ++ slot.repr ++ "] "
  | none => ""

/-- The payload, which is left out if it is zero and the expression is no numeral. -/
def renderValue (kind : ExprKind) (value : UInt64) : String :=
  if kind.isNumeral ∨ value ≠ 0 then " =" ++ value.toNat.repr else ""

def render : DumpItem → String
  | localDecl name ty => "local " ++ name.display ++ ": " ++ ty.render
  | stmt number kind loc loop label switch =>
    renderNumber number ++ " " ++ kind.name ++ renderLoc loc ++ renderLoop loop
      ++ renderField "label" label ++ renderSwitch switch
  | expr slot kind value ty symbol method =>
    renderSlot slot ++ kind.name ++ renderValue kind value ++ renderField "sym" symbol
      ++ renderField "method" method ++ " : " ++ ty.render

end DumpItem

structure DumpLine where
  depth : Nat
  item : DumpItem
  deriving DecidableEq

def DumpLine.render (line : DumpLine) : String :=
  "".pushn ' ' (2 * line.depth) ++ line.item.render ++ "\n"

end TreePack
