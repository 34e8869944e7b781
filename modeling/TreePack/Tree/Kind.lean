namespace TreePack

inductive StmtKind where
  | nop
  | expression
  | block
  | ifThen
  | otherwise
  | whileLoop
  | forLoop
  | breakLoop
  | continueLoop
  | goto
  | label
  | switch
  | ret
  deriving DecidableEq, Inhabited, Repr

namespace StmtKind

def all : List StmtKind :=
  [nop, expression, block, ifThen, otherwise, whileLoop, forLoop, breakLoop, continueLoop, goto, label,
    switch, ret]

def toRaw : StmtKind → UInt8
  | nop => 0
  | expression => 1
  | block => 2
  | ifThen => 3
  | otherwise => 4
  | whileLoop => 5
  | forLoop => 6
  | breakLoop => 7
  | continueLoop => 8
  | goto => 9
  | label => 10
  | switch => 11
  | ret => 12

def ofRaw? (raw : UInt8) : Option StmtKind := all[raw.toNat]?

@[simp] theorem ofRaw?_toRaw (k : StmtKind) : ofRaw? k.toRaw = some k := by
  cases k <;> rfl

def name : StmtKind → String
  | nop => "nop"
  | expression => "expr"
  | block => "block"
  | ifThen => "if"
  | otherwise => "else"
  | whileLoop => "while"
  | forLoop => "for"
  | breakLoop => "break"
  | continueLoop => "continue"
  | goto => "goto"
  | label => "label"
  | switch => "switch"
  | ret => "return"

def isLoopTarget : StmtKind → Bool
  | whileLoop | forLoop | switch => true
  | _ => false

end StmtKind

inductive ExprKind where
  | int
  | float
  | string
  | ident
  | call
  | methodCall
  | member
  | index
  | cast
  | neg
  | not
  | compl
  | deref
  | addrOf
  | add
  | sub
  | mul
  | div
  | rem
  | shl
  | shr
  | bitAnd
  | bitOr
  | bitXor
  | eq
  | ne
  | lt
  | le
  | gt
  | ge
  | logAnd
  | logOr
  | assign
  deriving DecidableEq, Inhabited, Repr

namespace ExprKind

def all : List ExprKind :=
  [int, float, string, ident, call, methodCall, member, index, cast, neg, not, compl, deref, addrOf, add,
    sub, mul, div, rem, shl, shr, bitAnd, bitOr, bitXor, eq, ne, lt, le, gt, ge, logAnd, logOr, assign]

def toRaw : ExprKind → UInt8
  | int => 0
  | float => 1
  | string => 2
  | ident => 3
  | call => 4
  | methodCall => 5
  | member => 6
  | index => 7
  | cast => 8
  | neg => 9
  | not => 10
  | compl => 11
  | deref => 12
  | addrOf => 13
  | add => 14
  | sub => 15
  | mul => 16
  | div => 17
  | rem => 18
  | shl => 19
  | shr => 20
  | bitAnd => 21
  | bitOr => 22
  | bitXor => 23
  | eq => 24
  | ne => 25
  | lt => 26
  | le => 27
  | gt => 28
  | ge => 29
  | logAnd => 30
  | logOr => 31
  | assign => 32

def ofRaw? (raw : UInt8) : Option ExprKind := all[raw.toNat]?

@[simp] theorem ofRaw?_toRaw (k : ExprKind) : ofRaw? k.toRaw = some k := by
  cases k <;> rfl

def name : ExprKind → String
  | int => "int"
  | float => "float"
  | string => "string"
  | ident => "ident"
  | call => "call"
  | methodCall => "method"
  | member => "member"
  | index => "index"
  | cast => "cast"
  | neg => "neg"
  | not => "not"
  | compl => "compl"
  | deref => "deref"
  | addrOf => "addr"
  | add => "add"
  | sub => "sub"
  | mul => "mul"
  | div => "div"
  | rem => "rem"
  | shl => "shl"
  | shr => "shr"
  | bitAnd => "bitand"
  | bitOr => "bitor"
  | bitXor => "bitxor"
  | eq => "eq"
  | ne => "ne"
  | lt => "lt"
  | le => "le"
  | gt => "gt"
  | ge => "ge"
  | logAnd => "and"
  | logOr => "or"
  | assign => "assign"

def isNumeral : ExprKind → Bool
  | int | float => true
  | _ => false

end ExprKind

end TreePack
