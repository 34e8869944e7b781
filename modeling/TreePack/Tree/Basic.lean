import TreePack.Bytes
import TreePack.Text.Basic
import TreePack.TypeDesc
import TreePack.Tree.Kind
/-!
Syntax trees of functions.

A tree is made of scopes, local declarations, statements, expressions, texts, switch labels and argument
types. Each of them carries an identity of a type `ι` of the caller's choice, which says which node it is
and not what it holds: a scattered tree may be keyed by names, a packed one by its offsets. A loop
reference is the identity of another statement.
-/

namespace TreePack

structure SourceLoc where
  line : UInt32
  col : UInt32
  deriving DecidableEq, Inhabited, Repr

namespace SourceLoc

/-- The location as one word, with the line in the upper half. -/
def pack (loc : SourceLoc) : UInt64 := (loc.line.toNat * range32 + loc.col.toNat).toUInt64

def unpack (raw : UInt64) : SourceLoc := ⟨(raw.toNat / range32).toUInt32, raw.toNat.toUInt32⟩

theorem toNat_pack (loc : SourceLoc) : loc.pack.toNat = loc.line.toNat * range32 + loc.col.toNat := by
  have hline : loc.line.toNat < range32 := loc.line.toNat_lt
  have hcol : loc.col.toNat < range32 := loc.col.toNat_lt
  have hlt : loc.line.toNat * range32 + loc.col.toNat < range64 := by
    unfold range32 range64 at *
    omega
  exact UInt64.toNat_ofNat_of_lt' hlt

/-- Line and column are read back from their halves of the word. -/
@[simp] theorem unpack_pack (loc : SourceLoc) : unpack loc.pack = loc := by
  have hcol : loc.col.toNat < range32 := loc.col.toNat_lt
  have hdiv : (loc.line.toNat * range32 + loc.col.toNat) / range32 = loc.line.toNat := by
    unfold range32 at *
    omega
  have hlow : (loc.line.toNat * range32 + loc.col.toNat).toUInt32 = loc.col := by
    apply UInt32.toNat_inj.mp
    simp [Nat.toUInt32, range32]
  have hhigh : loc.line.toNat.toUInt32 = loc.line := by
    simp [Nat.toUInt32]
  rw [unpack, toNat_pack, hdiv, hlow, hhigh]

end SourceLoc

structure Leaf (ι α : Type) where
  id : ι
  val : α
  deriving DecidableEq

def maxChildren : Nat := 8

def maxExprs : Nat := 4

structure ExprHead (ι : Type) where
  id : ι
  kind : ExprKind
  /-- The payload of a literal: its value, or the bits of it. -/
  value : UInt64
  ty : TypeDesc
  symbol : Option (Leaf ι Text)
  method : Option (Leaf ι Text)
  deriving DecidableEq

mutual

inductive Expr (ι : Type) : Type where
  | node (head : ExprHead ι) (children : Slots ι maxChildren)

inductive Slots (ι : Type) : Nat → Type where
  | nil : Slots ι 0
  | empty {n : Nat} (rest : Slots ι n) : Slots ι (n + 1)
  | full {n : Nat} (child : Expr ι) (rest : Slots ι n) : Slots ι (n + 1)

end

namespace Slots

variable {ι : Type}

def none : (n : Nat) → Slots ι n
  | 0 => nil
  | n + 1 => empty (none n)

def get : {n : Nat} → Slots ι n → Fin n → Option (Expr ι)
  | _ + 1, empty _, ⟨0, _⟩ => Option.none
  | _ + 1, full child _, ⟨0, _⟩ => some child
  | _ + 1, empty rest, ⟨i + 1, h⟩ => rest.get ⟨i, Nat.lt_of_succ_lt_succ h⟩
  | _ + 1, full _ rest, ⟨i + 1, h⟩ => rest.get ⟨i, Nat.lt_of_succ_lt_succ h⟩

def cons {n : Nat} : Option (Expr ι) → Slots ι n → Slots ι (n + 1)
  | Option.none, rest => empty rest
  | some child, rest => full child rest

def set : {n : Nat} → Slots ι n → Fin n → Option (Expr ι) → Slots ι n
  | _ + 1, empty rest, ⟨0, _⟩, child => cons child rest
  | _ + 1, full _ rest, ⟨0, _⟩, child => cons child rest
  | _ + 1, empty rest, ⟨i + 1, h⟩, child => empty (rest.set ⟨i, Nat.lt_of_succ_lt_succ h⟩ child)
  | _ + 1, full first rest, ⟨i + 1, h⟩, child =>
    full first (rest.set ⟨i, Nat.lt_of_succ_lt_succ h⟩ child)

def toList : {n : Nat} → Slots ι n → List (Expr ι)
  | _, nil => []
  | _, empty rest => rest.toList
  | _, full child rest => child :: rest.toList

end Slots

namespace Expr

variable {ι : Type}

def head : Expr ι → ExprHead ι
  | node head _ => head

def children : Expr ι → Slots ι maxChildren
  | node _ children => children

def id (e : Expr ι) : ι := e.head.id

end Expr

structure Local (ι : Type) where
  id : ι
  name : Leaf ι Text
  ty : TypeDesc
  /-- Whether it declares a function, which no scope may do. What the function holds plays no role. -/
  isFunction : Bool
  deriving DecidableEq

structure StmtHead (ι : Type) where
  id : ι
  kind : StmtKind
  loc : Option SourceLoc
  /-- The statement that a jump leaves or starts again. It is named, not owned. -/
  loop : Option ι
  label : Option (Leaf ι Text)
  /-- The labels that a switch jumps to, by their numbers. -/
  switch : List (Leaf ι UInt64)
  deriving DecidableEq

mutual

structure Scope (ι : Type) : Type where
  id : ι
  locals : List (Local ι)
  stmts : List (Stmt ι)

structure Stmt (ι : Type) : Type where
  head : StmtHead ι
  scope : Option (Scope ι)
  exprs : List (Expr ι)

end

def Stmt.id {ι : Type} (s : Stmt ι) : ι := s.head.id

structure Function (ι : Type) where
  scope : Scope ι
  args : List (Leaf ι TypeDesc)

mutual

def Scope.stmtsThen {ι : Type} (rest : List (Stmt ι)) : Scope ι → List (Stmt ι)
  | ⟨_, _, stmts⟩ => listStmtsThen rest stmts
termination_by structural s => s

def Stmt.stmtsThen {ι : Type} (rest : List (Stmt ι)) : Stmt ι → List (Stmt ι)
  | ⟨head, scope, exprs⟩ => ⟨head, scope, exprs⟩ :: optionStmtsThen rest scope
termination_by structural s => s

def listStmtsThen {ι : Type} (rest : List (Stmt ι)) : List (Stmt ι) → List (Stmt ι)
  | [] => rest
  | s :: ss => s.stmtsThen (listStmtsThen rest ss)
termination_by structural ss => ss

def optionStmtsThen {ι : Type} (rest : List (Stmt ι)) : Option (Scope ι) → List (Stmt ι)
  | none => rest
  | some s => s.stmtsThen rest
termination_by structural s => s

end

def Scope.allStmts {ι : Type} (s : Scope ι) : List (Stmt ι) := s.stmtsThen []

end TreePack
