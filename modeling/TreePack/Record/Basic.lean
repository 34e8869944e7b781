import TreePack.Text.Basic
import TreePack.Tree.Basic

namespace TreePack

structure ScopeRecord (π : Type) where
  locals : Option π
  localCount : UInt64
  stmts : Option π
  stmtCount : UInt64
  deriving DecidableEq

structure DeclRecord (π : Type) where
  name : Option π
  ty : TypeDesc
  isFunction : Bool
  argCount : UInt32
  args : Option π
  body : Option π
  deriving DecidableEq

structure StmtRecord (π : Type) where
  kind : UInt8
  exprCount : UInt32
  /-- The packed location, or the word of an absent pointer. -/
  loc : UInt64
  loop : Option π
  scope : Option π
  exprs : Vector (Option π) maxExprs
  label : Option π
  switch : Option π
  switchCount : UInt64
  deriving DecidableEq

structure ExprRecord (π : Type) where
  kind : UInt8
  value : UInt64
  ty : TypeDesc
  symbol : Option π
  method : Option π
  children : Vector (Option π) maxChildren
  deriving DecidableEq

variable {π ρ : Type}

namespace ScopeRecord

def pointers (r : ScopeRecord π) : List π := r.locals.toList ++ r.stmts.toList

def map (f : π → ρ) (r : ScopeRecord π) : ScopeRecord ρ :=
  { r with locals := r.locals.map f, stmts := r.stmts.map f }

end ScopeRecord

namespace DeclRecord

def pointers (r : DeclRecord π) : List π := r.name.toList ++ r.args.toList ++ r.body.toList

def map (f : π → ρ) (r : DeclRecord π) : DeclRecord ρ :=
  { r with name := r.name.map f, args := r.args.map f, body := r.body.map f }

end DeclRecord

namespace StmtRecord

def pointers (r : StmtRecord π) : List π :=
  r.loop.toList ++ r.scope.toList ++ r.exprs.toList.reduceOption ++ r.label.toList ++ r.switch.toList

def map (f : π → ρ) (r : StmtRecord π) : StmtRecord ρ :=
  { r with
    loop := r.loop.map f, scope := r.scope.map f, exprs := r.exprs.map (Option.map f),
    label := r.label.map f, switch := r.switch.map f }

end StmtRecord

namespace ExprRecord

def pointers (r : ExprRecord π) : List π :=
  r.symbol.toList ++ r.method.toList ++ r.children.toList.reduceOption

def map (f : π → ρ) (r : ExprRecord π) : ExprRecord ρ :=
  { r with
    symbol := r.symbol.map f, method := r.method.map f, children := r.children.map (Option.map f) }

end ExprRecord

inductive Cell (π : Type) where
  | scope (r : ScopeRecord π)
  | decl (r : DeclRecord π)
  | stmt (r : StmtRecord π)
  | expr (r : ExprRecord π)
  | text (t : Text)
  | switchLabel (label : UInt64)
  | type (t : TypeDesc)
  deriving DecidableEq

namespace Cell

/-- The pointers that are there, in the order in which they are looked up. -/
def pointers : Cell π → List π
  | scope r => r.pointers
  | decl r => r.pointers
  | stmt r => r.pointers
  | expr r => r.pointers
  | text _ | switchLabel _ | type _ => []

def map (f : π → ρ) : Cell π → Cell ρ
  | scope r => scope (r.map f)
  | decl r => decl (r.map f)
  | stmt r => stmt (r.map f)
  | expr r => expr (r.map f)
  | text t => text t
  | switchLabel label => switchLabel label
  | type t => type t

end Cell

end TreePack
