import TreePack.Packed.Basic
/-!
Packed functions read back as trees.

Every node of the tree that is read has the offset of its record as its identity, and a loop reference is
the offset that its record holds. Reading follows every owning pointer. Records that lead back to themselves
would be followed forever; a path without such a return meets each offset at most once as a scope and once
as an expression, so `readDepth` steps down are enough for every other block.
-/

namespace TreePack

def readSlots (read : Offset → Except Fault (Expr Offset)) :
    {n : Nat} → (Fin n → Option Offset) → Except Fault (Slots Offset n)
  | 0, _ => .ok .nil
  | _ + 1, at? => do
    let first ← match at? 0 with
      | none => pure none
      | some o => some <$> read o
    let rest ← readSlots read fun i => at? i.succ
    return Slots.cons first rest

namespace Block

def readExpr (b : Block) : Nat → Offset → Except Fault (Expr Offset)
  | 0, _ => .error .endless
  | depth + 1, o => do
    let r ← ExprView.record ⟨b, o⟩
    let symbol ← b.readTextPtr r.symbol
    let method ← b.readTextPtr r.method
    let children ← readSlots (b.readExpr depth) fun i : Fin maxChildren => r.children[i]
    return .node ⟨o, r.exprKind, r.value, r.ty, symbol, method⟩ children

/-- The local declaration at an offset. One without a name stands in for its own name. -/
def readLocal (b : Block) (o : Offset) : Except Fault (Local Offset) := do
  let r ← DeclView.record ⟨b, o⟩
  let name ← b.readTextPtr r.name
  return ⟨o, name.getD ⟨o, Text.empty⟩, r.ty, r.isFunction⟩

def readStmt (b : Block) (depth : Nat) (readScope : Offset → Except Fault (Scope Offset)) (o : Offset) :
    Except Fault (Stmt Offset) := do
  let r ← StmtView.record ⟨b, o⟩
  let label ← b.readTextPtr r.label
  let switch ← r.switchPlaces.collect fun o => return ⟨o, ← Stored.readAt b o⟩
  let scope ← match r.scope with
    | none => pure none
    | some o => some <$> readScope o
  let exprs ← r.exprOffsets.mapM (b.readExpr depth)
  return ⟨⟨o, r.stmtKind, r.sourceLoc, r.loop, label, switch⟩, scope, exprs⟩

def readScope (b : Block) : Nat → Offset → Except Fault (Scope Offset)
  | 0, _ => .error .endless
  | depth + 1, o => do
    let r ← ScopeView.record ⟨b, o⟩
    let locals ← r.localPlaces.collect b.readLocal
    let stmts ← r.stmtPlaces.collect (b.readStmt depth (b.readScope depth))
    return ⟨o, locals, stmts⟩

/-- More levels than records of the block can nest without leading back to themselves. -/
def readDepth (b : Block) : Nat := 2 * b.size + 2

end Block

namespace Packed

def readScope (p : Packed) : Except Fault (Scope Offset) := p.block.readScope p.block.readDepth p.scope

def read (p : Packed) : Except Fault (Function Offset) := do
  let scope ← p.readScope
  let types ← p.argTypes
  return ⟨scope, List.zipWith Leaf.mk p.args types⟩

end Packed

end TreePack
