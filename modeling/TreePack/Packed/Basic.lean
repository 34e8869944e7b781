import TreePack.Record.Codec

namespace TreePack

structure Packed where
  block : Block
  scope : Offset
  args : List Offset
  deriving DecidableEq

structure Places where
  base : Offset
  count : Nat
  stride : Nat
  deriving DecidableEq

namespace Places

def ofArray (base : Option Offset) (count : UInt64) (stride : Nat) : Places :=
  match base with
  | some base => ⟨base, count.toNat, stride⟩
  | none => ⟨Offset.zero, 0, stride⟩

def get (p : Places) (i : Nat) : Except Fault Offset := p.base.add (i * p.stride)

variable {β : Type}

def collectFrom (p : Places) (f : Offset → Except Fault β) : Nat → Nat → Except Fault (List β)
  | 0, _ => .ok []
  | count + 1, i => do
    let o ← p.get i
    let first ← f o
    let rest ← collectFrom p f count (i + 1)
    return first :: rest

def collect (p : Places) (f : Offset → Except Fault β) : Except Fault (List β) :=
  p.collectFrom f p.count 0

end Places

/-- The text at an offset; one without an end reads as empty. -/
def Block.readText (b : Block) (o : Offset) : Except Fault Text :=
  match b.textAt o.toNat with
  | .text t => .ok t
  | .unterminated => .ok Text.empty
  | .outside => .error (.outside o.toNat 0 b.size)

def Block.readTextPtr (b : Block) : Option Offset → Except Fault (Option (Leaf Offset Text))
  | none => .ok none
  | some o => do
    let t ← b.readText o
    return some ⟨o, t⟩

namespace ScopeRecord

def localPlaces (r : ScopeRecord Offset) : Places :=
  .ofArray r.locals r.localCount (Stored.size (DeclRecord Offset))

def stmtPlaces (r : ScopeRecord Offset) : Places :=
  .ofArray r.stmts r.stmtCount (Stored.size (StmtRecord Offset))

end ScopeRecord

namespace StmtRecord

def stmtKind (r : StmtRecord Offset) : StmtKind := (StmtKind.ofRaw? r.kind).getD default

def sourceLoc (r : StmtRecord Offset) : Option SourceLoc :=
  if r.loc = Offset.absent then none else some (SourceLoc.unpack r.loc)

/-- The pointers among the first slots, as many slots as the count says. -/
def exprOffsets (r : StmtRecord Offset) : List Offset :=
  (r.exprs.toList.take r.exprCount.toNat).reduceOption

def switchPlaces (r : StmtRecord Offset) : Places :=
  .ofArray r.switch r.switchCount (Stored.size UInt64)

end StmtRecord

namespace ExprRecord

def exprKind (r : ExprRecord Offset) : ExprKind := (ExprKind.ofRaw? r.kind).getD default

end ExprRecord

structure ScopeView where
  block : Block
  offset : Offset

structure DeclView where
  block : Block
  offset : Offset

structure StmtView where
  block : Block
  offset : Offset

structure ExprView where
  block : Block
  offset : Offset

namespace ScopeView

def record (v : ScopeView) : Except Fault (ScopeRecord Offset) := Stored.readAt v.block v.offset

def locals (v : ScopeView) : Except Fault Places := return (← v.record).localPlaces

def stmts (v : ScopeView) : Except Fault Places := return (← v.record).stmtPlaces

def local? (v : ScopeView) (i : Nat) : Except Fault (Option DeclView) := do
  let places ← v.locals
  if i < places.count then return some ⟨v.block, ← places.get i⟩ else return none

def stmt? (v : ScopeView) (i : Nat) : Except Fault (Option StmtView) := do
  let places ← v.stmts
  if i < places.count then return some ⟨v.block, ← places.get i⟩ else return none

end ScopeView

namespace DeclView

def record (v : DeclView) : Except Fault (DeclRecord Offset) := Stored.readAt v.block v.offset

def name (v : DeclView) : Except Fault Text := do
  match (← v.record).name with
  | some o => v.block.readText o
  | none => return Text.empty

def ty (v : DeclView) : Except Fault TypeDesc := return (← v.record).ty

end DeclView

namespace StmtView

def record (v : StmtView) : Except Fault (StmtRecord Offset) := Stored.readAt v.block v.offset

def kind (v : StmtView) : Except Fault StmtKind := return (← v.record).stmtKind

def loc (v : StmtView) : Except Fault (Option SourceLoc) := return (← v.record).sourceLoc

def loop (v : StmtView) : Except Fault (Option StmtView) :=
  return (← v.record).loop.map fun o => ⟨v.block, o⟩

def scope (v : StmtView) : Except Fault (Option ScopeView) :=
  return (← v.record).scope.map fun o => ⟨v.block, o⟩

def exprs (v : StmtView) : Except Fault (List ExprView) :=
  return (← v.record).exprOffsets.map fun o => ⟨v.block, o⟩

def label (v : StmtView) : Except Fault (Option Text) := do
  match (← v.record).label with
  | some o => return some (← v.block.readText o)
  | none => return none

def switch (v : StmtView) : Except Fault (List UInt64) := do
  (← v.record).switchPlaces.collect (Stored.readAt v.block)

end StmtView

namespace ExprView

def record (v : ExprView) : Except Fault (ExprRecord Offset) := Stored.readAt v.block v.offset

def kind (v : ExprView) : Except Fault ExprKind := return (← v.record).exprKind

def value (v : ExprView) : Except Fault UInt64 := return (← v.record).value

def ty (v : ExprView) : Except Fault TypeDesc := return (← v.record).ty

def symbol (v : ExprView) : Except Fault (Option Text) := do
  match (← v.record).symbol with
  | some o => return some (← v.block.readText o)
  | none => return none

def method (v : ExprView) : Except Fault (Option Text) := do
  match (← v.record).method with
  | some o => return some (← v.block.readText o)
  | none => return none

def child (v : ExprView) (slot : Nat) : Except Fault (Option ExprView) :=
  return (← v.record).children[slot]?.join.map fun o => ⟨v.block, o⟩

/-- The children in slot order, each with its slot; slots without a child are left out. -/
def children (v : ExprView) : Except Fault (List (Nat × ExprView)) :=
  return (← v.record).children.toList.zipIdx.filterMap fun (at?, slot) => at?.map fun o => (slot, ⟨v.block, o⟩)

end ExprView

namespace Packed

def root (p : Packed) : ScopeView := ⟨p.block, p.scope⟩

def argTypes (p : Packed) : Except Fault (List TypeDesc) :=
  p.args.mapM (Stored.readAt p.block)

end Packed

end TreePack
