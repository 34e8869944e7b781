import Std.Data.HashSet
import TreePack.Packed.Basic
import TreePack.Verify.Defect
/-!
Checking a packed block.

The check follows all owning pointers from the root and claims the bytes of what it reaches. It accepts a
block if every pointer is aligned and leads to a record of its kind, no bytes are claimed twice, the claims
cover the block without a gap, and every loop reference leads to a loop. A record that was reached before is
refused at once, so a check goes down at most once for each aligned position, and `checkDepth` levels are
enough.
-/

namespace TreePack

structure Span where
  start : Nat
  len : Nat
  what : Region
  deriving DecidableEq

structure Findings where
  spans : Array Span
  /-- The starts of all spans. -/
  claimed : Std.HashSet Nat
  stmts : Std.HashSet Offset
  /-- The statements that a loop reference may name. -/
  loops : Std.HashSet Offset
  /-- Each statement with a loop reference, and the target of it. -/
  loopRefs : Array (Offset × Offset)
  exprCount : Nat

structure Report where
  spans : Nat
  statements : Nat
  expressions : Nat
  deriving DecidableEq, Repr

abbrev CheckM : Type → Type := EStateM CheckStop Findings

namespace Check

def fail {α : Type} (d : Defect) : CheckM α := throw (.defect d)

def liftFault {α : Type} : Except Fault α → CheckM α
  | .ok a => pure a
  | .error f => throw (.fault f)

def claim (b : Block) (o : Offset) (len : Nat) (what : Region) : CheckM Unit := do
  if o.toNat % alignment ≠ 0 then fail (.misaligned what o)
  if b.size < o.toNat + len then fail (.leavesBlock what o (some len))
  if (← get).claimed.contains o.toNat then fail (.reachedTwice what o)
  modify fun s =>
    { s with claimed := s.claimed.insert o.toNat, spans := s.spans.push ⟨o.toNat, alignUp len, what⟩ }

def claimText (b : Block) (o : Offset) (what : Region) : CheckM Unit :=
  match b.textAt o.toNat with
  | .outside => fail (.leavesBlock what o none)
  | .unterminated => fail (.unterminated what o)
  | .text t => claim b o t.stored.length what

def claimTextPtr (b : Block) (what : Region) : Option Offset → CheckM Unit
  | none => pure ()
  | some o => claimText b o what

/-- Claims an array, whose pointer is absent exactly if it is empty. -/
def claimArray (b : Block) (base : Option Offset) (count : UInt64) (stride : Nat) (what : Region) :
    CheckM Unit :=
  match base with
  | none => if count = 0 then pure () else fail (.pointerDisagrees what none count.toNat)
  | some o =>
    if count = 0 then fail (.pointerDisagrees what (some o) 0)
    else if range64 ≤ count.toNat * stride then fail (.absurdLength what o count.toNat)
    else claim b o (count.toNat * stride) what

def forPlaces (p : Places) (step : Offset → CheckM Unit) : Nat → Nat → CheckM Unit
  | 0, _ => pure ()
  | count + 1, i => do
    step (← liftFault (p.get i))
    forPlaces p step count (i + 1)

def element {α : Type} [Stored α] (b : Block) (o : Offset) (what : Region) : CheckM α :=
  match b.get? o.toNat (Stored.size α) with
  | some bytes => pure (Stored.decode bytes)
  | none => fail (.leavesBlock what o none)

def checkLocal (b : Block) (o : Offset) : CheckM Unit := do
  let r : DeclRecord Offset ← element b o .localDecl
  if r.isFunction ∨ r.args.isSome ∨ r.body.isSome then fail (.functionData o)
  match r.name with
  | some name => claimText b name .localName
  | none => fail (.unnamed o)

def checkExpr (b : Block) : Nat → Offset → CheckM Unit
  | 0, _ => throw (.fault .endless)
  | depth + 1, o => do
    claim b o (Stored.size (ExprRecord Offset)) .expression
    let r ← liftFault (ExprView.record ⟨b, o⟩)
    modify fun s => { s with exprCount := s.exprCount + 1 }
    if (ExprKind.ofRaw? r.kind).isNone then fail (.unknownKind .expression o r.kind)
    claimTextPtr b .symbolName r.symbol
    claimTextPtr b .methodName r.method
    r.children.toList.reduceOption.forM (checkExpr b depth)

/-- Checks the expression slots of a statement from slot `slot` on: those below the count are filled. -/
def checkSlots (step : Offset → CheckM Unit) (o : Offset) (count : Nat) :
    Nat → List (Option Offset) → CheckM Unit
  | _, [] => pure ()
  | slot, some e :: es => do
    if count ≤ slot then fail (.slotDisagrees o slot count)
    step e
    checkSlots step o count (slot + 1) es
  | slot, none :: es => do
    if slot < count then fail (.slotDisagrees o slot count)
    checkSlots step o count (slot + 1) es

def checkStmt (b : Block) (depth : Nat) (nested : Offset → CheckM Unit) (o : Offset) : CheckM Unit := do
  let r : StmtRecord Offset ← element b o .statement
  match StmtKind.ofRaw? r.kind with
  | none => fail (.unknownKind .statement o r.kind)
  | some kind => if kind.isLoopTarget then modify fun s => { s with loops := s.loops.insert o }
  let count := r.exprCount.toNat
  if maxExprs < count then fail (.tooManyExprs o count)
  checkSlots (checkExpr b depth) o count 0 r.exprs.toList
  match r.loop with
  | none => pure ()
  | some target => modify fun s => { s with loopRefs := s.loopRefs.push (o, target) }
  match r.scope with
  | none => pure ()
  | some scope => nested scope
  claimTextPtr b .label r.label
  claimArray b r.switch r.switchCount (Stored.size UInt64) .switchLabels

def checkScope (b : Block) : Nat → Offset → CheckM Unit
  | 0, _ => throw (.fault .endless)
  | depth + 1, o => do
    claim b o (Stored.size (ScopeRecord Offset)) .scope
    let r ← liftFault (ScopeView.record ⟨b, o⟩)
    claimArray b r.locals r.localCount (Stored.size (DeclRecord Offset)) .locals
    forPlaces r.localPlaces (checkLocal b) r.localPlaces.count 0
    claimArray b r.stmts r.stmtCount (Stored.size (StmtRecord Offset)) .statements
    forPlaces r.stmtPlaces (fun s => modify fun f => { f with stmts := f.stmts.insert s })
      r.stmtPlaces.count 0
    forPlaces r.stmtPlaces (checkStmt b depth (checkScope b depth)) r.stmtPlaces.count 0

def checkLoopRef (f : Findings) (ref : Offset × Offset) : Except CheckStop Unit :=
  if f.stmts.contains ref.2 then
    if f.loops.contains ref.2 then .ok () else .error (.defect (.refersToNoLoop ref.1 ref.2))
  else .error (.defect (.refersToNoStatement ref.1 ref.2))

def checkCover (size : Nat) : Nat → List Span → Except CheckStop Unit
  | stop, [] => if stop = size then .ok () else .error (.defect (.endsElsewhere stop size))
  | stop, s :: spans =>
    if s.start < stop then .error (.defect (.overlap s.what s.start stop))
    else if stop < s.start then .error (.defect (.unreached stop s.start))
    else checkCover size (s.start + s.len) spans

def checkDepth (b : Block) : Nat := (b.size + 7) / 8 + 1

def checkAll (p : Packed) : CheckM Unit := do
  checkScope p.block (checkDepth p.block) p.scope
  p.args.forM fun o => claim p.block o (Stored.size TypeDesc) .argType

def finish (p : Packed) (f : Findings) : Except CheckStop Report := do
  f.loopRefs.toList.forM (checkLoopRef f)
  checkCover p.block.size 0 (f.spans.toList.mergeSort fun a b => a.start ≤ b.start)
  return ⟨f.spans.size, f.stmts.size, f.exprCount⟩

end Check

def Findings.empty : Findings := ⟨#[], ∅, ∅, ∅, #[], 0⟩

def Packed.verify (p : Packed) : Except CheckStop Report :=
  match Check.checkAll p Findings.empty with
  | .ok _ f => Check.finish p f
  | .error stop _ => .error stop

end TreePack
