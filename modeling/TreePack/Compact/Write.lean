import TreePack.Compact.Plan
import TreePack.Packed.Basic

namespace TreePack

structure Progress where
  written : Std.HashSet Offset
  stats : Stats
  block : Block

abbrev WriteM (ι : Type) : Type → Type := EStateM (CompactError ι) Progress

namespace Progress

variable {ι : Type}

def emit (offset : Offset) (bytes : List UInt8) : WriteM ι Unit := fun ⟨written, stats, block⟩ =>
  if written.contains offset then .error (.doubleWrite offset) ⟨written, stats, block⟩
  else
    match block.write offset.toNat bytes with
    | .ok block => .ok () ⟨written.insert offset, { stats with writes := stats.writes + 1 }, block⟩
    | .error e => .error (.outOfBounds e) ⟨written.insert offset, stats, Block.empty⟩

def release : WriteM ι Unit := fun ⟨written, stats, block⟩ =>
  .ok () ⟨written, { stats with released := stats.released + 1 }, block⟩

variable [DecidableEq ι] [Hashable ι]

def lookUp (ledger : Ledger ι) (node : ι) : WriteM ι Offset := fun ⟨written, stats, block⟩ =>
  let stats := { stats with resolutions := stats.resolutions + 1 }
  match ledger.resolve node with
  | .ok o => .ok o ⟨written, stats, block⟩
  | .error e => .error e ⟨written, stats, block⟩

def lookUpAll (ledger : Ledger ι) : List ι → WriteM ι Unit
  | [] => pure ()
  | node :: nodes => do
    let _ ← lookUp ledger node
    lookUpAll ledger nodes

/-- The bytes of cells, each of which must have been planned just behind the one before it. -/
def relocate (ledger : Ledger ι) (position : Nat) : List (Leaf ι (Cell ι)) → WriteM ι (List UInt8)
  | [] => pure []
  | c :: cs => do
    let found ← lookUp ledger c.id
    if found ≠ .ofNat position then
      throw (.layoutMismatch c.id (.ofNat position) found)
    lookUpAll ledger c.val.pointers
    let bytes := (c.val.map ledger.offset).encode
    let rest ← relocate ledger (position + c.val.size) cs
    return bytes ++ rest

/-- Writes a piece. An array of switch labels is looked up as a whole before its elements are. -/
def writePiece (ledger : Ledger ι) (p : Piece ι) : WriteM ι Unit := do
  if p.first.val.kind = .switchLabel then
    let _ ← lookUp ledger p.first.id
  let base := ledger.offset p.first.id
  let bytes ← relocate ledger base.toNat p.cells
  emit base bytes

def writeVisit (ledger : Ledger ι) : Visit ι → WriteM ι Unit
  | .enterLocal _ | .enterStmt _ => pure ()
  | .place p => writePiece ledger p
  | .leave => release

def writeVisits (ledger : Ledger ι) : List (Visit ι) → WriteM ι Unit
  | [] => pure ()
  | v :: vs => do
    writeVisit ledger v
    writeVisits ledger vs

end Progress

namespace Context

variable {ι : Type} [DecidableEq ι] [Hashable ι]

/-- Writes a function into the allocated block, which is given away also if that fails. -/
def write (f : Function ι) : CompactM ι Packed
  | ⟨ledger, cursor, reservations, none, written, stats⟩ =>
    .error .unallocated ⟨ledger, cursor, reservations, none, written, stats⟩
  | ⟨ledger, cursor, reservations, some block, written, stats⟩ =>
    match Progress.writeVisits ledger f.visits ⟨written, stats, block⟩ with
    | .error e ⟨written, stats, _⟩ => .error e ⟨ledger, cursor, reservations, none, written, stats⟩
    | .ok _ ⟨written, stats, block⟩ =>
      if reservations.size ≠ written.size then
        .error (.incompleteWrite reservations.size written.size)
          ⟨ledger, cursor, reservations, none, written, stats⟩
      else
        .ok ⟨block, ledger.offset f.scope.id, f.args.map fun t => ledger.offset t.id⟩
          ⟨ledger, cursor, reservations, none, written, stats⟩

end Context

end TreePack
