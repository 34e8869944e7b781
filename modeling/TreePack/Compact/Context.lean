import Std.Data.HashSet
import TreePack.Compact.Ledger
import TreePack.Layout.Visit

namespace TreePack

structure Reservation where
  offset : Offset
  /-- The length with padding up to the next aligned position. -/
  len : Nat
  kind : NodeKind
  /-- How many elements stand there. -/
  count : Nat
  deriving DecidableEq

def Reservation.stop (r : Reservation) : Nat := r.offset.toNat + r.len

structure Stats where
  blockBytes : Nat
  reservations : Nat
  ledgerEntries : Nat
  /-- How often the ledger was asked for an offset while writing. -/
  resolutions : Nat
  writes : Nat
  /-- How many nodes and arrays were finished while writing. -/
  released : Nat
  deriving DecidableEq

def Stats.zero : Stats := ⟨0, 0, 0, 0, 0, 0⟩

structure Context (ι : Type) [DecidableEq ι] [Hashable ι] where
  ledger : Ledger ι
  /-- The next free position, which is the planned size at the end. -/
  cursor : Nat
  reservations : Array Reservation
  block : Option Block
  /-- Where something was written since planning began. -/
  written : Std.HashSet Offset
  stats : Stats

def Context.empty {ι : Type} [DecidableEq ι] [Hashable ι] : Context ι :=
  ⟨.empty, 0, #[], none, ∅, .zero⟩

/-- A step of a compaction: it may fail, and keeps the context also then. -/
abbrev CompactM (ι : Type) [DecidableEq ι] [Hashable ι] : Type → Type :=
  EStateM (CompactError ι) (Context ι)

abbrev Allocator (ι : Type) : Type := Nat → Except (CompactError ι) Block

def Allocator.heap {ι : Type} : Allocator ι := fun size =>
  match Block.zeroed? size with
  | some b => .ok b
  | none => .error (.outOfMemory size)

def Allocator.filled {ι : Type} (byte : UInt8) : Allocator ι := fun size =>
  match Block.ofArray? (Array.replicate size byte) with
  | some b => .ok b
  | none => .error (.outOfMemory size)

/-- Gets the block for the planned size. A block of another size is refused. -/
def Context.allocate {ι : Type} [DecidableEq ι] [Hashable ι] (allocator : Allocator ι) :
    CompactM ι Unit := fun cx =>
  match allocator cx.cursor with
  | .error e => .error e cx
  | .ok b =>
    if b.size = cx.cursor then
      .ok () { cx with stats := { cx.stats with blockBytes := b.size }, block := some b }
    else .error (.shortBlock cx.cursor b.size) cx

end TreePack
