import TreePack.Bytes

namespace TreePack

inductive Fault where
  /-- Bytes were asked for that the block does not have. -/
  | outside (offset len size : Nat)
  /-- A position passed the largest 64-bit word. -/
  | overflow
  /-- Records lead back to themselves. -/
  | endless
  deriving DecidableEq, Inhabited, Repr

structure Offset where
  raw : UInt64
  deriving DecidableEq, Hashable, Inhabited, Repr

namespace Offset

def zero : Offset := ⟨0⟩

def ofNat (n : Nat) : Offset := ⟨n.toUInt64⟩

def toNat (o : Offset) : Nat := o.raw.toNat

theorem toNat_lt (o : Offset) : o.toNat < range64 := o.raw.toNat_lt

/-- An offset is its number. -/
theorem toNat_inj {a b : Offset} : a.toNat = b.toNat ↔ a = b := by
  constructor
  · intro h
    cases a with
    | mk a =>
      cases b with
      | mk b => exact congrArg Offset.mk (UInt64.toNat_inj.mp h)
  · intro h
    rw [h]

theorem toNat_ofNat {n : Nat} (h : n < range64) : (ofNat n).toNat = n :=
  UInt64.toNat_ofNat_of_lt' h

def add (o : Offset) (bytes : Nat) : Except Fault Offset :=
  if o.toNat + bytes < range64 then .ok (ofNat (o.toNat + bytes)) else .error .overflow

def render (o : Offset) : String := "@" ++ o.toNat.repr

def absent : UInt64 := 0xFFFFFFFFFFFFFFFF

def encodePtr : Option Offset → UInt64
  | some o => o.raw
  | none => absent

def decodePtr (raw : UInt64) : Option Offset :=
  if raw = absent then none else some ⟨raw⟩

def renderPtr : Option Offset → String
  | some o => "Some(" ++ o.render ++ ")"
  | none => "None"

/-- A word read as a pointer is written back as it was. -/
theorem encodePtr_decodePtr (raw : UInt64) : encodePtr (decodePtr raw) = raw := by
  unfold decodePtr
  split
  · rename_i h
    exact h.symm
  · rfl

/-- A pointer reads back, unless it is the one that stands for none. -/
theorem decodePtr_encodePtr {p : Option Offset} (h : ∀ o ∈ p, o.raw ≠ absent) :
    decodePtr (encodePtr p) = p := by
  cases p with
  | none => rfl
  | some o => exact if_neg (h o rfl)

end Offset

end TreePack
