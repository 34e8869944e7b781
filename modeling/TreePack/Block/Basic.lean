import TreePack.Block.Offset
import TreePack.Bytes
import TreePack.Text.Basic

namespace TreePack

def sizeLimit : Nat := 0x8000000000000000

structure Block where
  bytes : Array UInt8
  size_lt : bytes.size < sizeLimit
  deriving DecidableEq

structure OutOfBlock where
  offset : Nat
  len : Nat
  blockLen : Nat
  deriving DecidableEq, Inhabited, Repr

def OutOfBlock.message (e : OutOfBlock) : String :=
  e.len.repr ++ " bytes at offset " ++ e.offset.repr ++ " fall outside a block of " ++ e.blockLen.repr
    ++ " bytes"

namespace Block

def empty : Block := ⟨#[], by decide⟩

instance : Inhabited Block := ⟨empty⟩

def size (b : Block) : Nat := b.bytes.size

theorem size_lt_range (b : Block) : b.size < range64 := Nat.lt_trans b.size_lt (by decide)

theorem getElem?_outside {b : Block} {size i : Nat} (hb : b.size = size) (hi : ¬i < size) : b.bytes[i]? = none := by
  apply Array.getElem?_eq_none
  exact Nat.le_trans (Nat.le_of_eq hb) (Nat.le_of_not_lt hi)

def maxSize : Nat := sizeLimit - 2

def ofArray? (bytes : Array UInt8) : Option Block :=
  if h : bytes.size < sizeLimit then some ⟨bytes, h⟩ else none

/-- A new block of zero bytes. There is none above `maxSize`. -/
def zeroed? (size : Nat) : Option Block :=
  if h : size ≤ maxSize then
    some ⟨Array.replicate size 0, by
      rw [Array.size_replicate]
      unfold maxSize sizeLimit at *
      omega⟩
  else none

theorem size_of_zeroed? {size : Nat} {b : Block} (h : zeroed? size = some b) : b.size = size := by
  unfold zeroed? at h
  split at h
  · cases h
    exact Array.size_replicate
  · cases h

/-- A new block is filled with zeros. -/
theorem getElem?_of_zeroed? {size : Nat} {b : Block} (h : zeroed? size = some b) {i : Nat} (hi : i < size) :
    b.bytes[i]? = some 0 := by
  unfold zeroed? at h
  split at h
  · cases h
    exact (Array.getElem?_replicate).trans (if_pos hi)
  · cases h

def resize? (b : Block) (size : Nat) (fill : UInt8) : Option Block :=
  let kept := b.bytes.extract 0 size
  ofArray? (kept ++ Array.replicate (size - kept.size) fill)

/-- Where `len` bytes at `offset` end, if that is a word and all of them lie inside the block. Each read and each
write is checked here. -/
def stop? (b : Block) (offset len : Nat) : Option Nat :=
  match addWord? offset len with
  | some stop => if offset ≤ stop ∧ stop ≤ b.size then some stop else none
  | none => none

/-- The end of a range, if it is inside the block. A range whose end is no word has none. -/
theorem stop?_eq (b : Block) (offset len : Nat) :
    b.stop? offset len = if offset + len ≤ b.size then some (offset + len) else none := by
  unfold stop? addWord?
  have hsize := b.size_lt_range
  by_cases hle : offset + len ≤ b.size
  · have hword : offset + len < range64 := Nat.lt_of_le_of_lt hle hsize
    rw [if_pos hword, if_pos hle]
    exact if_pos ⟨Nat.le_add_right offset len, hle⟩
  · -- Whether the sum is a word or not, it does not lie in the block.
    rw [if_neg hle]
    split
    · rename_i stop hstop
      split at hstop
      · cases hstop
        exact if_neg fun h => hle h.2
      · cases hstop
    · rfl

def get? (b : Block) (offset len : Nat) : Option (List UInt8) :=
  (b.stop? offset len).map fun stop => (b.bytes.extract offset stop).toList

/-- A range that ends inside the block reads as its bytes, and any other range does not read. -/
theorem get?_eq (b : Block) (offset len : Nat) :
    b.get? offset len
      = if offset + len ≤ b.size then some (b.bytes.extract offset (offset + len)).toList else none := by
  rw [get?, stop?_eq]
  split <;> rfl

def overwrite (bytes : Array UInt8) : Nat → List UInt8 → Array UInt8
  | _, [] => bytes
  | i, d :: data => overwrite (bytes.setIfInBounds i d) (i + 1) data

@[simp] theorem size_overwrite (bytes : Array UInt8) (i : Nat) (data : List UInt8) :
    (overwrite bytes i data).size = bytes.size := by
  induction data generalizing bytes i with
  | nil => rfl
  | cons d data ih => rw [overwrite, ih, Array.size_setIfInBounds]

/-- Overwriting replaces the bytes from its start on and no others. -/
theorem getElem?_overwrite (bytes : Array UInt8) (i j : Nat) (data : List UInt8) :
    (overwrite bytes i data)[j]?
      = if i ≤ j ∧ j < i + data.length ∧ j < bytes.size then data[j - i]? else bytes[j]? := by
  induction data generalizing bytes i with
  | nil =>
    have hno : ¬(i ≤ j ∧ j < i + ([] : List UInt8).length ∧ j < bytes.size) := by
      simp only [List.length_nil]
      omega
    rw [if_neg hno]
    rfl
  | cons d data ih =>
    rw [overwrite, ih, Array.size_setIfInBounds, Array.getElem?_setIfInBounds, List.length_cons]
    -- The first byte is set, and the induction overwrites what is behind it, never this one again.
    by_cases hij : i = j
    · subst hij
      have hno : ¬(i + 1 ≤ i ∧ i < i + 1 + data.length ∧ i < bytes.size) := by omega
      rw [if_neg hno]
      by_cases hs : i < bytes.size
      · simp [hs]
      · simp [hs]
    · have hcond : (i + 1 ≤ j ∧ j < i + 1 + data.length ∧ j < bytes.size)
          ↔ (i ≤ j ∧ j < i + (data.length + 1) ∧ j < bytes.size) := by omega
      by_cases hc : i ≤ j ∧ j < i + (data.length + 1) ∧ j < bytes.size
      · have hsucc : j - i = (j - (i + 1)) + 1 := by omega
        rw [if_pos (hcond.mpr hc), if_pos hc, hsucc, List.getElem?_cons_succ]
      · rw [if_neg (fun h => hc (hcond.mp h)), if_neg hc, if_neg hij]

def write (b : Block) (offset : Nat) (data : List UInt8) : Except OutOfBlock Block :=
  match b.stop? offset data.length with
  | some _ => .ok ⟨overwrite b.bytes offset data, by rw [size_overwrite]; exact b.size_lt⟩
  | none => .error ⟨offset, data.length, b.size⟩

/-- A write goes through if it ends inside the block, and is refused with its measures if not. -/
theorem write_eq (b : Block) (offset : Nat) (data : List UInt8) :
    b.write offset data
      = if offset + data.length ≤ b.size then
          .ok ⟨overwrite b.bytes offset data, by rw [size_overwrite]; exact b.size_lt⟩
        else .error ⟨offset, data.length, b.size⟩ := by
  have hstop := b.stop?_eq offset data.length
  by_cases hle : offset + data.length ≤ b.size
  · rw [if_pos hle] at hstop
    rw [if_pos hle]
    simp only [write, hstop]
  · rw [if_neg hle] at hstop
    rw [if_neg hle]
    simp only [write, hstop]

theorem write_eq_error_iff (b : Block) (offset : Nat) (data : List UInt8) (e : OutOfBlock) :
    b.write offset data = .error e
      ↔ b.size < offset + data.length ∧ e = ⟨offset, data.length, b.size⟩ := by
  rw [write_eq]
  split
  · rename_i h
    constructor
    · intro he
      cases he
    · intro he
      omega
  · rename_i h
    constructor
    · intro he
      cases he
      exact ⟨by omega, rfl⟩
    · intro he
      rw [he.2]

/-- After a write each byte is the one written there, or the one there before. -/
theorem getElem?_write {b b' : Block} {offset : Nat} {data : List UInt8}
    (h : b.write offset data = .ok b') (i : Nat) :
    b'.bytes[i]? = if offset ≤ i ∧ i < offset + data.length then data[i - offset]? else b.bytes[i]? := by
  rw [write_eq] at h
  split at h
  · rename_i hle
    unfold size at hle
    cases h
    rw [getElem?_overwrite]
    by_cases hi : offset ≤ i ∧ i < offset + data.length
    · have hi' : offset ≤ i ∧ i < offset + data.length ∧ i < b.bytes.size := by omega
      rw [if_pos hi, if_pos hi']
    · have hi' : ¬(offset ≤ i ∧ i < offset + data.length ∧ i < b.bytes.size) := by omega
      rw [if_neg hi, if_neg hi']
  · cases h

def read (b : Block) (offset len : Nat) : Except Fault (List UInt8) :=
  match b.get? offset len with
  | some bytes => .ok bytes
  | none => .error (.outside offset len b.size)

def readWord (b : Block) (offset : Nat) : Except Fault UInt64 :=
  (b.read offset 8).map fun bytes => (leNat bytes).toUInt64

def zeroFrom? (bytes : Array UInt8) : Nat → Nat → Option Nat
  | 0, _ => none
  | count + 1, i => if bytes[i]? = some 0 then some i else zeroFrom? bytes count (i + 1)

inductive TextAt where
  /-- The position lies behind the end of the block. -/
  | outside
  /-- No zero byte follows. -/
  | unterminated
  | text (t : Text)

def textAt (b : Block) (offset : Nat) : TextAt :=
  if offset ≤ b.size then
    match zeroFrom? b.bytes (b.size - offset) offset with
    | some stop => .text (Text.takeText (b.bytes.extract offset stop).toList)
    | none => .unterminated
  else .outside

end Block

end TreePack
