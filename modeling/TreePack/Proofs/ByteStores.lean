import Mathlib.Algebra.BigOperators.Ring.Finset
import TreePack.Proofs.BlockReads

namespace TreePack

/-- The number of bytes in a row, each of which depends on its position. -/
theorem leNat_map_range' (f : Nat → UInt8) (start count : Nat) :
    leNat ((List.range' start count).map f)
      = ∑ k ∈ Finset.range count, (f (start + k)).toNat * 256 ^ k := by
  induction count generalizing start with
  | zero => rfl
  | succ count ih =>
    -- The bytes behind the first one weigh as much more as their places are further on.
    have hrest : 256 * ∑ k ∈ Finset.range count, (f (start + 1 + k)).toNat * 256 ^ k
        = ∑ k ∈ Finset.range count, (f (start + (k + 1))).toNat * 256 ^ (k + 1) := by
      rw [Finset.mul_sum]
      refine Finset.sum_congr rfl fun k _ => ?_
      rw [Nat.add_assoc, Nat.add_comm 1 k, Nat.pow_succ, Nat.mul_left_comm, Nat.mul_comm 256]
    calc leNat ((List.range' start (count + 1)).map f)
        = (f start).toNat + 256 * leNat ((List.range' (start + 1) count).map f) := rfl
      _ = (f start).toNat + ∑ k ∈ Finset.range count, (f (start + (k + 1))).toNat * 256 ^ (k + 1) := by
        rw [ih, hrest]
      _ = ∑ k ∈ Finset.range (count + 1), (f (start + k)).toNat * 256 ^ k := by
        rw [Finset.sum_range_succ', Nat.add_zero, Nat.pow_zero, Nat.mul_one, Nat.add_comm]

namespace Block

structure Patch where
  offset : Nat
  data : List UInt8
  deriving DecidableEq

namespace Patch

def Covers (p : Patch) (i : Nat) : Prop := p.offset ≤ i ∧ i < p.offset + p.data.length

instance (p : Patch) (i : Nat) : Decidable (p.Covers i) := inferInstanceAs (Decidable (_ ∧ _))

end Patch

structure Answered extends Patch where
  refusal : Option OutOfBlock

def lastAt (i : Nat) (log : List Answered) : Option Answered :=
  log.findRev? fun a => a.refusal.isNone && a.Covers i

def lastByte (log : List Answered) (i : Nat) : UInt8 :=
  match lastAt i log with
  | some a => a.data.getD (i - a.offset) 0
  | none => 0

def put (p : Patch) : EStateM OutOfBlock Block Unit := fun b =>
  match b.write p.offset p.data with
  | .ok b' => .ok () b'
  | .error e => .error e b

structure Use where
  block : Block
  log : List Answered

namespace Use

def call (u : Use) (p : Patch) : Use :=
  match put p u.block with
  | .ok _ b => ⟨b, u.log ++ [⟨p, none⟩]⟩
  | .error e b => ⟨b, u.log ++ [⟨p, some e⟩]⟩

def after (b : Block) (patches : List Patch) : Use := patches.foldl call ⟨b, []⟩

end Use

/-- The block is a store of `n` bytes that were zero at first, each of which was replaced by what the accepted
patches have for it, one after the other. -/
structure KeepsLast (n : Nat) (u : Use) : Prop where
  size : u.block.size = n
  /-- A refusal says what was asked, and of how large a block. -/
  answered : ∀ a ∈ u.log, a.refusal
    = if a.offset + a.data.length ≤ n then none else some ⟨a.offset, a.data.length, n⟩
  accepted : ∀ p, (∃ b, put p u.block = .ok () b) ↔ p.offset + p.data.length ≤ n
  refused : ∀ p e b, put p u.block = .error e b
    ↔ n < p.offset + p.data.length ∧ e = ⟨p.offset, p.data.length, n⟩ ∧ b = u.block
  /-- The last accepted patch decides, and at first all bytes are zero. -/
  byte : ∀ i, i < n → u.block.bytes[i]? = some (lastByte u.log i)
  get : ∀ offset len, u.block.get? offset len
    = if offset + len ≤ n then some ((List.range' offset len).map (lastByte u.log)) else none
  /-- A word is read with the lowest byte first. -/
  word : ∀ offset, offset + 8 ≤ n → ∃ w, u.block.readWord offset = .ok w
    ∧ w.toNat = ∑ k ∈ Finset.range 8, (lastByte u.log (offset + k)).toNat * 256 ^ k

/-! ### One write -/

section

variable {b b' : Block} {p : Patch} {e : OutOfBlock}

theorem put_eq_ok_iff : put p b = .ok () b' ↔ b.write p.offset p.data = .ok b' := by
  unfold put
  cases b.write p.offset p.data with
  | ok found => simp
  | error found => simp

theorem put_eq_error_iff : put p b = .error e b' ↔ b.write p.offset p.data = .error e ∧ b' = b := by
  unfold put
  cases b.write p.offset p.data with
  | ok found => simp
  | error found => simp [eq_comm]

/-- A patch goes through exactly when it ends inside the buffer. An empty patch at the end does
too. -/
theorem exists_put_iff : (∃ b', put p b = .ok () b') ↔ p.offset + p.data.length ≤ b.size := by
  constructor
  · rintro ⟨b', h⟩
    have hle := le_of_get? (get?_write (put_eq_ok_iff.mp h))
    rwa [size_write (put_eq_ok_iff.mp h)] at hle
  · intro h
    obtain ⟨b', hwrite⟩ := exists_write h
    exact ⟨b', put_eq_ok_iff.mpr hwrite⟩

/-- A patch changes the bytes it covers and no others. -/
theorem getElem?_put (h : put p b = .ok () b') (i : Nat) :
    b'.bytes[i]? = if p.Covers i then p.data[i - p.offset]? else b.bytes[i]? :=
  getElem?_write (put_eq_ok_iff.mp h) i

/-- One more answered patch is the last at a byte exactly when it was accepted and covers that
byte. -/
theorem lastAt_concat (i : Nat) (log : List Answered) (a : Answered) :
    lastAt i (log ++ [a]) = if a.refusal.isNone ∧ a.Covers i then some a else lastAt i log := by
  unfold lastAt
  rw [List.findRev?_eq_find?_reverse, List.findRev?_eq_find?_reverse, List.reverse_concat, List.find?_cons]
  split <;> simp_all

end

/-! ### What every write keeps -/

structure Recalls (start : Block) (u : Use) : Prop where
  size : u.block.size = start.size
  answered : ∀ a ∈ u.log, a.refusal
    = if a.offset + a.data.length ≤ start.size then none
      else some ⟨a.offset, a.data.length, start.size⟩
  byte : ∀ i : Nat, u.block.bytes[i]? = match lastAt i u.log with
    | some a => a.data[i - a.offset]?
    | none => start.bytes[i]?

namespace Recalls

variable {start : Block} {u : Use}

/-- One more patch keeps the invariant: the buffer holds at each byte what the last accepted patch
put there, and an answer is an error exactly when the patch does not fit. -/
theorem call (h : Recalls start u) (p : Patch) : Recalls start (u.call p) := by
  obtain ⟨b, log⟩ := u
  cases hput : put p b with
  | ok _ b' =>
    have hwrite := put_eq_ok_iff.mp hput
    have hle : p.offset + p.data.length ≤ start.size := by
      rw [← h.size]
      exact exists_put_iff.mp ⟨b', hput⟩
    have hcall : Use.call ⟨b, log⟩ p = ⟨b', log ++ [⟨p, none⟩]⟩ := by simp only [Use.call, hput]
    rw [hcall]
    refine ⟨(size_write hwrite).trans h.size, fun a ha => ?_, fun i => ?_⟩
    · rcases List.mem_append.mp ha with hold | hnew
      · exact h.answered a hold
      · cases List.mem_singleton.mp hnew
        exact (if_pos hle).symm
    · -- Now this patch is the last one where it covers a position, and elsewhere nothing has changed.
      rw [getElem?_put hput, lastAt_concat]
      by_cases hi : p.Covers i
      · rw [if_pos hi, if_pos ⟨rfl, hi⟩]
      · rw [if_neg hi, if_neg fun hc => hi hc.2]
        exact h.byte i
  | error e b' =>
    obtain ⟨hwrite, rfl⟩ := put_eq_error_iff.mp hput
    obtain ⟨hlt, rfl⟩ := (write_eq_error_iff _ _ _ _).mp hwrite
    have hsize : b'.size = start.size := h.size
    have hcall : Use.call ⟨b', log⟩ p
        = ⟨b', log ++ [⟨p, some ⟨p.offset, p.data.length, b'.size⟩⟩]⟩ := by simp only [Use.call, hput]
    rw [hcall]
    refine ⟨h.size, fun a ha => ?_, fun i => ?_⟩
    · rcases List.mem_append.mp ha with hold | hnew
      · exact h.answered a hold
      · cases List.mem_singleton.mp hnew
        rw [hsize] at hlt ⊢
        exact (if_neg (Nat.not_le.mpr hlt)).symm
    · -- A patch that was refused is not the last one anywhere.
      rw [lastAt_concat, if_neg fun hc => Bool.false_ne_true hc.1]
      exact h.byte i

end Recalls

/-- After any run the buffer and the log agree. -/
theorem recalls_after (start : Block) (patches : List Patch) : Recalls start (Use.after start patches) := by
  -- From the back, as each write is answered behind the earlier ones.
  induction patches using List.reverseRecOn with
  | nil => exact ⟨rfl, fun a ha => absurd ha List.not_mem_nil, fun _ => rfl⟩
  | append_singleton patches p ih =>
    rw [Use.after, List.foldl_concat]
    exact ih.call p

/-- All writes were asked for in the order of the patches. -/
theorem log_after (start : Block) (patches : List Patch) :
    (Use.after start patches).log.map Answered.toPatch = patches := by
  induction patches using List.reverseRecOn with
  | nil => rfl
  | append_singleton patches p ih =>
    have hlog : ∃ refusal, (Use.call (Use.after start patches) p).log
        = (Use.after start patches).log ++ [⟨p, refusal⟩] := by
      simp only [Use.call]
      cases put p (Use.after start patches).block with
      | ok _ b => exact ⟨none, rfl⟩
      | error e b => exact ⟨some e, rfl⟩
    obtain ⟨refusal, hlog⟩ := hlog
    rw [Use.after, List.foldl_concat]
    change (Use.call (Use.after start patches) p).log.map Answered.toPatch = _
    rw [hlog, List.map_append, ih]
    rfl

/-! ### Reading -/

/-- A patch that is the last at a byte covers it. -/
theorem covers_of_lastAt {i : Nat} {log : List Answered} {a : Answered} (h : lastAt i log = some a) :
    a.Covers i := by
  rw [lastAt, List.findRev?_eq_find?_reverse] at h
  have hfound := List.find?_some h
  simp only [Bool.and_eq_true, decide_eq_true_eq] at hfound
  exact hfound.2

/-- The number that a word read from eight bytes is. -/
theorem exists_readWord {b : Block} {offset : Nat} {bytes : List UInt8} (hlen : bytes.length = 8)
    (h : b.get? offset 8 = some bytes) : ∃ w, b.readWord offset = .ok w ∧ w.toNat = leNat bytes := by
  have hword : leNat bytes < range64 := by
    have hlt := leNat_lt bytes
    rwa [hlen] at hlt
  refine ⟨(leNat bytes).toUInt64, ?_, UInt64.toNat_ofNat_of_lt' hword⟩
  rw [readWord, read_eq_ok_iff.mpr h]
  rfl

namespace Recalls

variable {start : Block} {u : Use} {n : Nat}

/-- A byte reads as the last accepted patch left it, and as zero where there was none. -/
theorem getElem?_lastByte (h : Recalls start u) (hstart : zeroed? n = some start) {i : Nat} (hi : i < n) :
    u.block.bytes[i]? = some (lastByte u.log i) := by
  rw [h.byte, lastByte]
  cases hlast : lastAt i u.log with
  | none => exact getElem?_of_zeroed? hstart hi
  | some a =>
    -- A patch has a byte for every position that it covers.
    obtain ⟨hle, hlt⟩ := covers_of_lastAt hlast
    have hindex : i - a.offset < a.data.length := by omega
    simp only [List.getD_eq_getElem?_getD, List.getElem?_eq_getElem hindex, Option.getD_some]

theorem get?_lastBytes (h : Recalls start u) (hstart : zeroed? n = some start) {offset len : Nat}
    (hle : offset + len ≤ n) :
    u.block.get? offset len = some ((List.range' offset len).map (lastByte u.log)) := by
  have hsize : u.block.size = n := h.size.trans (size_of_zeroed? hstart)
  have hlen : ((List.range' offset len).map (lastByte u.log)).length = len := by
    rw [List.length_map, List.length_range']
  have hfound : u.block.get? offset ((List.range' offset len).map (lastByte u.log)).length
      = some ((List.range' offset len).map (lastByte u.log)) := by
    refine get?_eq_some_iff.mpr ⟨by omega, fun i hi => ?_⟩
    rw [hlen] at hi
    rw [h.getElem?_lastByte hstart (by omega), List.getElem?_map, List.getElem?_range' hi, Nat.one_mul]
    rfl
  rwa [hlen] at hfound

/-- The buffer after a run, read byte by byte, as ranges and as words. -/
theorem keepsLast (h : Recalls start u) (hstart : zeroed? n = some start) : KeepsLast n u := by
  have hn : start.size = n := size_of_zeroed? hstart
  have hsize : u.block.size = n := h.size.trans hn
  constructor
  case size => exact hsize
  case answered =>
    rw [← hn]
    exact h.answered
  case accepted =>
    intro p
    rw [← hsize]
    exact exists_put_iff
  case refused =>
    intro p e b
    rw [put_eq_error_iff, write_eq_error_iff, hsize, and_assoc]
  case byte => exact fun i => h.getElem?_lastByte hstart
  case get =>
    intro offset len
    split
    · rename_i hle
      exact h.get?_lastBytes hstart hle
    · rename_i hle
      rw [← hsize] at hle
      exact (get?_eq _ offset len).trans (if_neg hle)
  case word =>
    intro offset hle
    -- The eight bytes are read as one number, lowest first.
    obtain ⟨w, hread, hw⟩ := exists_readWord (by simp) (h.get?_lastBytes hstart hle)
    exact ⟨w, hread, hw.trans (leNat_map_range' _ _ _)⟩

end Recalls

/-- After any writes, a new block holds what the last ones that were accepted put there. -/
theorem zeroed_keepsLast {n : Nat} {b : Block} (h : zeroed? n = some b) (patches : List Patch) :
    (Use.after b patches).log.map Answered.toPatch = patches ∧ KeepsLast n (Use.after b patches) :=
  ⟨log_after b patches, (recalls_after b patches).keepsLast h⟩

def sixteenBytes : Block := ⟨Array.replicate 16 0, by decide⟩

def mixedPatches : List Patch :=
  [⟨8, [1, 1, 1, 1, 1, 1, 1, 1]⟩, ⟨12, [2, 2, 2, 2, 2, 2, 2, 2]⟩, ⟨0xFFFFFFFFFFFFFFFF, [3]⟩, ⟨6, [4, 5, 6]⟩,
    ⟨16, []⟩, ⟨17, []⟩]

theorem zeroed_keepsLast_mixedPatches :
    zeroed? 16 = some sixteenBytes
      ∧ (Use.after sixteenBytes mixedPatches).block.bytes
        = #[0, 0, 0, 0, 0, 0, 4, 5, 6, 1, 1, 1, 1, 1, 1, 1]
      ∧ (Use.after sixteenBytes mixedPatches).log.map Answered.toPatch = mixedPatches
      ∧ KeepsLast 16 (Use.after sixteenBytes mixedPatches) := by
  have hzero : zeroed? 16 = some sixteenBytes := by decide
  exact ⟨hzero, by decide, zeroed_keepsLast hzero mixedPatches⟩

end Block

end TreePack
