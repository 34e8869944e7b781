import TreePack.Record.Codec

namespace TreePack

namespace Block

variable {b : Block}

/-- The bytes read are those of the block, and there are none past its end. -/
theorem get?_eq_some_iff {pos : Nat} {bytes : List UInt8} :
    b.get? pos bytes.length = some bytes
      ↔ pos + bytes.length ≤ b.size ∧ ∀ i, i < bytes.length → b.bytes[pos + i]? = bytes[i]? := by
  rw [get?_eq]
  split
  · rename_i hle
    rw [Option.some_inj, List.ext_getElem?_iff]
    simp only [Array.getElem?_toList, Array.getElem?_extract]
    constructor
    · intro h
      refine ⟨hle, fun i hi => ?_⟩
      -- Past the length both sides are none, and below it the extract is the block itself.
      have hlt : i < min (pos + bytes.length) b.bytes.size - pos := by
        unfold size at hle
        omega
      rw [← h i, if_pos hlt]
    · rintro ⟨-, h⟩ i
      split
      · rename_i hi
        exact h i (by omega)
      · rename_i hi
        unfold size at hle
        exact (List.getElem?_eq_none (by omega)).symm
  · rename_i hle
    constructor
    · intro h
      cases h
    · intro h
      exact absurd h.1 hle

theorem le_of_get? {pos len : Nat} {bytes : List UInt8} (h : b.get? pos len = some bytes) :
    pos + len ≤ b.size := by
  rw [get?_eq] at h
  split at h
  · assumption
  · cases h

theorem exists_get? {pos len : Nat} (h : pos + len ≤ b.size) : ∃ bytes, b.get? pos len = some bytes :=
  ⟨_, (b.get?_eq pos len).trans (if_pos h)⟩

/-- Bytes in a row stand at a position if the first ones stand there and the others behind them. -/
theorem get?_append {pos : Nat} {front back : List UInt8} :
    b.get? pos (front ++ back).length = some (front ++ back)
      ↔ b.get? pos front.length = some front ∧ b.get? (pos + front.length) back.length = some back := by
  rw [get?_eq_some_iff, get?_eq_some_iff, get?_eq_some_iff, List.length_append]
  constructor
  · rintro ⟨hle, h⟩
    refine ⟨⟨by omega, fun i hi => ?_⟩, ⟨by omega, fun i hi => ?_⟩⟩
    · rw [h i (by omega), List.getElem?_append_left hi]
    · rw [Nat.add_assoc, h (front.length + i) (by omega), List.getElem?_append_right (by omega),
        Nat.add_sub_cancel_left]
  · rintro ⟨⟨hle, hfront⟩, ⟨hle', hback⟩⟩
    refine ⟨by omega, fun i hi => ?_⟩
    -- Each byte lies in the front or behind it.
    by_cases hif : i < front.length
    · rw [hfront i hif, List.getElem?_append_left hif]
    · have hsum : pos + i = pos + front.length + (i - front.length) := by omega
      rw [hsum, hback (i - front.length) (by omega), List.getElem?_append_right (by omega)]

theorem read_eq_ok_iff {pos len : Nat} {bytes : List UInt8} :
    b.read pos len = .ok bytes ↔ b.get? pos len = some bytes := by
  unfold read
  cases b.get? pos len with
  | none => simp
  | some found => simp

theorem exists_write {pos : Nat} {data : List UInt8} (h : pos + data.length ≤ b.size) :
    ∃ b', b.write pos data = .ok b' :=
  ⟨_, (b.write_eq pos data).trans (if_pos h)⟩

/-- Writing does not change the size of a block. -/
theorem size_write {b' : Block} {pos : Nat} {data : List UInt8} (h : b.write pos data = .ok b') :
    b'.size = b.size := by
  rw [write_eq] at h
  split at h
  · cases h
    exact size_overwrite _ _ _
  · cases h

/-- What was written is found again. -/
theorem get?_write {b' : Block} {pos : Nat} {data : List UInt8} (h : b.write pos data = .ok b') :
    b'.get? pos data.length = some data := by
  have hle : pos + data.length ≤ b.size := by
    rw [write_eq] at h
    split at h
    · assumption
    · cases h
  refine get?_eq_some_iff.mpr ⟨by rw [size_write h]; exact hle, fun i hi => ?_⟩
  rw [getElem?_write h, if_pos (by omega), Nat.add_sub_cancel_left]

/-- The scan stops at the first zero byte of its range, if there is one. -/
theorem zeroFrom?_eq_some_iff {bytes : Array UInt8} {count i stop : Nat} :
    zeroFrom? bytes count i = some stop
      ↔ i ≤ stop ∧ stop < i + count ∧ bytes[stop]? = some 0
        ∧ ∀ j, i ≤ j → j < stop → bytes[j]? ≠ some 0 := by
  induction count generalizing i with
  | zero =>
    constructor
    · intro h
      cases h
    · intro h
      omega
  | succ count ih =>
    -- The byte at `i` is a zero, or the search goes on behind it.
    unfold zeroFrom?
    split
    · rename_i hzero
      constructor
      · intro h
        cases h
        exact ⟨by omega, by omega, hzero, fun j hj hj' => by omega⟩
      · rintro ⟨hle, -, -, hbefore⟩
        rcases Nat.eq_or_lt_of_le hle with heq | hlt
        · rw [heq]
        · exact absurd hzero (hbefore i (Nat.le_refl i) hlt)
    · rename_i hzero
      rw [ih]
      constructor
      · rintro ⟨hle, hlt, hstop, hbefore⟩
        refine ⟨by omega, by omega, hstop, fun j hj hj' => ?_⟩
        by_cases hji : j = i
        · rw [hji]
          exact hzero
        · exact hbefore j (by omega) hj'
      · rintro ⟨hle, hlt, hstop, hbefore⟩
        have hne : i ≠ stop := by
          intro heq
          rw [heq] at hzero
          exact hzero hstop
        exact ⟨by omega, by omega, hstop, fun j hj hj' => hbefore j (by omega) hj'⟩

/-- A text without a zero byte is taken whole. -/
theorem takeText_of_zero_notMem {bytes : List UInt8} (h : 0 ∉ bytes) :
    Text.takeText bytes = ⟨bytes, h⟩ := by
  have hall : ∀ x ∈ bytes, (x != 0) = true := by
    intro x hx
    have hne : x ≠ 0 := fun hz => h (hz ▸ hx)
    simpa using hne
  have htake : bytes.takeWhile (· != 0) = bytes := by
    have happ : (bytes ++ []).takeWhile (· != 0) = bytes ++ _ := List.takeWhile_append_of_pos hall
    simpa using happ
  unfold Text.takeText
  congr

theorem getElem?_toList_extract {pos stop i : Nat} (h : stop ≤ b.size) :
    (b.bytes.extract pos stop).toList[i]? = if pos + i < stop then b.bytes[pos + i]? else none := by
  rw [Array.getElem?_toList, Array.getElem?_extract]
  unfold size at h
  by_cases hi : pos + i < stop
  · rw [if_pos hi, if_pos (by omega)]
  · rw [if_neg hi, if_neg (by omega)]

theorem length_extract {pos stop : Nat} (h : stop ≤ b.size) :
    (b.bytes.extract pos stop).toList.length = stop - pos := by
  rw [Array.length_toList, Array.size_extract]
  unfold size at h
  omega

/-- The first zero byte from a position on ends a text that stands there. -/
theorem get?_of_zeroFrom? {pos stop : Nat} {t : Text} (hstop : stop < b.size)
    (hzero : zeroFrom? b.bytes (b.size - pos) pos = some stop)
    (ht : (b.bytes.extract pos stop).toList = t.bytes) :
    b.get? pos t.stored.length = some t.stored := by
  obtain ⟨hge, -, hlast, -⟩ := zeroFrom?_eq_some_iff.mp hzero
  have hlen : t.bytes.length = stop - pos := by
    rw [← ht]
    exact length_extract (Nat.le_of_lt hstop)
  refine get?_eq_some_iff.mpr ⟨?_, fun i hi => ?_⟩
  · rw [Text.length_stored, hlen]
    omega
  · rw [Text.length_stored, hlen] at hi
    rw [Text.stored, List.getElem?_append, hlen]
    split
    · rw [← ht, getElem?_toList_extract (Nat.le_of_lt hstop), if_pos (by omega)]
    · -- Behind the bytes of the text there is room for one byte only, the zero.
      have hend : pos + i = stop := by omega
      have hindex : i - (stop - pos) = 0 := by omega
      rw [hend, hindex, hlast]
      rfl

/-- The search for a zero byte stops at the end of a text. -/
theorem zeroFrom?_of_get? {pos : Nat} {t : Text} (h : b.get? pos t.stored.length = some t.stored) :
    zeroFrom? b.bytes (b.size - pos) pos = some (pos + t.bytes.length)
      ∧ (b.bytes.extract pos (pos + t.bytes.length)).toList = t.bytes := by
  obtain ⟨hle, hbytes⟩ := get?_eq_some_iff.mp h
  rw [Text.length_stored] at hle hbytes
  have hbefore : ∀ i, i < t.bytes.length → b.bytes[pos + i]? = t.bytes[i]? := by
    intro i hi
    rw [hbytes i (by omega), Text.stored, List.getElem?_append_left hi]
  have hlast : b.bytes[pos + t.bytes.length]? = some 0 := by
    rw [hbytes _ (by omega), Text.stored, List.getElem?_append_right (Nat.le_refl _), Nat.sub_self]
    rfl
  constructor
  · refine zeroFrom?_eq_some_iff.mpr ⟨by omega, by omega, hlast, fun j hj hj' hzero => ?_⟩
    -- An earlier zero byte would be one of the text's own bytes.
    have hsum : pos + (j - pos) = j := by omega
    have hbyte := hbefore (j - pos) (by omega)
    rw [hsum, hzero] at hbyte
    exact t.zero_notMem (List.mem_of_getElem? hbyte.symm)
  · apply List.ext_getElem?
    intro i
    rw [getElem?_toList_extract (by omega)]
    split
    · exact hbefore i (by omega)
    · exact (List.getElem?_eq_none (by omega)).symm

/-- A text is read where its bytes and the zero byte behind them stand. -/
theorem textAt_eq_text_iff {pos : Nat} {t : Text} :
    b.textAt pos = .text t ↔ b.get? pos t.stored.length = some t.stored := by
  constructor
  · intro h
    unfold textAt at h
    split at h
    · rename_i hle
      split at h
      · rename_i stop hzero
        obtain ⟨hge, hlt, -, hbefore⟩ := zeroFrom?_eq_some_iff.mp hzero
        have hstop : stop < b.size := by omega
        -- The scan stopped at the first zero byte, so the text in front of it has none.
        have hnot : 0 ∉ (b.bytes.extract pos stop).toList := by
          intro hmem
          obtain ⟨i, hi⟩ := List.mem_iff_getElem?.mp hmem
          rw [getElem?_toList_extract (Nat.le_of_lt hstop)] at hi
          split at hi
          · exact hbefore (pos + i) (by omega) (by omega) hi
          · cases hi
        rw [takeText_of_zero_notMem hnot] at h
        cases h
        exact get?_of_zeroFrom? hstop hzero rfl
      · cases h
    · cases h
  · intro h
    have hle := le_of_get? h
    -- The terminator is the first zero byte, since the text has none.
    obtain ⟨hzero, hfront⟩ := zeroFrom?_of_get? h
    rw [Text.length_stored] at hle
    rw [textAt, if_pos (by omega), hzero]
    simp only
    rw [hfront, takeText_of_zero_notMem t.zero_notMem]

end Block

namespace Stored

variable {α : Type} [Stored α]

/-- Reading a record is reading its bytes and decoding them. -/
theorem readAt_eq_ok_iff {b : Block} {o : Offset} {a : α} :
    readAt b o = .ok a ↔ ∃ bytes, b.get? o.toNat (size α) = some bytes ∧ decode bytes = a := by
  unfold readAt
  cases h : b.read o.toNat (size α) with
  | ok bytes =>
    have hget := Block.read_eq_ok_iff.mp h
    simp [Except.map, hget]
  | error f =>
    have hget : b.get? o.toNat (size α) = none := by
      cases hg : b.get? o.toNat (size α) with
      | none => rfl
      | some bytes => cases h.symm.trans (Block.read_eq_ok_iff.mpr hg)
    simp [Except.map, hget]

/-- What is read lies inside the block. -/
theorem le_of_readAt {b : Block} {o : Offset} {a : α} (h : readAt b o = .ok a) :
    o.toNat + size α ≤ b.size := by
  obtain ⟨bytes, hbytes, -⟩ := readAt_eq_ok_iff.mp h
  exact Block.le_of_get? hbytes

/-- A record that ends inside the block can be read. -/
theorem exists_readAt {b : Block} {o : Offset} (h : o.toNat + size α ≤ b.size) :
    ∃ a : α, readAt b o = .ok a := by
  obtain ⟨bytes, hbytes⟩ := Block.exists_get? h
  exact ⟨decode bytes, readAt_eq_ok_iff.mpr ⟨bytes, hbytes, rfl⟩⟩

end Stored

end TreePack
