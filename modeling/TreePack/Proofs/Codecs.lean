import TreePack.Proofs.ReadBack
/-!
Storing and reading records undo each other.

A value that is stored in the first bytes of a buffer reads back from there, what the buffer held before
does not show in those bytes, and the bytes behind them stay (`MutuallyInverse.stores`,
`MutuallyInverse.forgets`). The other way round some bytes stand for the same value: a byte between two fields
stands for nothing, every number without a base stands for `void`, and every byte but zero for a set flag.
`ByteRole.clean` is the byte that is stored for all of these, and what some bytes read as is stored as their
cleaned form (`MutuallyInverse.restores`). The roles of the bytes are written out for each record.
-/

namespace TreePack

inductive ByteRole where
  /-- A byte of a word, of a kind or of a count. -/
  | content
  /-- A byte between two fields. -/
  | unused
  /-- The number of a base. -/
  | base
  | flag

def ByteRole.clean : ByteRole → UInt8 → UInt8
  | content, b => b
  | unused, _ => 0
  | base, b => if (BaseType.ofRaw? b).isSome then b else 0
  | flag, b => if b = 0 then 0 else 1

namespace Stored

def cleaned (roles : List ByteRole) (bytes : List UInt8) : List UInt8 :=
  List.zipWith ByteRole.clean roles bytes

def field (width : Nat) : List ByteRole := List.replicate width .content

def gap (width : Nat) : List ByteRole := List.replicate width .unused

end Stored

open Stored

/-! ### What the bytes of each record are for -/

def TypeDesc.roles : List ByteRole := [.base] ++ field 1 ++ gap 2 ++ field 4 ++ field 8

def DeclRecord.roles : List ByteRole :=
  field 8 ++ TypeDesc.roles ++ [.flag] ++ gap 3 ++ field 4 ++ field 8 ++ field 8

def ScopeRecord.roles : List ByteRole := field 8 ++ field 8 ++ field 8 ++ field 8

def StmtRecord.roles : List ByteRole :=
  field 1 ++ gap 3 ++ field 4 ++ field 8 ++ field 8 ++ field 8 ++ field (8 * maxExprs) ++ field 8 ++ field 8
    ++ field 8

def ExprRecord.roles : List ByteRole :=
  field 1 ++ gap 7 ++ field 8 ++ TypeDesc.roles ++ field 8 ++ field 8 ++ field (8 * maxChildren)

namespace Stored

@[simp] theorem length_field (width : Nat) : (field width).length = width := List.length_replicate

@[simp] theorem length_gap (width : Nat) : (gap width).length = width := List.length_replicate

@[simp] theorem length_roles_type : TypeDesc.roles.length = 16 := rfl

/-- Storing and reading values of a type undo each other, as far as the stored form goes. -/
structure MutuallyInverse (α : Type) [Stored α] (pointers : α → List Offset) (roles : List ByteRole) :
    Prop where
  /-- Every byte of the stored form has a role. -/
  length_roles : roles.length = size α
  /-- A value is stored in the first bytes of a buffer and nowhere else, and reads back if no pointer in it is
  the word that stands for an absent one. -/
  stores : ∀ (a : α) (buffer : List UInt8), size α ≤ buffer.length →
    ∃ stored, encodeInto a buffer = .ok stored ∧ stored.length = buffer.length
      ∧ stored.drop (size α) = buffer.drop (size α)
      ∧ ((∀ o ∈ pointers a, o.raw ≠ Offset.absent) → decodePrefix stored = .ok a)
  /-- The stored form does not depend on the bytes that it replaces. -/
  forgets : ∀ {a : α} {buffer buffer' stored stored' : List UInt8}, encodeInto a buffer = .ok stored →
    encodeInto a buffer' = .ok stored' → stored.take (size α) = stored'.take (size α)
  /-- What some bytes read as is stored as their cleaned form, and reads back. -/
  restores : ∀ bytes buffer : List UInt8, size α ≤ bytes.length → size α ≤ buffer.length →
    ∃ (a : α) (stored : List UInt8), decodePrefix bytes = .ok a ∧ encodeInto a buffer = .ok stored
      ∧ stored.take (size α) = cleaned roles bytes ∧ decodePrefix stored = .ok a

/-! ### Storing and reading at the front of a buffer -/

section

variable {α : Type} [Stored α] {a : α} {buffer stored bytes : List UInt8}

theorem encodeInto_of_le (a : α) (h : size α ≤ buffer.length) :
    encodeInto a buffer = .ok (encode a ++ buffer.drop (size α)) := by
  rw [encodeInto, if_pos h, putAll_puts]

/-- Encoding into a buffer succeeds only if the record fits, and leaves the bytes behind it. -/
theorem eq_of_encodeInto (h : encodeInto a buffer = .ok stored) :
    size α ≤ buffer.length ∧ stored = encode a ++ buffer.drop (size α) := by
  by_cases hle : size α ≤ buffer.length
  · rw [encodeInto_of_le a hle] at h
    exact ⟨hle, (Except.ok.inj h).symm⟩
  · rw [encodeInto, if_neg hle] at h
    cases h

/-- Decoding reads the front of any buffer that is long enough. -/
theorem decodePrefix_of_le (h : size α ≤ bytes.length) : decodePrefix bytes = .ok (decode bytes : α) :=
  if_pos h

theorem take_encode_append (a : α) (rest : List UInt8) : (encode a ++ rest).take (size α) = encode a :=
  List.take_left' (length_encode a)

theorem drop_encode_append (a : α) (rest : List UInt8) : (encode a ++ rest).drop (size α) = rest :=
  List.drop_left' (length_encode a)

theorem size_le_length_append (a : α) (rest : List UInt8) : size α ≤ (encode a ++ rest).length := by
  rw [List.length_append, length_encode]
  exact Nat.le_add_right _ _

end

/-- It is enough that stored values read back, that no value that was read holds a present pointer with the word
of an absent one, and that what was read is stored as the cleaned bytes. -/
theorem MutuallyInverse.of_encode_decode {α : Type} [Stored α] {pointers : α → List Offset}
    {roles : List ByteRole} (hlen : roles.length = size α)
    (hback : ∀ (a : α) (rest : List UInt8), (∀ o ∈ pointers a, o.raw ≠ Offset.absent) →
      decode (encode a ++ rest) = a)
    (hptrs : ∀ bytes : List UInt8, ∀ o ∈ pointers (decode bytes), o.raw ≠ Offset.absent)
    (hclean : ∀ bytes : List UInt8, size α ≤ bytes.length →
      encode (decode bytes : α) = cleaned roles bytes) :
    MutuallyInverse α pointers roles := by
  refine ⟨hlen, ?_, ?_, ?_⟩
  · intro a buffer hle
    refine ⟨_, encodeInto_of_le a hle, ?_, drop_encode_append a _, fun h => ?_⟩
    · rw [List.length_append, length_encode, List.length_drop]
      omega
    · rw [decodePrefix_of_le (size_le_length_append a _), hback a _ h]
  · intro a buffer buffer' stored stored' h h'
    rw [(eq_of_encodeInto h).2, (eq_of_encodeInto h').2, take_encode_append, take_encode_append]
  · intro bytes buffer hbytes hbuffer
    refine ⟨decode bytes, _, decodePrefix_of_le hbytes, encodeInto_of_le _ hbuffer, ?_, ?_⟩
    · rw [take_encode_append, hclean bytes hbytes]
    · rw [decodePrefix_of_le (size_le_length_append _ _), hback _ _ (hptrs bytes)]

/-! ### Storing the fields that were read -/

section

variable {bytes : List UInt8} {i : Nat}

theorem length_take_drop {width : Nat} (h : i + width ≤ bytes.length) :
    ((bytes.drop i).take width).length = width := by
  rw [List.length_take, List.length_drop]
  omega

/-- A little-endian word written out again is the bytes it was read from. -/
theorem leBytes_wordAt {width : Nat} (h : i + width ≤ bytes.length) :
    leBytes width (wordAt bytes i width) = (bytes.drop i).take width := by
  have hbytes := leBytes_leNat ((bytes.drop i).take width)
  rwa [length_take_drop h] at hbytes

theorem wordAt_lt {width : Nat} (h : i + width ≤ bytes.length) : wordAt bytes i width < byteRange width := by
  have hlt := leNat_lt ((bytes.drop i).take width)
  rwa [length_take_drop h] at hlt

theorem u32Bytes_u32At (h : i + 4 ≤ bytes.length) : u32Bytes (u32At bytes i) = (bytes.drop i).take 4 := by
  have hnat : (u32At bytes i).toNat = wordAt bytes i 4 := UInt32.toNat_ofNat_of_lt' (wordAt_lt h)
  rw [u32Bytes, hnat, leBytes_wordAt h]

theorem u64Bytes_u64At (h : i + 8 ≤ bytes.length) : u64Bytes (u64At bytes i) = (bytes.drop i).take 8 := by
  have hnat : (u64At bytes i).toNat = wordAt bytes i 8 := UInt64.toNat_ofNat_of_lt' (wordAt_lt h)
  rw [u64Bytes, hnat, leBytes_wordAt h]

theorem ptrBytes_ptrAt (h : i + 8 ≤ bytes.length) : ptrBytes (ptrAt bytes i) = (bytes.drop i).take 8 := by
  rw [ptrBytes, ptrAt, Offset.encodePtr_decodePtr, u64Bytes_u64At h]

/-- A row of pointers is stored as it was read. -/
theorem ptrsBytes_ofFn {n : Nat} (h : i + 8 * n ≤ bytes.length) :
    ptrsBytes (Vector.ofFn fun k : Fin n => ptrAt bytes (i + 8 * k.val)).toList
      = (bytes.drop i).take (8 * n) := by
  rw [Vector.toList_ofFn]
  induction n with
  | zero => rfl
  | succ n ih =>
    -- The last pointer is split off, because those in front of it stay where they are.
    have hlast : ptrBytes (ptrAt bytes (i + 8 * n)) = ((bytes.drop i).drop (8 * n)).take 8 := by
      rw [ptrBytes_ptrAt (by omega), List.drop_drop]
    rw [List.ofFn_succ_last, ptrsBytes, List.flatMap_append, List.flatMap_singleton, ← ptrsBytes,
      Nat.mul_succ, List.take_add, ← hlast]
    exact congrArg (· ++ _) (ih (by omega))

theorem byteAt_eq (h : i < bytes.length) : [byteAt bytes i] = (bytes.drop i).take 1 := by
  rw [byteAt, List.getD_eq_getElem _ _ h, List.drop_eq_getElem_cons h]
  rfl

/-- A pointer that was read is never present with the word of an absent one. -/
theorem raw_ne_absent_of_ptrAt {o : Offset} (h : ptrAt bytes i = some o) : o.raw ≠ Offset.absent := by
  rw [ptrAt, Offset.decodePtr] at h
  split at h
  case isTrue => cases h
  case isFalse hraw =>
    rw [← Option.some.inj h]
    exact hraw

/-- No pointer read from a row is the absent one, which is read as none. -/
theorem raw_ne_absent_of_row {n : Nat} {o : Offset}
    (h : o ∈ (Vector.ofFn fun k : Fin n => ptrAt bytes (i + 8 * k.val)).toList.reduceOption) :
    o.raw ≠ Offset.absent := by
  rw [List.reduceOption_mem_iff, Vector.toList_ofFn, List.mem_ofFn] at h
  obtain ⟨k, hk⟩ := h
  exact raw_ne_absent_of_ptrAt hk

/-! ### Cleaning field by field -/

/-- Cleaning goes byte by byte. -/
theorem cleaned_append (roles roles' : List ByteRole) (bytes : List UInt8) :
    cleaned (roles ++ roles') bytes = cleaned roles bytes ++ cleaned roles' (bytes.drop roles.length) := by
  induction roles generalizing bytes with
  | nil => rfl
  | cons role roles ih =>
    cases bytes with
    | nil => simp [cleaned]
    | cons b bytes => exact congrArg (role.clean b :: ·) (ih bytes)

theorem cleaned_field (width : Nat) (bytes : List UInt8) : cleaned (field width) bytes = bytes.take width := by
  induction width generalizing bytes with
  | zero => rfl
  | succ width ih =>
    cases bytes with
    | nil => rfl
    | cons b bytes => exact congrArg (b :: ·) (ih bytes)

/-- Padding is cleaned to zeros, whatever it held. -/
theorem cleaned_gap {width : Nat} (h : width ≤ bytes.length) : cleaned (gap width) bytes = padding width := by
  induction width generalizing bytes with
  | zero => rfl
  | succ width ih =>
    cases bytes with
    | nil => cases h
    | cons b bytes => exact congrArg (0 :: ·) (ih (Nat.le_of_succ_le_succ h))

theorem cleaned_singleton (role : ByteRole) (h : i < bytes.length) :
    cleaned [role] (bytes.drop i) = [role.clean (byteAt bytes i)] := by
  rw [byteAt, List.getD_eq_getElem _ _ h, List.drop_eq_getElem_cons h]
  rfl

end

end Stored

/-! ### The records -/

/-- A base type is written as the byte it was read from. -/
theorem BaseType.toRaw_of_ofRaw? {raw : UInt8} {b : BaseType} (h : ofRaw? raw = some b) : b.toRaw = raw := by
  have hall : ∀ i : Fin all.length, (all[i.val]).toRaw = i.val.toUInt8 := by decide
  obtain ⟨hlt, rfl⟩ := List.getElem?_eq_some_iff.mp h
  exact (hall ⟨raw.toNat, hlt⟩).trans UInt8.ofNat_toNat

/-- What a byte reads as is stored as the cleaned byte. -/
theorem BaseType.toRaw_getD_ofRaw? (raw : UInt8) :
    ((ofRaw? raw).getD .void).toRaw = ByteRole.base.clean raw := by
  cases h : ofRaw? raw with
  | none =>
    simp only [ByteRole.clean, h]
    rfl
  | some b =>
    simp only [ByteRole.clean, h]
    exact toRaw_of_ofRaw? h

/-- Any byte but zero reads as true and is written back as one. -/
theorem flag_clean (b : UInt8) : (if (b != 0) = true then 1 else 0) = ByteRole.flag.clean b := by
  by_cases h : b = 0 <;> simp [ByteRole.clean, h]

/-- Decoding a type and encoding it again only cleans the bytes it was decoded from. The four
records below do the same, each with its own roles. -/
theorem TypeDesc.encode_decode {bytes : List UInt8} (h : 16 ≤ bytes.length) :
    Stored.encode (Stored.decode bytes : TypeDesc) = cleaned TypeDesc.roles bytes := by
  have hbase : cleaned [.base] bytes = [ByteRole.base.clean (byteAt bytes 0)] :=
    cleaned_singleton .base (i := 0) (by omega)
  have hpointers : [byteAt bytes 1] = (bytes.drop 1).take 1 := byteAt_eq (by omega)
  have hgap : cleaned (gap 2) (bytes.drop 2) = padding 2 := cleaned_gap (by rw [List.length_drop]; omega)
  have hstruct : u32Bytes (u32At bytes 4) = (bytes.drop 4).take 4 := u32Bytes_u32At (by omega)
  have hlen : u64Bytes (u64At bytes 8) = (bytes.drop 8).take 8 := u64Bytes_u64At (by omega)
  simp only [roles, cleaned_append, hbase, cleaned_field, hgap, ← hpointers, List.length_append, length_field,
    length_gap, List.length_singleton, Nat.reduceAdd, Stored.encode, Stored.decode,
    BaseType.toRaw_getD_ofRaw?, hstruct, hlen]
  rfl

theorem ScopeRecord.encode_decode {bytes : List UInt8} (h : 32 ≤ bytes.length) :
    Stored.encode (Stored.decode bytes : ScopeRecord Offset) = cleaned ScopeRecord.roles bytes := by
  simp only [roles, cleaned_append, cleaned_field, List.length_append, length_field, Nat.reduceAdd,
    Stored.encode, Stored.decode]
  simp (disch := omega) only [ptrBytes_ptrAt, u64Bytes_u64At, List.drop_zero]

theorem DeclRecord.encode_decode {bytes : List UInt8} (h : 48 ≤ bytes.length) :
    Stored.encode (Stored.decode bytes : DeclRecord Offset) = cleaned DeclRecord.roles bytes := by
  have htype := TypeDesc.encode_decode (show 16 ≤ (bytes.drop 8).length by rw [List.length_drop]; omega)
  have hflag : cleaned [.flag] (bytes.drop 24) = [ByteRole.flag.clean (byteAt bytes 24)] :=
    cleaned_singleton .flag (by omega)
  have hgap : cleaned (gap 3) (bytes.drop 25) = padding 3 := cleaned_gap (by rw [List.length_drop]; omega)
  rw [Stored.encode, Stored.decode]
  simp only [instStoredDeclRecordOffset, roles, cleaned_append, cleaned_field, hflag, hgap, htype,
    List.length_append, length_field, length_gap, length_roles_type, List.length_singleton, Nat.reduceAdd,
    flag_clean]
  simp (disch := omega) only [ptrBytes_ptrAt, u32Bytes_u32At, List.drop_zero]

theorem StmtRecord.encode_decode {bytes : List UInt8} (h : 88 ≤ bytes.length) :
    Stored.encode (Stored.decode bytes : StmtRecord Offset) = cleaned StmtRecord.roles bytes := by
  have hkind : [byteAt bytes 0] = bytes.take 1 := byteAt_eq (i := 0) (by omega)
  have hgap : cleaned (gap 3) (bytes.drop 1) = padding 3 := cleaned_gap (by rw [List.length_drop]; omega)
  have hexprs :=
    ptrsBytes_ofFn (n := maxExprs) (show 32 + 8 * maxExprs ≤ bytes.length by unfold maxExprs; omega)
  simp only [roles, cleaned_append, cleaned_field, hgap, List.length_append, length_field, length_gap,
    Nat.reduceAdd, Stored.encode, Stored.decode, hkind, hexprs]
  simp (disch := omega) only [ptrBytes_ptrAt, u32Bytes_u32At, u64Bytes_u64At]
  rfl

theorem ExprRecord.encode_decode {bytes : List UInt8} (h : 112 ≤ bytes.length) :
    Stored.encode (Stored.decode bytes : ExprRecord Offset) = cleaned ExprRecord.roles bytes := by
  have hkind : [byteAt bytes 0] = bytes.take 1 := byteAt_eq (i := 0) (by omega)
  have hgap : cleaned (gap 7) (bytes.drop 1) = padding 7 := cleaned_gap (by rw [List.length_drop]; omega)
  have htype := TypeDesc.encode_decode (show 16 ≤ (bytes.drop 16).length by rw [List.length_drop]; omega)
  have hchildren :=
    ptrsBytes_ofFn (n := maxChildren) (show 48 + 8 * maxChildren ≤ bytes.length by unfold maxChildren; omega)
  rw [Stored.encode, Stored.decode]
  simp only [instStoredExprRecordOffset, roles, cleaned_append, cleaned_field, hgap, List.length_append,
    length_field, length_gap, length_roles_type, Nat.reduceAdd, hkind, htype, hchildren]
  simp (disch := omega) only [ptrBytes_ptrAt, u64Bytes_u64At]

/-- The codecs of types and of all records are inverse to each other. -/
theorem Stored.mutuallyInverse :
    MutuallyInverse TypeDesc (fun _ => []) TypeDesc.roles
      ∧ MutuallyInverse (DeclRecord Offset) DeclRecord.pointers DeclRecord.roles
      ∧ MutuallyInverse (ScopeRecord Offset) ScopeRecord.pointers ScopeRecord.roles
      ∧ MutuallyInverse (StmtRecord Offset) StmtRecord.pointers StmtRecord.roles
      ∧ MutuallyInverse (ExprRecord Offset) ExprRecord.pointers ExprRecord.roles := by
  refine ⟨?type, ?decl, ?scope, ?stmt, ?expr⟩
  case type =>
    exact .of_encode_decode rfl (fun t rest _ => t.decode_encode_append rest) (fun _ _ h => nomatch h)
      fun _ h => TypeDesc.encode_decode h
  case decl =>
    refine .of_encode_decode rfl (fun _ rest h => DeclRecord.decode_encode_append h rest) (fun bytes o ho => ?_)
      fun _ h => DeclRecord.encode_decode h
    simp only [DeclRecord.pointers, List.mem_append, Option.mem_toList] at ho
    obtain (ho | ho) | ho := ho <;> exact raw_ne_absent_of_ptrAt ho
  case scope =>
    refine .of_encode_decode rfl (fun _ rest h => ScopeRecord.decode_encode_append h rest)
      (fun bytes o ho => ?_) fun _ h => ScopeRecord.encode_decode h
    simp only [ScopeRecord.pointers, List.mem_append, Option.mem_toList] at ho
    obtain ho | ho := ho <;> exact raw_ne_absent_of_ptrAt ho
  case stmt =>
    refine .of_encode_decode rfl (fun _ rest h => StmtRecord.decode_encode_append h rest) (fun bytes o ho => ?_)
      fun _ h => StmtRecord.encode_decode h
    simp only [StmtRecord.pointers, List.mem_append, Option.mem_toList] at ho
    -- The pointers of the row are read together, the others one by one.
    obtain (((ho | ho) | ho) | ho) | ho := ho
    case inl.inl.inr => exact raw_ne_absent_of_row ho
    all_goals exact raw_ne_absent_of_ptrAt ho
  case expr =>
    refine .of_encode_decode rfl (fun _ rest h => ExprRecord.decode_encode_append h rest) (fun bytes o ho => ?_)
      fun _ h => ExprRecord.encode_decode h
    simp only [ExprRecord.pointers, List.mem_append, Option.mem_toList] at ho
    obtain (ho | ho) | ho := ho
    case inr => exact raw_ne_absent_of_row ho
    all_goals exact raw_ne_absent_of_ptrAt ho

end TreePack
