import TreePack.Block.Basic
import TreePack.Record.Basic
/-!
Stored forms of records.

A type with a stored form of fixed size says how a value becomes that many bytes and what value the bytes
stand for. Words are stored lowest byte first; a byte between two fields is zero, and reading skips it. A
base that no number stands for reads as `void`, and every byte but zero reads as a set flag.

Into a buffer a value is stored field by field, each field at its own position; `putAll_puts` says that the
fields leave none of the old bytes in their place and touch no byte behind them.
-/

namespace TreePack

structure Put where
  position : Nat
  bytes : List UInt8

def Put.into (buffer : List UInt8) (p : Put) : List UInt8 :=
  buffer.take p.position ++ (p.bytes ++ buffer.drop (p.position + p.bytes.length))

def putAll (puts : List Put) (buffer : List UInt8) : List UInt8 := puts.foldl Put.into buffer

class Stored (α : Type) where
  size : Nat
  encode : α → List UInt8
  /-- How a value is stored into a buffer that may hold anything. -/
  puts : α → List Put
  /-- The value of `size` bytes. Of a longer list the rest is ignored. -/
  decode : List UInt8 → α
  length_encode : ∀ a, (encode a).length = size
  /-- The fields cover the stored form and nothing else. -/
  putAll_puts : ∀ a buffer, putAll (puts a) buffer = encode a ++ buffer.drop size

namespace Stored

def wordAt (bytes : List UInt8) (i width : Nat) : Nat := leNat ((bytes.drop i).take width)

def u32At (bytes : List UInt8) (i : Nat) : UInt32 := (wordAt bytes i 4).toUInt32

def u64At (bytes : List UInt8) (i : Nat) : UInt64 := (wordAt bytes i 8).toUInt64

def byteAt (bytes : List UInt8) (i : Nat) : UInt8 := bytes.getD i 0

def ptrAt (bytes : List UInt8) (i : Nat) : Option Offset := Offset.decodePtr (u64At bytes i)

def u32Bytes (n : UInt32) : List UInt8 := leBytes 4 n.toNat

def u64Bytes (n : UInt64) : List UInt8 := leBytes 8 n.toNat

def ptrBytes (p : Option Offset) : List UInt8 := u64Bytes (Offset.encodePtr p)

def padding (n : Nat) : List UInt8 := List.replicate n 0

@[simp] theorem length_u32Bytes (n : UInt32) : (u32Bytes n).length = 4 := length_leBytes _ _

@[simp] theorem length_u64Bytes (n : UInt64) : (u64Bytes n).length = 8 := length_leBytes _ _

@[simp] theorem length_ptrBytes (p : Option Offset) : (ptrBytes p).length = 8 := length_u64Bytes _

@[simp] theorem length_padding (n : Nat) : (padding n).length = n := List.length_replicate

def ptrsBytes (ps : List (Option Offset)) : List UInt8 := ps.flatMap ptrBytes

theorem length_ptrsBytes (ps : List (Option Offset)) : (ptrsBytes ps).length = 8 * ps.length := by
  induction ps with
  | nil => rfl
  | cons p ps ih =>
    rw [ptrsBytes, List.flatMap_cons, List.length_append, length_ptrBytes, ← ptrsBytes, ih,
      List.length_cons]
    omega

@[simp] theorem length_ptrsBytes_vector {n : Nat} (ps : Vector (Option Offset) n) :
    (ptrsBytes ps.toList).length = 8 * n := by
  rw [length_ptrsBytes, Vector.length_toList]

section

variable {front rest : List UInt8} {i : Nat} {bytes : List UInt8} {ps : List Put}

@[simp] theorem putAll_nil (buffer : List UInt8) : putAll [] buffer = buffer := rfl

/-- The next field stands right behind those before it. -/
theorem putAll_behind (h : front.length = i) :
    putAll (⟨i, bytes⟩ :: ps) (front ++ rest) = putAll ps (front ++ bytes ++ rest.drop bytes.length) := by
  have htake : (front ++ rest).take i = front := List.take_left' h
  have hdrop : (front ++ rest).drop (i + bytes.length) = rest.drop bytes.length := by
    rw [← List.drop_drop, List.drop_left' h]
  rw [putAll, List.foldl_cons, Put.into, htake, hdrop, ← List.append_assoc]
  rfl

/-- The first field of an empty stored form. -/
theorem putAll_first (buffer : List UInt8) :
    putAll (⟨0, bytes⟩ :: ps) buffer = putAll ps (bytes ++ buffer.drop bytes.length) :=
  putAll_behind List.length_nil

theorem padding_add (n k : Nat) : padding (n + k) = padding n ++ padding k :=
  List.replicate_append_replicate.symm

/-- Bytes that were filled with zeros, without the first of them. -/
theorem drop_padding_append {n k m : Nat} (h : k + m = n) :
    (padding n ++ rest).drop k = padding m ++ rest := by
  rw [← h, padding_add, List.append_assoc, List.drop_left' (length_padding k)]

/-- The next field in a filled buffer. The `gap` zeros before it stay. -/
theorem putAll_filled {n m : Nat} (gap : Nat) (hi : front.length + gap = i) (hn : gap + bytes.length + m = n) :
    putAll (⟨i, bytes⟩ :: ps) (front ++ (padding n ++ rest))
      = putAll ps (front ++ padding gap ++ bytes ++ (padding m ++ rest)) := by
  have hrest : padding n ++ rest = padding gap ++ (padding (bytes.length + m) ++ rest) := by
    rw [← hn, Nat.add_assoc, padding_add, List.append_assoc]
  rw [hrest, ← List.append_assoc, putAll_behind (by rw [List.length_append, length_padding, hi]),
    drop_padding_append rfl]

def ptrPuts : Nat → List (Option Offset) → List Put
  | _, [] => []
  | i, p :: ps => ⟨i, ptrBytes p⟩ :: ptrPuts (i + 8) ps

/-- A row of pointers is put one behind the other. -/
theorem putAll_ptrPuts (h : front.length = i) (ptrs : List (Option Offset)) :
    putAll (ptrPuts i ptrs ++ ps) (front ++ rest)
      = putAll ps (front ++ ptrsBytes ptrs ++ rest.drop (8 * ptrs.length)) := by
  induction ptrs generalizing front rest i with
  | nil => simp [ptrPuts, ptrsBytes]
  | cons p ptrs ih =>
    have hnext : (front ++ ptrBytes p).length = i + 8 := by rw [List.length_append, h, length_ptrBytes]
    have hrow : ptrsBytes (p :: ptrs) = ptrBytes p ++ ptrsBytes ptrs := List.flatMap_cons
    rw [ptrPuts, List.cons_append, putAll_behind h, ih hnext, List.drop_drop, length_ptrBytes, hrow,
      ← List.append_assoc front, List.length_cons, Nat.mul_succ, Nat.add_comm 8]

theorem putAll_ptrPuts_filled {k n m : Nat} (h : front.length = i) (hn : 8 * k + m = n)
    (ptrs : Vector (Option Offset) k) :
    putAll (ptrPuts i ptrs.toList ++ ps) (front ++ (padding n ++ rest))
      = putAll ps (front ++ ptrsBytes ptrs.toList ++ (padding m ++ rest)) := by
  rw [putAll_ptrPuts h, Vector.length_toList, drop_padding_append hn]

end

end Stored

open Stored

def TypeDesc.putsAt (i : Nat) (t : TypeDesc) : List Put :=
  [⟨i, [t.base.toRaw]⟩, ⟨i + 1, [t.pointers]⟩, ⟨i + 2, padding 2⟩, ⟨i + 4, u32Bytes t.structId⟩,
    ⟨i + 8, u64Bytes t.arrayLen⟩]

/-- The puts of a type fill its sixteen bytes, two of them with padding. -/
theorem TypeDesc.putAll_putsAt {front rest : List UInt8} {i : Nat} {ps : List Put} (h : front.length = i)
    (t : TypeDesc) :
    putAll (t.putsAt i ++ ps) (front ++ rest)
      = putAll ps (front ++ ([t.base.toRaw, t.pointers] ++ padding 2 ++ u32Bytes t.structId
        ++ u64Bytes t.arrayLen) ++ rest.drop 16) := by
  subst h
  simp only [putsAt, List.cons_append, List.nil_append]
  rw [putAll_behind rfl, putAll_behind (by simp), putAll_behind (by simp), putAll_behind (by simp),
    putAll_behind (by simp)]
  simp only [List.drop_drop, length_u32Bytes, length_u64Bytes, length_padding, List.length_singleton,
    List.append_assoc, List.cons_append, List.nil_append]

/-- A type is stored as base, pointer count, two bytes of padding, structure and array length. -/
instance : Stored TypeDesc where
  size := 16
  encode t :=
    [t.base.toRaw, t.pointers] ++ padding 2 ++ u32Bytes t.structId ++ u64Bytes t.arrayLen
  puts t := t.putsAt 0
  decode bytes :=
    { base := (BaseType.ofRaw? (byteAt bytes 0)).getD .void
      pointers := byteAt bytes 1
      structId := u32At bytes 4
      arrayLen := u64At bytes 8 }
  length_encode t := by simp
  putAll_puts t _ := by
    rw [← List.append_nil (t.putsAt 0)]
    exact TypeDesc.putAll_putsAt List.length_nil t

/-- A type takes sixteen bytes. -/
@[simp] theorem length_encode_type (t : TypeDesc) : (Stored.encode t).length = 16 :=
  Stored.length_encode t

/-- The record is filled with zeros before its fields are put there. -/
instance : Stored (DeclRecord Offset) where
  size := 48
  encode r :=
    ptrBytes r.name ++ Stored.encode r.ty ++ [if r.isFunction then 1 else 0] ++ padding 3
      ++ u32Bytes r.argCount ++ ptrBytes r.args ++ ptrBytes r.body
  puts r :=
    ⟨0, padding 48⟩ :: ⟨0, ptrBytes r.name⟩ :: (r.ty.putsAt 8
      ++ [⟨24, [if r.isFunction then 1 else 0]⟩, ⟨28, u32Bytes r.argCount⟩, ⟨32, ptrBytes r.args⟩,
        ⟨40, ptrBytes r.body⟩])
  decode bytes :=
    { name := ptrAt bytes 0
      ty := Stored.decode (bytes.drop 8)
      isFunction := byteAt bytes 24 != 0
      argCount := u32At bytes 28
      args := ptrAt bytes 32
      body := ptrAt bytes 40 }
  length_encode r := by simp
  putAll_puts r buffer := by
    rw [putAll_first, putAll_first, length_padding, length_ptrBytes, drop_padding_append (m := 40) rfl,
      TypeDesc.putAll_putsAt (length_ptrBytes _), drop_padding_append (m := 24) rfl,
      putAll_filled (m := 23) 0 (by simp) (by simp), putAll_filled (m := 16) 3 (by simp) (by simp),
      putAll_filled (m := 8) 0 (by simp) (by simp), putAll_filled (m := 0) 0 (by simp) (by simp)]
    simp [padding, Stored.encode]

/-- The two arrays and their lengths cover the record. -/
instance : Stored (ScopeRecord Offset) where
  size := 32
  encode r := ptrBytes r.locals ++ u64Bytes r.localCount ++ ptrBytes r.stmts ++ u64Bytes r.stmtCount
  puts r :=
    [⟨0, ptrBytes r.locals⟩, ⟨8, u64Bytes r.localCount⟩, ⟨16, ptrBytes r.stmts⟩,
      ⟨24, u64Bytes r.stmtCount⟩]
  decode bytes :=
    { locals := ptrAt bytes 0
      localCount := u64At bytes 8
      stmts := ptrAt bytes 16
      stmtCount := u64At bytes 24 }
  length_encode r := by simp
  putAll_puts r buffer := by
    rw [putAll_first, length_ptrBytes, putAll_behind (by simp), putAll_behind (by simp), putAll_behind (by simp)]
    simp only [length_ptrBytes, length_u64Bytes, List.drop_drop]
    rfl

/-- The record is filled with zeros before its fields are put there. -/
instance : Stored (StmtRecord Offset) where
  size := 88
  encode r :=
    [r.kind] ++ padding 3 ++ u32Bytes r.exprCount ++ u64Bytes r.loc ++ ptrBytes r.loop
      ++ ptrBytes r.scope ++ ptrsBytes r.exprs.toList ++ ptrBytes r.label ++ ptrBytes r.switch
      ++ u64Bytes r.switchCount
  puts r :=
    [⟨0, padding 88⟩, ⟨0, [r.kind]⟩, ⟨4, u32Bytes r.exprCount⟩, ⟨8, u64Bytes r.loc⟩,
        ⟨16, ptrBytes r.loop⟩, ⟨24, ptrBytes r.scope⟩]
      ++ (ptrPuts 32 r.exprs.toList
      ++ [⟨64, ptrBytes r.label⟩, ⟨72, ptrBytes r.switch⟩, ⟨80, u64Bytes r.switchCount⟩])
  decode bytes :=
    { kind := byteAt bytes 0
      exprCount := u32At bytes 4
      loc := u64At bytes 8
      loop := ptrAt bytes 16
      scope := ptrAt bytes 24
      exprs := Vector.ofFn fun i => ptrAt bytes (32 + 8 * i.val)
      label := ptrAt bytes 64
      switch := ptrAt bytes 72
      switchCount := u64At bytes 80 }
  length_encode r := by
    have hexprs : (ptrsBytes r.exprs.toList).length = 32 := length_ptrsBytes_vector _
    simp [hexprs]
  putAll_puts r buffer := by
    have hexprs : (ptrsBytes r.exprs.toList).length = 32 := length_ptrsBytes_vector _
    simp only [List.cons_append, List.nil_append]
    rw [putAll_first, putAll_first, length_padding, List.length_singleton, drop_padding_append (m := 87) rfl,
      putAll_filled (m := 80) 3 (by simp) (by simp), putAll_filled (m := 72) 0 (by simp) (by simp),
      putAll_filled (m := 64) 0 (by simp) (by simp), putAll_filled (m := 56) 0 (by simp) (by simp),
      putAll_ptrPuts_filled (n := 56) (m := 24) (by simp) (by rfl),
      putAll_filled (m := 16) 0 (by simp [hexprs]) (by simp),
      putAll_filled (m := 8) 0 (by simp [hexprs]) (by simp),
      putAll_filled (m := 0) 0 (by simp [hexprs]) (by simp)]
    simp [padding]

/-- The record is filled with zeros before its fields are put there. -/
instance : Stored (ExprRecord Offset) where
  size := 112
  encode r :=
    [r.kind] ++ padding 7 ++ u64Bytes r.value ++ Stored.encode r.ty ++ ptrBytes r.symbol
      ++ ptrBytes r.method ++ ptrsBytes r.children.toList
  puts r :=
    [⟨0, padding 112⟩, ⟨0, [r.kind]⟩, ⟨8, u64Bytes r.value⟩] ++ (r.ty.putsAt 16
      ++ ([⟨32, ptrBytes r.symbol⟩, ⟨40, ptrBytes r.method⟩] ++ ptrPuts 48 r.children.toList))
  decode bytes :=
    { kind := byteAt bytes 0
      value := u64At bytes 8
      ty := Stored.decode (bytes.drop 16)
      symbol := ptrAt bytes 32
      method := ptrAt bytes 40
      children := Vector.ofFn fun i => ptrAt bytes (48 + 8 * i.val) }
  length_encode r := by
    have hchildren : (ptrsBytes r.children.toList).length = 64 := length_ptrsBytes_vector _
    simp [hchildren]
  putAll_puts r buffer := by
    simp only [List.cons_append, List.nil_append]
    rw [putAll_first, putAll_first, length_padding, List.length_singleton, drop_padding_append (m := 111) rfl,
      putAll_filled (m := 96) 7 (by simp) (by simp), TypeDesc.putAll_putsAt (by simp),
      drop_padding_append (m := 80) rfl, putAll_filled (m := 72) 0 (by simp) (by simp),
      putAll_filled (m := 64) 0 (by simp) (by simp)]
    rw [← List.append_nil (ptrPuts _ _), putAll_ptrPuts_filled (n := 64) (m := 0) (by simp) (by rfl)]
    simp [padding, Stored.encode]

instance : Stored UInt64 where
  size := 8
  encode := u64Bytes
  puts n := [⟨0, u64Bytes n⟩]
  decode bytes := u64At bytes 0
  length_encode := length_u64Bytes
  putAll_puts _ buffer := putAll_first buffer

namespace Stored

variable {α : Type} [Stored α]

def encodeInto (a : α) (buffer : List UInt8) : Except Fault (List UInt8) :=
  if size α ≤ buffer.length then .ok (putAll (puts a) buffer)
  else .error (.outside 0 (size α) buffer.length)

def decodePrefix (bytes : List UInt8) : Except Fault α :=
  if size α ≤ bytes.length then .ok (decode bytes)
  else .error (.outside 0 (size α) bytes.length)

def readAt (b : Block) (o : Offset) : Except Fault α :=
  (b.read o.toNat (size α)).map decode

end Stored

def Cell.size {π : Type} : Cell π → Nat
  | scope _ => Stored.size (ScopeRecord Offset)
  | decl _ => Stored.size (DeclRecord Offset)
  | stmt _ => Stored.size (StmtRecord Offset)
  | expr _ => Stored.size (ExprRecord Offset)
  | text t => t.stored.length
  | switchLabel _ => Stored.size UInt64
  | type _ => Stored.size TypeDesc

def Cell.encode : Cell Offset → List UInt8
  | scope r => Stored.encode r
  | decl r => Stored.encode r
  | stmt r => Stored.encode r
  | expr r => Stored.encode r
  | text t => t.stored
  | switchLabel label => Stored.encode label
  | type t => Stored.encode t

/-- Every record takes as many bytes as its cell says. -/
@[simp] theorem Cell.length_encode (c : Cell Offset) : c.encode.length = c.size := by
  cases c <;> first | rfl | exact Stored.length_encode _

end TreePack
