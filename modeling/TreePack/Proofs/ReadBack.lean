import Mathlib.Data.List.GetD
import Mathlib.Data.List.ReduceOption
import TreePack.Record.Codec

namespace TreePack

namespace Stored

theorem drop_behind {a : List UInt8} {i : Nat} (h : a.length ≤ i) (b : List UInt8) :
    (a ++ b).drop i = b.drop (i - a.length) := by
  rw [List.drop_append, List.drop_of_length_le h, List.nil_append]

/-- Reading behind the end of the first part is reading in the second. -/
theorem wordAt_append {a : List UInt8} {i : Nat} (h : a.length ≤ i) (b : List UInt8) (width : Nat) :
    wordAt (a ++ b) i width = wordAt b (i - a.length) width := by
  rw [wordAt, wordAt, drop_behind h]

theorem u32At_append {a : List UInt8} {i : Nat} (h : a.length ≤ i) (b : List UInt8) :
    u32At (a ++ b) i = u32At b (i - a.length) := by
  rw [u32At, u32At, wordAt_append h]

theorem u64At_append {a : List UInt8} {i : Nat} (h : a.length ≤ i) (b : List UInt8) :
    u64At (a ++ b) i = u64At b (i - a.length) := by
  rw [u64At, u64At, wordAt_append h]

theorem ptrAt_append {a : List UInt8} {i : Nat} (h : a.length ≤ i) (b : List UInt8) :
    ptrAt (a ++ b) i = ptrAt b (i - a.length) := by
  rw [ptrAt, ptrAt, u64At_append h]

theorem byteAt_append {a : List UInt8} {i : Nat} (h : a.length ≤ i) (b : List UInt8) :
    byteAt (a ++ b) i = byteAt b (i - a.length) := by
  rw [byteAt, byteAt, List.getD_append_right _ _ _ _ h]

/-- A little-endian word reads back, modulo its width. -/
theorem wordAt_leBytes (width n : Nat) (rest : List UInt8) :
    wordAt (leBytes width n ++ rest) 0 width = n % byteRange width := by
  have htake : (leBytes width n ++ rest).take width = leBytes width n :=
    List.take_left' (length_leBytes width n)
  rw [wordAt, List.drop_zero, htake, leNat_leBytes]

theorem u32At_u32Bytes (n : UInt32) (rest : List UInt8) : u32At (u32Bytes n ++ rest) 0 = n := by
  have hlt : n.toNat < byteRange 4 := n.toNat_lt
  rw [u32At, u32Bytes, wordAt_leBytes, Nat.mod_eq_of_lt hlt]
  exact UInt32.ofNat_toNat

theorem u64At_u64Bytes (n : UInt64) (rest : List UInt8) : u64At (u64Bytes n ++ rest) 0 = n := by
  have hlt : n.toNat < byteRange 8 := n.toNat_lt
  rw [u64At, u64Bytes, wordAt_leBytes, Nat.mod_eq_of_lt hlt]
  exact UInt64.ofNat_toNat

/-- A pointer reads back unless it is the one that stands for none. -/
theorem ptrAt_ptrBytes {p : Option Offset} (h : ∀ o ∈ p, o.raw ≠ Offset.absent) (rest : List UInt8) :
    ptrAt (ptrBytes p ++ rest) 0 = p := by
  rw [ptrAt, ptrBytes, u64At_u64Bytes, Offset.decodePtr_encodePtr h]

/-- Each pointer of a row reads back at its own place. -/
theorem ptrAt_ptrsBytes {ps : List (Option Offset)} (h : ∀ p ∈ ps, ∀ o ∈ p, o.raw ≠ Offset.absent)
    {i : Nat} (hi : i < ps.length) (rest : List UInt8) :
    ptrAt (ptrsBytes ps ++ rest) (8 * i) = ps[i] := by
  induction ps generalizing i with
  | nil => cases hi
  | cons p ps ih =>
    rw [ptrsBytes, List.flatMap_cons, ← ptrsBytes, List.append_assoc]
    cases i with
    | zero => exact ptrAt_ptrBytes (h p List.mem_cons_self) _
    | succ i =>
      have hlen : (ptrBytes p).length ≤ 8 * (i + 1) := by
        rw [length_ptrBytes]
        omega
      have hsub : 8 * (i + 1) - (ptrBytes p).length = 8 * i := by
        rw [length_ptrBytes]
        omega
      rw [ptrAt_append hlen, hsub]
      exact ih (fun q hq => h q (List.mem_cons_of_mem p hq)) (Nat.lt_of_succ_lt_succ hi)

/-- A row of pointers behind `k` bytes reads back slot by slot. -/
theorem ofFn_ptrAt_ptrsBytes {n k : Nat} {ps : Vector (Option Offset) n}
    (h : ∀ o ∈ ps.toList.reduceOption, o.raw ≠ Offset.absent) (front : List UInt8)
    (hk : front.length = k) (back : List UInt8) :
    (Vector.ofFn fun i : Fin n => ptrAt (front ++ (ptrsBytes ps.toList ++ back)) (k + 8 * i.val))
      = ps := by
  have hps : ∀ p ∈ ps.toList, ∀ o ∈ p, o.raw ≠ Offset.absent := by
    intro p hp o ho
    apply h
    rw [List.reduceOption_mem_iff, ← Option.mem_def.mp ho]
    exact hp
  ext1 i hi
  have hle : front.length ≤ k + 8 * i := by omega
  have hsub : k + 8 * i - front.length = 8 * i := by omega
  rw [Vector.getElem_ofFn, ptrAt_append hle, hsub,
    ptrAt_ptrsBytes hps (by rw [Vector.length_toList]; exact hi), Vector.getElem_toList]

end Stored

open Stored

/-- A type reads back from its bytes, whatever follows them. So do the records below, provided
that none of their pointers is the one that stands for none. -/
theorem TypeDesc.decode_encode_append (t : TypeDesc) (rest : List UInt8) :
    Stored.decode (Stored.encode t ++ rest) = t := by
  have hbase (bytes : List UInt8) : byteAt ([t.base.toRaw, t.pointers] ++ bytes) 0 = t.base.toRaw := rfl
  have hptrs (bytes : List UInt8) : byteAt ([t.base.toRaw, t.pointers] ++ bytes) 1 = t.pointers := rfl
  simp (disch := simp) only [Stored.encode, Stored.decode, List.append_assoc, hbase, hptrs,
    BaseType.ofRaw?_toRaw, Option.getD_some, u32At_append, u64At_append, List.length_cons,
    List.length_nil, length_padding, length_u32Bytes, Nat.reduceAdd, Nat.reduceSub, u32At_u32Bytes,
    u64At_u64Bytes]

theorem ScopeRecord.decode_encode_append {r : ScopeRecord Offset}
    (h : ∀ o ∈ r.pointers, o.raw ≠ Offset.absent) (rest : List UInt8) :
    Stored.decode (Stored.encode r ++ rest) = r := by
  have hlocals : ∀ o ∈ r.locals, o.raw ≠ Offset.absent := fun o ho => h o (by simp_all [pointers])
  have hstmts : ∀ o ∈ r.stmts, o.raw ≠ Offset.absent := fun o ho => h o (by simp_all [pointers])
  simp (disch := simp) only [Stored.encode, Stored.decode, List.append_assoc, ptrAt_append,
    u64At_append, length_ptrBytes, length_u64Bytes, Nat.reduceSub, u64At_u64Bytes,
    ptrAt_ptrBytes hlocals, ptrAt_ptrBytes hstmts]

theorem DeclRecord.decode_encode_append {r : DeclRecord Offset}
    (h : ∀ o ∈ r.pointers, o.raw ≠ Offset.absent) (rest : List UInt8) :
    Stored.decode (Stored.encode r ++ rest) = r := by
  have hname : ∀ o ∈ r.name, o.raw ≠ Offset.absent := fun o ho => h o (by simp_all [pointers])
  have hargs : ∀ o ∈ r.args, o.raw ≠ Offset.absent := fun o ho => h o (by simp_all [pointers])
  have hbody : ∀ o ∈ r.body, o.raw ≠ Offset.absent := fun o ho => h o (by simp_all [pointers])
  have hflag (bytes : List UInt8) :
      (byteAt ([if r.isFunction then 1 else 0] ++ bytes) 0 != 0) = r.isFunction := by
    cases hf : r.isFunction <;> rfl
  have htype := TypeDesc.decode_encode_append r.ty
  rw [Stored.encode, Stored.decode]
  simp (disch := simp) only [instStoredDeclRecordOffset, List.append_assoc, ptrAt_append, u32At_append,
    byteAt_append, drop_behind, length_ptrBytes, length_u32Bytes, length_padding, length_encode_type,
    List.length_cons, List.length_nil, Nat.reduceAdd, Nat.reduceSub, List.drop_zero, htype, hflag,
    u32At_u32Bytes, ptrAt_ptrBytes hname, ptrAt_ptrBytes hargs, ptrAt_ptrBytes hbody]

theorem StmtRecord.decode_encode_append {r : StmtRecord Offset}
    (h : ∀ o ∈ r.pointers, o.raw ≠ Offset.absent) (rest : List UInt8) :
    Stored.decode (Stored.encode r ++ rest) = r := by
  have hloop : ∀ o ∈ r.loop, o.raw ≠ Offset.absent := fun o ho => h o (by simp_all [pointers])
  have hscope : ∀ o ∈ r.scope, o.raw ≠ Offset.absent := fun o ho => h o (by simp_all [pointers])
  have hexprs : ∀ o ∈ r.exprs.toList.reduceOption, o.raw ≠ Offset.absent :=
    fun o ho => h o (by simp_all [pointers])
  have hlabel : ∀ o ∈ r.label, o.raw ≠ Offset.absent := fun o ho => h o (by simp_all [pointers])
  have hswitch : ∀ o ∈ r.switch, o.raw ≠ Offset.absent := fun o ho => h o (by simp_all [pointers])
  have hkind (bytes : List UInt8) : byteAt ([r.kind] ++ bytes) 0 = r.kind := rfl
  have hlen : (ptrsBytes r.exprs.toList).length = 32 := length_ptrsBytes_vector _
  -- The expression slots are read as a row behind everything in front of them.
  let front := [r.kind] ++ padding 3 ++ u32Bytes r.exprCount ++ u64Bytes r.loc ++ ptrBytes r.loop
    ++ ptrBytes r.scope
  have hslots := ofFn_ptrAt_ptrsBytes hexprs front (show _ = 32 by simp [front])
    (ptrBytes r.label ++ (ptrBytes r.switch ++ (u64Bytes r.switchCount ++ rest)))
  simp only [front, List.append_assoc] at hslots
  simp (disch := simp) only [Stored.encode, Stored.decode, List.append_assoc, hslots]
  simp (disch := simp [hlen]) only [hkind, ptrAt_append, u32At_append, u64At_append,
    length_ptrBytes, length_u32Bytes, length_u64Bytes, length_padding, hlen, List.length_cons,
    List.length_nil, Nat.reduceAdd, Nat.reduceSub, u32At_u32Bytes, u64At_u64Bytes,
    ptrAt_ptrBytes hloop, ptrAt_ptrBytes hscope, ptrAt_ptrBytes hlabel, ptrAt_ptrBytes hswitch]

theorem ExprRecord.decode_encode_append {r : ExprRecord Offset}
    (h : ∀ o ∈ r.pointers, o.raw ≠ Offset.absent) (rest : List UInt8) :
    Stored.decode (Stored.encode r ++ rest) = r := by
  have hsymbol : ∀ o ∈ r.symbol, o.raw ≠ Offset.absent := fun o ho => h o (by simp_all [pointers])
  have hmethod : ∀ o ∈ r.method, o.raw ≠ Offset.absent := fun o ho => h o (by simp_all [pointers])
  have hchildren : ∀ o ∈ r.children.toList.reduceOption, o.raw ≠ Offset.absent :=
    fun o ho => h o (by simp_all [pointers])
  have hkind (bytes : List UInt8) : byteAt ([r.kind] ++ bytes) 0 = r.kind := rfl
  have htype := TypeDesc.decode_encode_append r.ty
  let front := [r.kind] ++ padding 7 ++ u64Bytes r.value ++ Stored.encode r.ty ++ ptrBytes r.symbol
    ++ ptrBytes r.method
  have hslots := ofFn_ptrAt_ptrsBytes hchildren front (show _ = 48 by simp [front]) rest
  simp only [front, List.append_assoc] at hslots
  rw [Stored.encode, Stored.decode]
  simp (disch := simp) only [instStoredExprRecordOffset, List.append_assoc, hslots]
  simp (disch := simp) only [hkind, htype, ptrAt_append, u64At_append, drop_behind, length_ptrBytes,
    length_u64Bytes, length_padding, length_encode_type, List.length_cons, List.length_nil,
    Nat.reduceAdd, Nat.reduceSub, List.drop_zero, u64At_u64Bytes, ptrAt_ptrBytes hsymbol,
    ptrAt_ptrBytes hmethod]

theorem decode_encode_append_word (n : UInt64) (rest : List UInt8) :
    Stored.decode (Stored.encode n ++ rest) = n := u64At_u64Bytes n rest

end TreePack
