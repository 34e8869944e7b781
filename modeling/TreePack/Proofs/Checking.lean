import TreePack.Proofs.Heights
import TreePack.Proofs.Marks
import TreePack.Proofs.Records

namespace TreePack

variable {b : Block}

/-! ### Texts and arrays -/

/-- A claim accepts the aligned offsets whose extent lies in the block; the extent is noted
rounded up, so that the padding behind it is covered. -/
theorem recognizes_claim (b : Block) (o : Offset) (len : Nat) (what : Region) :
    Recognizes (Check.claim b o len what) fun ms =>
      o.toNat % alignment = 0 ∧ o.toNat + len ≤ b.size ∧ ms = [.span ⟨o.toNat, alignUp len, what⟩] := by
  unfold Check.claim
  refine (Recognizes.guarded _ fun _ => Recognizes.guarded _ fun _ =>
    Recognizes.span ⟨o.toNat, alignUp len, what⟩ (.reachedTwice what o)).congr fun ms => ?_
  rw [not_not, Nat.not_lt]

/-- A text claim accepts exactly the offsets where a text ends before the block does. -/
theorem recognizes_claimText (b : Block) (o : Offset) (what : Region) :
    Recognizes (Check.claimText b o what)
      (MarksOf Leaf.id (fun t => (textPiece t).HeldIn b id) (fun t => [textMark what t]) o) := by
  have hread : ∀ t : Leaf Offset Text, (textPiece t).HeldIn b id → b.textAt t.id.toNat = .text t.val :=
    fun t ht => Block.textAt_eq_text_iff.mpr ((held_textPiece t).mp ht).2
  unfold Check.claimText
  -- Where no text stands, no leaf with this offset is held either.
  cases hat : b.textAt o.toNat with
  | outside =>
    refine (Recognizes.fail _).congr fun ms => ⟨fun h => h.elim, ?_⟩
    rintro ⟨t, rfl, ht, -⟩
    cases hat.symm.trans (hread t ht)
  | unterminated =>
    refine (Recognizes.fail _).congr fun ms => ⟨fun h => h.elim, ?_⟩
    rintro ⟨t, rfl, ht, -⟩
    cases hat.symm.trans (hread t ht)
  | text t =>
    refine (recognizes_claim b o t.stored.length what).congr fun ms => ⟨?_, ?_⟩
    · rintro ⟨haligned, -, rfl⟩
      refine ⟨⟨o, t⟩, rfl, (held_textPiece _).mpr ⟨haligned, ?_⟩, rfl⟩
      exact Block.textAt_eq_text_iff.mp hat
    · rintro ⟨u, rfl, hu, rfl⟩
      cases hat.symm.trans (hread u hu)
      obtain ⟨haligned, hbytes⟩ := (held_textPiece u).mp hu
      exact ⟨haligned, Block.le_of_get? hbytes, rfl⟩

theorem recognizes_claimTextPtr (b : Block) (what : Region) (p : Option Offset) :
    Recognizes (Check.claimTextPtr b what p)
      (MarksOf (Option.map Leaf.id) (fun t => ∀ u ∈ t, (textPiece u).HeldIn b id)
        (fun t => t.toList.map (textMark what)) p) := by
  have hcheck : Check.claimTextPtr b what p = p.elim (pure ()) fun o => Check.claimText b o what := by
    cases p <;> rfl
  have hmarks : (fun t : Option (Leaf Offset Text) => t.toList.map (textMark what))
      = fun t => t.elim [] fun u => [textMark what u] := by
    funext t
    cases t <;> rfl
  rw [hcheck, hmarks]
  exact Recognizes.option (fun o => recognizes_claimText b o what) p

structure IsRow (b : Block) (base : Option Offset) (count : UInt64) (stride : Nat) (os : List Offset) :
    Prop where
  base : arrayBase os = base
  count : os.length.toUInt64 = count
  length : os.length < range64
  inRow : InRow id stride os
  fits : ∀ first ∈ os.head?, first.toNat + os.length * stride ≤ b.size

theorem IsRow.lists {base : Option Offset} {count : UInt64} {stride : Nat} {os : List Offset}
    (h : IsRow b base count stride os) : (Places.ofArray base count stride).Lists os := by
  have hlists := h.inRow.lists h.length
  rw [h.base, h.count, Option.map_id, List.map_id] at hlists
  exact hlists

/-- The array that begins at an offset. -/
theorem exists_isRow {o : Offset} {count : UInt64} {stride : Nat} (hcount : count ≠ 0)
    (haligned : o.toNat % alignment = 0) (hfits : o.toNat + count.toNat * stride ≤ b.size) :
    ∃ os, IsRow b (some o) count stride os := by
  have hlimit : b.size < sizeLimit := b.size_lt
  obtain ⟨n, hn⟩ : ∃ n, count.toNat = n + 1 := by
    apply Nat.exists_eq_succ_of_ne_zero
    intro hzero
    exact hcount (UInt64.toNat_inj.mp hzero)
  let os := (List.range count.toNat).map fun i => Offset.ofNat (o.toNat + i * stride)
  have hlength : os.length = count.toNat := by rw [List.length_map, List.length_range]
  have hhead : os.head? = some o := by
    have hfirst : Offset.ofNat (o.toNat + 0 * stride) = o := by
      apply Offset.toNat_inj.mp
      rw [Nat.zero_mul, Nat.add_zero]
      exact Offset.toNat_ofNat o.toNat_lt
    simp only [os]
    rw [hn, List.range_succ_eq_map, List.map_cons, List.head?_cons, hfirst]
  refine ⟨os, hhead, ?_, ?_, ⟨?_, ?_⟩, ?_⟩
  · rw [hlength]
    exact UInt64.ofNat_toNat
  · rw [hlength]
    exact count.toNat_lt
  · intro first hfirst
    cases hhead.symm.trans hfirst
    exact haligned
  · -- No offset wraps around, since the last element ends inside the block.
    intro first hfirst i id' hid
    cases hhead.symm.trans hfirst
    have hi : i < count.toNat := by
      have hlt := (List.getElem?_eq_some_iff.mp hid).1
      rw [hlength] at hlt
      exact hlt
    rw [List.getElem?_map, List.getElem?_range hi] at hid
    cases hid
    have hle : i * stride ≤ count.toNat * stride := Nat.mul_le_mul_right _ (Nat.le_of_lt hi)
    apply Offset.toNat_ofNat
    unfold sizeLimit range64 at *
    omega
  · intro first hfirst
    cases hhead.symm.trans hfirst
    rw [hlength]
    exact hfits

/-- Without a base there is no element. -/
theorem isRow_none {count : UInt64} {stride : Nat} {os : List Offset} :
    IsRow b none count stride os ↔ os = [] ∧ count = 0 := by
  constructor
  · intro h
    have hnil : os = [] := List.head?_eq_none_iff.mp h.base
    refine ⟨hnil, ?_⟩
    rw [← h.count, hnil]
    rfl
  · rintro ⟨rfl, rfl⟩
    refine ⟨rfl, rfl, of_decide_eq_true rfl, ⟨fun _ h => ?_, fun _ h => ?_⟩, fun _ h => ?_⟩
    · cases h
    · cases h
    · cases h

/-- An array with a pointer has elements, as many as the count says. -/
theorem IsRow.exists_cons {o : Offset} {count : UInt64} {stride : Nat} {os : List Offset}
    (h : IsRow b (some o) count stride os) :
    ∃ others, os = o :: others ∧ count.toNat = others.length + 1 := by
  have hbase := h.base
  cases os with
  | nil => cases hbase
  | cons first others =>
    cases hbase
    refine ⟨others, rfl, ?_⟩
    rw [← h.count]
    exact UInt64.toNat_ofNat_of_lt' h.length

/-- An array with elements that lies inside the block has one mark, the span of all its elements. -/
theorem exists_rowMarks_iff {o : Offset} {count : UInt64} {stride : Nat} (what : Region)
    (hcount : count ≠ 0) (ms : List Mark) :
    (o.toNat % alignment = 0 ∧ o.toNat + count.toNat * stride ≤ b.size
        ∧ ms = [.span ⟨o.toNat, alignUp (count.toNat * stride), what⟩])
      ↔ ∃ os, IsRow b (some o) count stride os ∧ ms = rowMarks what stride os := by
  constructor
  · rintro ⟨haligned, hfits, rfl⟩
    obtain ⟨os, hos⟩ := exists_isRow hcount haligned hfits
    obtain ⟨others, rfl, hlength⟩ := hos.exists_cons
    refine ⟨_, hos, ?_⟩
    rw [hlength, rowMarks]
  · rintro ⟨os, hos, rfl⟩
    obtain ⟨others, rfl, hlength⟩ := hos.exists_cons
    refine ⟨hos.inRow.aligned o rfl, ?_, ?_⟩
    · rw [hlength]
      exact hos.fits o rfl
    · rw [hlength, rowMarks]

/-- An array claim accepts an absent base with no elements and a present base whose row fits. -/
theorem recognizes_claimArray (b : Block) (base : Option Offset) (count : UInt64) (stride : Nat)
    (what : Region) :
    Recognizes (Check.claimArray b base count stride what) fun ms =>
      ∃ os, IsRow b base count stride os ∧ ms = rowMarks what stride os := by
  unfold Check.claimArray
  -- A pointer and a count agree if both say that there are elements, or neither does.
  cases base with
  | none =>
    simp only [isRow_none]
    by_cases hcount : count = 0
    · simp only [hcount, ↓reduceIte]
      refine Recognizes.nil.congr fun ms => ⟨?_, ?_⟩
      · rintro rfl
        exact ⟨[], ⟨rfl, trivial⟩, rfl⟩
      · rintro ⟨os, ⟨rfl, -⟩, rfl⟩
        rfl
    · simp only [hcount, ↓reduceIte]
      refine (Recognizes.fail _).congr fun ms => ⟨fun h => h.elim, ?_⟩
      rintro ⟨os, ⟨-, hno⟩, -⟩
      exact hno
  | some o =>
    by_cases hcount : count = 0
    · simp only [hcount, ↓reduceIte]
      refine (Recognizes.fail _).congr fun ms => ⟨fun h => h.elim, ?_⟩
      rintro ⟨os, hos, -⟩
      obtain ⟨others, -, hlength⟩ := hos.exists_cons
      cases hlength
    · simp only [hcount, ↓reduceIte]
      by_cases habsurd : range64 ≤ count.toNat * stride
      · rw [if_pos habsurd]
        refine (Recognizes.fail _).congr fun ms => ⟨fun h => h.elim, fun h => ?_⟩
        -- No block is large enough for an array whose size does not fit a word.
        obtain ⟨-, hfits, -⟩ := (exists_rowMarks_iff what hcount ms).mpr h
        have hlimit : b.size < sizeLimit := b.size_lt
        unfold sizeLimit range64 at *
        omega
      · rw [if_neg habsurd]
        exact (recognizes_claim b o (count.toNat * stride) what).congr (exists_rowMarks_iff what hcount)

/-! ### Locals -/

/-- An array element is read at its offset. -/
theorem Recognizes.element {α : Type} [Stored α] {o : Offset} {what : Region} {k : α → CheckM Unit}
    {N : α → List Mark → Prop} (hk : ∀ a, Stored.readAt b o = .ok a → Recognizes (k a) (N a)) :
    Recognizes (Check.element b o what >>= k) fun ms => ∃ a, Stored.readAt b o = .ok a ∧ N a ms := by
  cases hget : b.get? o.toNat (Stored.size α) with
  -- Outside the block there is no record, so neither side accepts.
  | none =>
    have hfail : (Check.element b o what : CheckM α) = Check.fail (.leavesBlock what o none) := by
      rw [Check.element, hget]
    rw [hfail]
    intro f f'
    constructor
    · intro h
      cases h
    · rintro ⟨ms, ⟨a, ha, -⟩, -⟩
      obtain ⟨bytes, hbytes, -⟩ := Stored.readAt_eq_ok_iff.mp ha
      cases hget.symm.trans hbytes
  | some bytes =>
    -- Inside it there is exactly one, the one decoded.
    have hread : Stored.readAt b o = .ok (Stored.decode bytes : α) :=
      Stored.readAt_eq_ok_iff.mpr ⟨bytes, hget, rfl⟩
    have hpure : (Check.element b o what : CheckM α) = pure (Stored.decode bytes) := by
      rw [Check.element, hget]
    rw [hpure, pure_bind]
    refine (hk _ hread).congr fun ms => ⟨fun h => ⟨_, hread, h⟩, ?_⟩
    rintro ⟨a, ha, h⟩
    cases hread.symm.trans ha
    exact h

def FoundLocal (b : Block) (l : Local Offset) : Prop := l.isFunction = false ∧ l.HeldIn b id

/-- A declaration record is accepted where it decodes to a declaration whose name stands in the
block. -/
theorem recognizes_checkLocal (b : Block) (o : Offset) :
    Recognizes (Check.checkLocal b o)
      (MarksOf Local.id (FoundLocal b) (fun l => [textMark .localName l.name]) o) := by
  unfold Check.checkLocal
  refine (Recognizes.element fun r _ => Recognizes.guarded (M := fun ms => ∃ t : Leaf Offset Text,
    some t.id = r.name ∧ (textPiece t).HeldIn b id ∧ ms = [textMark .localName t]) _ fun _ => ?_).congr
      fun ms => ⟨?_, ?_⟩
  · cases hname : r.name with
    | none =>
      refine (Recognizes.fail _).congr fun ms => ⟨fun h => h.elim, ?_⟩
      rintro ⟨t, ht, -⟩
      cases ht
    | some name =>
      refine (recognizes_claimText b name .localName).congr fun ms => ?_
      simp only [Option.some_inj]
      exact Iff.rfl
  · rintro ⟨r, hread, hplain, t, hname, ht, rfl⟩
    simp only [not_or, Bool.not_eq_true, Option.isSome_eq_false_iff, Option.isNone_iff_eq_none] at hplain
    obtain ⟨hfun, hargs, hbody⟩ := hplain
    -- The count of arguments is left free, by the check as by `Local.HeldIn`.
    refine ⟨⟨o, t, r.ty, false⟩, rfl, ⟨rfl, ⟨⟨r.argCount, ?_⟩, ht⟩⟩, rfl⟩
    have hrecord : (Local.mk o t r.ty false).recordAt id r.argCount = r := by
      cases r with
      | mk name ty isFunction argCount args body =>
        cases hfun
        cases hargs
        cases hbody
        cases hname
        rfl
    rw [hrecord]
    exact hread
  · rintro ⟨l, rfl, ⟨-, hheld⟩, rfl⟩
    obtain ⟨argCount, hread⟩ := hheld.record
    refine ⟨_, hread, ?_, l.name, rfl, hheld.name, rfl⟩
    simp [Local.recordAt]

/-! ### Expressions -/

/-- The slots that pointers and the children at them make up. -/
theorem exists_slots {n : Nat} {ptrs : List (Option Offset)} (hlength : ptrs.length = n)
    {children : List (Expr Offset)} (h : children.map Expr.id = ptrs.reduceOption) :
    ∃ s : Slots Offset n, (List.ofFn fun i => (s.get i).map Expr.id) = ptrs ∧ s.toList = children := by
  -- An absent pointer is an empty slot, and every other one takes the next child.
  induction ptrs generalizing n children with
  | nil =>
    cases hlength
    exact ⟨.nil, rfl, (List.map_eq_nil_iff.mp h).symm⟩
  | cons p ptrs ih =>
    cases hlength
    cases p with
    | none =>
      rw [List.reduceOption_cons_of_none] at h
      obtain ⟨s, hptrs, hchildren⟩ := ih rfl h
      refine ⟨.empty s, ?_, hchildren⟩
      rw [List.ofFn_succ]
      exact congrArg _ hptrs
    | some o =>
      rw [List.reduceOption_cons_of_some] at h
      cases children with
      | nil => cases h
      | cons child children =>
        obtain ⟨hid, hrest⟩ := List.cons.inj h
        obtain ⟨s, hptrs, hchildren⟩ := ih rfl hrest
        refine ⟨.full child s, ?_, congrArg _ hchildren⟩
        rw [List.ofFn_succ, ← hid]
        exact congrArg _ hptrs

theorem ExprKind.toRaw_of_ofRaw? {raw : UInt8} {k : ExprKind} (h : ExprKind.ofRaw? raw = some k) :
    k.toRaw = raw := by
  have hall : ∀ i : Fin all.length, (all[i.val]).toRaw = i.val.toUInt8 := by decide
  obtain ⟨hlt, rfl⟩ := List.getElem?_eq_some_iff.mp h
  exact (hall ⟨raw.toNat, hlt⟩).trans UInt8.ofNat_toNat

/-- A record of an expression whose pointers lead to texts and expressions is that of an expression. -/
theorem exists_expr_of_record {o : Offset} {r : ExprRecord Offset} {kind : ExprKind}
    {symbol method : Option (Leaf Offset Text)} {children : List (Expr Offset)}
    (hkind : ExprKind.ofRaw? r.kind = some kind) (hsymbol : symbol.map (·.id) = r.symbol)
    (hmethod : method.map (·.id) = r.method)
    (hchildren : children.map Expr.id = r.children.toList.reduceOption) :
    ∃ s : Slots Offset maxChildren, s.toList = children
      ∧ (Expr.node ⟨o, kind, r.value, r.ty, symbol, method⟩ s).recordAt id = r := by
  obtain ⟨s, hptrs, hlist⟩ := exists_slots r.children.length_toList hchildren
  refine ⟨s, hlist, ?_⟩
  have hvector : (Vector.ofFn fun i => (s.get i).map Expr.id) = r.children := by
    apply Vector.toList_inj.mp
    rw [Vector.toList_ofFn]
    exact hptrs
  have hraw := ExprKind.toRaw_of_ofRaw? hkind
  cases r with
  | mk rawKind value ty symbolPtr methodPtr childPtrs =>
    subst hsymbol hmethod hvector hraw
    rfl

/-- A record lists the children of its expression and nothing else. -/
theorem childOffsets_recordAt (head : ExprHead Offset) (s : Slots Offset maxChildren) :
    ((Expr.node head s).recordAt id).children.toList.reduceOption = s.toList.map Expr.id := by
  rw [Expr.recordAt, Vector.toList_ofFn]
  exact s.reduceOption_ofFn Expr.id

def FoundExpr (b : Block) (depth : Nat) (e : Expr Offset) : Prop := e.height ≤ depth ∧ Held b id e.pieces

/-- Checking an expression accepts exactly the offsets of expression trees. The induction is on
the depth left to the check, which bounds the height of the trees found. -/
theorem recognizes_checkExpr (b : Block) (depth : Nat) (o : Offset) :
    Recognizes (Check.checkExpr b depth o) (MarksOf Expr.id (FoundExpr b depth) Expr.marks o) := by
  induction depth generalizing o with
  | zero =>
    -- Every expression has a level of its own.
    refine (Recognizes.throw _).congr fun ms => ⟨fun h => h.elim, ?_⟩
    rintro ⟨e, -, ⟨hheight, -⟩, -⟩
    cases e
    cases hheight
  | succ depth ih =>
    unfold Check.checkExpr
    refine ((recognizes_claim b o _ _).bind (Recognizes.read fun r _ =>
      (Recognizes.mark (m := .expr) fun _ => trivial).bind (Recognizes.guarded _ fun _ =>
        (recognizes_claimTextPtr b _ r.symbol).bind ((recognizes_claimTextPtr b _ r.method).bind
          (Recognizes.nodes ih _))))).congr fun ms => ⟨?_, ?_⟩
    · -- What the steps found one by one is put together to an expression.
      rintro ⟨_, _, ⟨haligned, -, rfl⟩, ⟨r, hread, _, _, rfl, ⟨hkind, _, _, ⟨symbol, hsymbol, hsymbolHeld,
        rfl⟩, ⟨_, _, ⟨method, hmethod, hmethodHeld, rfl⟩, ⟨children, hids, hall, rfl⟩, rfl⟩, rfl⟩, rfl⟩, rfl⟩
      obtain ⟨kind, hkind⟩ := Option.ne_none_iff_exists'.mp fun hnone =>
        hkind (Option.isNone_iff_eq_none.mpr hnone)
      obtain ⟨s, rfl, hrecord⟩ := exists_expr_of_record (o := o) hkind hsymbol hmethod hids
      refine ⟨.node ⟨o, kind, r.value, r.ty, symbol, method⟩ s, rfl, ⟨?_, ?_⟩, ?_⟩
      · exact Nat.succ_le_succ (Slots.height_le_iff.mpr fun e he => (hall e he).1)
      · refine (Expr.held_iff _ _).mpr ⟨⟨haligned, ?_⟩, hsymbolHeld, hmethodHeld, ?_⟩
        · rw [hrecord]
          exact hread
        · exact held_slots.mpr fun e he => (hall e he).2
      · rw [Expr.marks, Slots.marks_eq]
        rfl
    · -- A held expression is taken apart for the steps.
      rintro ⟨⟨head, s⟩, rfl, ⟨hheight, hheld⟩, rfl⟩
      obtain ⟨⟨haligned, hread⟩, hsymbol, hmethod, hslots⟩ := (Expr.held_iff _ _).mp hheld
      have hkind : ¬(ExprKind.ofRaw? ((Expr.node head s).recordAt id).kind).isNone := by
        have h := ExprKind.ofRaw?_toRaw head.kind
        change ¬(ExprKind.ofRaw? head.kind.toRaw).isNone
        rw [h]
        exact Bool.false_ne_true
      have hheight' := Slots.height_le_iff.mp (Nat.le_of_succ_le_succ hheight)
      have hbelow : ∀ e ∈ s.toList, FoundExpr b depth e := fun e he =>
        ⟨hheight' e he, held_slots.mp hslots e he⟩
      refine ⟨_, _, ⟨haligned, Stored.le_of_readAt hread, rfl⟩, ⟨_, hread, _, _, rfl, ⟨hkind, _, _,
        ⟨head.symbol, rfl, hsymbol, rfl⟩, ⟨_, _, ⟨head.method, rfl, hmethod, rfl⟩,
        ⟨s.toList, (childOffsets_recordAt head s).symm, hbelow, rfl⟩, rfl⟩, rfl⟩, rfl⟩, ?_⟩
      rw [Expr.marks, Slots.marks_eq]
      rfl

/-- An empty slot has only empty slots behind it. -/
theorem cons_none_eq_iff {α : Type} {key : α → Offset} {es : List (Option Offset)} {xs : List α} {n : Nat} :
    none :: es = (xs.map key).map some ++ List.replicate n none
      ↔ xs = [] ∧ ∃ m, n = m + 1 ∧ es = List.replicate m none := by
  constructor
  · intro h
    cases xs with
    | cons x xs => cases h
    | nil =>
      cases n with
      | zero => cases h
      | succ m => exact ⟨rfl, m, rfl, (List.cons.inj h).2⟩
  · rintro ⟨rfl, m, rfl, rfl⟩
    rfl

theorem cons_some_eq_iff {α : Type} {key : α → Offset} {e : Offset} {es : List (Option Offset)}
    {xs : List α} {n : Nat} :
    some e :: es = (xs.map key).map some ++ List.replicate n none
      ↔ ∃ x rest, xs = x :: rest ∧ key x = e ∧ es = (rest.map key).map some ++ List.replicate n none := by
  constructor
  · intro h
    cases xs with
    | nil =>
      cases n with
      | zero => cases h
      | succ n => cases h
    | cons x rest =>
      obtain ⟨hfirst, hrest⟩ := List.cons.inj h
      exact ⟨x, rest, rfl, (Option.some_inj.mp hfirst).symm, hrest⟩
  · rintro ⟨x, rest, rfl, rfl, rfl⟩
    rfl

/-- The slots below the count are filled, the others are empty. -/
theorem recognizes_checkSlots {α : Type} {step : Offset → CheckM Unit} {key : α → Offset} {P : α → Prop}
    {marks : α → List Mark} (hstep : ∀ e, Recognizes (step e) (MarksOf key P marks e)) (o : Offset)
    {count slot : Nat} {es : List (Option Offset)} (hcount : count ≤ slot + es.length) :
    Recognizes (Check.checkSlots step o count slot es) fun ms =>
      ∃ (xs : List α) (n : Nat), es = (xs.map key).map some ++ List.replicate n none ∧ xs.length = count - slot
        ∧ (∀ x ∈ xs, P x) ∧ ms = xs.flatMap marks := by
  induction es generalizing slot with
  | nil =>
    rw [List.length_nil] at hcount
    refine Recognizes.nil.congr fun ms => ⟨?_, ?_⟩
    · rintro rfl
      refine ⟨[], 0, rfl, ?_, fun _ h => (List.not_mem_nil h).elim, rfl⟩
      rw [List.length_nil]
      omega
    · rintro ⟨xs, n, hxs, -, -, rfl⟩
      obtain ⟨hmap, -⟩ := List.append_eq_nil_iff.mp hxs.symm
      rw [List.map_eq_nil_iff.mp (List.map_eq_nil_iff.mp hmap)]
      rfl
  | cons p es ih =>
    -- An empty slot must lie from the count on, a filled one below it.
    rw [List.length_cons] at hcount
    have hrest := @ih (slot + 1) (by omega)
    cases p with
    | none =>
      simp only [cons_none_eq_iff]
      refine (Recognizes.guarded (k := fun _ => Check.checkSlots step o count (slot + 1) es) _
        fun _ => hrest).congr fun ms => ⟨?_, ?_⟩
      · rintro ⟨hslot, xs, n, rfl, hlength, hall, rfl⟩
        obtain rfl : xs = [] := by
          apply List.eq_nil_of_length_eq_zero
          omega
        refine ⟨[], n + 1, ⟨rfl, n, rfl, rfl⟩, ?_, hall, rfl⟩
        rw [List.length_nil]
        omega
      · rintro ⟨xs, _, ⟨rfl, n, rfl, rfl⟩, hlength, hall, rfl⟩
        rw [List.length_nil] at hlength
        refine ⟨by omega, [], n, rfl, ?_, hall, rfl⟩
        rw [List.length_nil]
        omega
    | some e =>
      simp only [cons_some_eq_iff]
      refine (Recognizes.guarded (k := fun _ => step e >>= fun _ => Check.checkSlots step o count (slot + 1) es)
        _ fun _ => (hstep e).bind hrest).congr fun ms => ⟨?_, ?_⟩
      · rintro ⟨hslot, _, _, ⟨x, rfl, hx, rfl⟩, ⟨xs, n, rfl, hlength, hall, rfl⟩, rfl⟩
        refine ⟨x :: xs, n, ⟨x, xs, rfl, rfl, rfl⟩, ?_, List.forall_mem_cons.mpr ⟨hx, hall⟩, rfl⟩
        rw [List.length_cons]
        omega
      · rintro ⟨_, n, ⟨x, xs, rfl, rfl, rfl⟩, hlength, hall, rfl⟩
        obtain ⟨hx, hall⟩ := List.forall_mem_cons.mp hall
        rw [List.length_cons] at hlength
        exact ⟨by omega, _, _, ⟨x, rfl, hx, rfl⟩, ⟨xs, n, rfl, by omega, hall, rfl⟩, rfl⟩

end TreePack
