import TreePack.Proofs.Accounts
import TreePack.Proofs.CheckedTrees
/-!
Checking a block that may hold anything.

The functions of `Guarded` check a block as `Check` does, with each operation that could go wrong guarded: a
number that is added, multiplied or rounded must fit into a word, a record is read from the bytes that were
claimed for it and from no others, and a level is used up for each scope and each expression on the way down. A
guard that fails stops the check with a fault.

`Agrees` relates a guarded step to the step of the check: from the same findings both go on with the same
findings or stop with the same defect. What the guards need is an invariant of the findings, `Level`: all that
was claimed is aligned and lies in the block, so that each claim leaves one aligned offset less, and below as
many levels as there are aligned offsets left nothing can be claimed any more.
-/

namespace TreePack

def Block.alignedOffsets (b : Block) : List Nat := (List.range b.size).filter fun o => o % alignment = 0

namespace Guarded

def word (n : Nat) : Except Fault Nat := if n < range64 then .ok n else .error .overflow

def roundUp (n : Nat) : Except Fault Nat := do return (← word (n + 7)) / 8 * 8

def claim (b : Block) (o : Offset) (len : Nat) (what : Region) : CheckM (List UInt8) := do
  if o.toNat % alignment ≠ 0 then Check.fail (.misaligned what o)
  match b.get? o.toNat len with
  | none => Check.fail (.leavesBlock what o (some len))
  | some bytes => do
    if (← get).claimed.contains o.toNat then Check.fail (.reachedTwice what o)
    let padded ← Check.liftFault (roundUp len)
    modify fun s =>
      { s with claimed := s.claimed.insert o.toNat, spans := s.spans.push ⟨o.toNat, padded, what⟩ }
    return bytes

def claimText (b : Block) (o : Offset) (what : Region) : CheckM Unit :=
  match b.textAt o.toNat with
  | .outside => Check.fail (.leavesBlock what o none)
  | .unterminated => Check.fail (.unterminated what o)
  | .text t => do
    let len ← Check.liftFault (word (t.bytes.length + 1))
    discard (claim b o len what)

def claimTextPtr (b : Block) (what : Region) : Option Offset → CheckM Unit
  | none => pure ()
  | some o => claimText b o what

def claimArray (b : Block) (base : Option Offset) (count : UInt64) (stride : Nat) (what : Region) :
    CheckM (Option Offset) :=
  match base with
  | none => if count = 0 then pure none else Check.fail (.pointerDisagrees what none count.toNat)
  | some o =>
    if count = 0 then Check.fail (.pointerDisagrees what (some o) 0)
    else
      match word (count.toNat * stride) with
      | .error _ => Check.fail (.absurdLength what o count.toNat)
      | .ok len => do
        discard (claim b o len what)
        return some o

def forElements (base : Offset) (stride : Nat) (step : Offset → CheckM Unit) : Nat → Nat → CheckM Unit
  | 0, _ => pure ()
  | count + 1, i => do
    let distance ← Check.liftFault (word (i * stride))
    let position ← Check.liftFault (word (base.toNat + distance))
    step (Offset.ofNat position)
    forElements base stride step count (i + 1)

def forArray (base : Option Offset) (count : UInt64) (stride : Nat) (step : Offset → CheckM Unit) :
    CheckM Unit :=
  match base with
  | none => pure ()
  | some o => forElements o stride step count.toNat 0

def element {α : Type} [Stored α] (b : Block) (o : Offset) (what : Region) : CheckM α :=
  match b.get? o.toNat (Stored.size α) with
  | some bytes => Check.liftFault (Stored.decodePrefix bytes)
  | none => Check.fail (.leavesBlock what o none)

def checkLocal (b : Block) (o : Offset) : CheckM Unit := do
  let r : DeclRecord Offset ← element b o .localDecl
  if r.isFunction ∨ r.args.isSome ∨ r.body.isSome then Check.fail (.functionData o)
  match r.name with
  | some name => claimText b name .localName
  | none => Check.fail (.unnamed o)

def countExpr : CheckM Unit := do
  let count ← Check.liftFault (word ((← get).exprCount + 1))
  modify fun s => { s with exprCount := count }

def checkExpr (b : Block) : Nat → Offset → CheckM Unit
  | 0, _ => throw (.fault .endless)
  | depth + 1, o => do
    let bytes ← claim b o (Stored.size (ExprRecord Offset)) .expression
    let r : ExprRecord Offset ← Check.liftFault (Stored.decodePrefix bytes)
    countExpr
    if (ExprKind.ofRaw? r.kind).isNone then Check.fail (.unknownKind .expression o r.kind)
    claimTextPtr b .symbolName r.symbol
    claimTextPtr b .methodName r.method
    r.children.toList.reduceOption.forM (checkExpr b depth)

def checkStmt (b : Block) (depth : Nat) (nested : Offset → CheckM Unit) (o : Offset) : CheckM Unit := do
  let r : StmtRecord Offset ← element b o .statement
  checkKind o r.kind
  if maxExprs < r.exprCount.toNat then Check.fail (.tooManyExprs o r.exprCount.toNat)
  Check.checkSlots (checkExpr b depth) o r.exprCount.toNat 0 r.exprs.toList
  checkLoop o r.loop
  checkNested nested r.scope
  claimTextPtr b .label r.label
  discard (claimArray b r.switch r.switchCount (Stored.size UInt64) .switchLabels)

def checkScope (b : Block) : Nat → Offset → CheckM Unit
  | 0, _ => throw (.fault .endless)
  | depth + 1, o => do
    let bytes ← claim b o (Stored.size (ScopeRecord Offset)) .scope
    let r : ScopeRecord Offset ← Check.liftFault (Stored.decodePrefix bytes)
    let locals ← claimArray b r.locals r.localCount (Stored.size (DeclRecord Offset)) .locals
    forArray locals r.localCount (Stored.size (DeclRecord Offset)) (checkLocal b)
    let stmts ← claimArray b r.stmts r.stmtCount (Stored.size (StmtRecord Offset)) .statements
    forArray stmts r.stmtCount (Stored.size (StmtRecord Offset)) fun s =>
      modify fun f => { f with stmts := f.stmts.insert s }
    forArray stmts r.stmtCount (Stored.size (StmtRecord Offset)) (checkStmt b depth (checkScope b depth))

def checkCover (size : Nat) : Nat → List Span → Except CheckStop Unit
  | stop, [] => if stop = size then .ok () else .error (.defect (.endsElsewhere stop size))
  | stop, s :: spans =>
    if s.start < stop then .error (.defect (.overlap s.what s.start stop))
    else if stop < s.start then .error (.defect (.unreached stop s.start))
    else
      match word (s.start + s.len) with
      | .error f => .error (.fault f)
      | .ok next => checkCover size next spans

def checkAll (depth : Nat) (p : Packed) : CheckM Unit := do
  checkScope p.block depth p.scope
  p.args.forM fun o => discard (claim p.block o (Stored.size TypeDesc) .argType)

def finish (p : Packed) (f : Findings) : Except CheckStop Report := do
  f.loopRefs.toList.forM (Check.checkLoopRef f)
  checkCover p.block.size 0 (f.spans.toList.mergeSort fun a b => a.start ≤ b.start)
  return ⟨f.spans.size, f.stmts.size, f.exprCount⟩

def verify (depth : Nat) (p : Packed) : Except CheckStop Report :=
  match checkAll depth p Findings.empty with
  | .ok _ f => finish p f
  | .error stop _ => .error stop

end Guarded

/-! ### Levels -/

/-- The findings of a check from which fewer than `n` aligned offsets are left to claim. -/
structure Level (b : Block) (n : Nat) (f : Findings) : Prop where
  claimed : ∀ o ∈ f.claimed, o ∈ b.alignedOffsets
  spans : ∀ s ∈ f.spans, s.start + s.len < range64
  exprs : f.exprCount ≤ f.claimed.size
  left : b.alignedOffsets.length < f.claimed.size + n

theorem Block.mem_alignedOffsets {b : Block} {o : Nat} :
    o ∈ b.alignedOffsets ↔ o < b.size ∧ o % alignment = 0 := by
  rw [alignedOffsets, List.mem_filter, List.mem_range, decide_eq_true_eq]

/-- The levels of a check are one more than the aligned offsets. -/
theorem Block.checkDepth_eq (b : Block) : Check.checkDepth b = b.alignedOffsets.length + 1 := by
  have hcount : ∀ n, ((List.range n).filter fun o => o % alignment = 0).length = (n + 7) / 8 := by
    intro n
    induction n with
    | zero => rfl
    | succ n ih =>
      rw [List.range_succ, List.filter_append, List.length_append, ih]
      by_cases h : n % alignment = 0 <;> simp [h] <;> unfold alignment at h <;> omega
  rw [Check.checkDepth, alignedOffsets, hcount]

namespace Level

variable {b : Block} {n : Nat} {f : Findings}

theorem size_le (h : Level b n f) : f.claimed.size ≤ b.alignedOffsets.length := by
  -- What was claimed is a set, so its size is that of a part of the aligned offsets.
  have hdistinct : f.claimed.toList.Nodup := f.claimed.distinct_toList.imp fun h => beq_eq_false_iff_ne.mp h
  rw [← Std.HashSet.length_toList]
  exact (List.subperm_of_subset hdistinct fun o ho => h.claimed o (Std.HashSet.mem_toList.mp ho)).length_le

theorem pos (h : Level b n f) : 0 < n := by
  have hsize := h.size_le
  have hleft := h.left
  omega

theorem up (h : Level b n f) : Level b (n + 1) f := ⟨h.claimed, h.spans, h.exprs, Nat.lt_succ_of_lt h.left⟩

/-- The claims are counted without overflow, as no two share an offset. -/
theorem size_lt_range (h : Level b n f) : f.claimed.size < range64 := by
  have hle : b.alignedOffsets.length ≤ b.size := by
    have hlen := List.length_filter_le (fun o => decide (o % alignment = 0)) (List.range b.size)
    rwa [List.length_range] at hlen
  have hsize := h.size_le
  have hlt := b.size_lt_range
  omega

end Level

/-! ### Steps that agree -/

/-- From findings with `P` both steps stop with the same defect, or both go on with the same findings; `R` says
what then holds of the two results and the findings. -/
def Agrees {α β : Type} (P : Findings → Prop) (R : β → α → Findings → Prop) (c' : CheckM β) (c : CheckM α) :
    Prop :=
  ∀ f, P f → (∃ x a f', c' f = .ok x f' ∧ c f = .ok a f' ∧ R x a f')
    ∨ ∃ d f', c' f = .error (.defect d) f' ∧ c f = .error (.defect d) f'

def Keeps (b : Block) (n : Nat) (c' : CheckM Unit) (c : CheckM Unit) : Prop :=
  Agrees (Level b n) (fun _ _ => Level b n) c' c

namespace Agrees

variable {α β γ δ : Type} {P P' : Findings → Prop} {R R' : β → α → Findings → Prop}
  {S : δ → γ → Findings → Prop} {c' : CheckM β} {c : CheckM α}

theorem mono (h : Agrees P R c' c) (hpre : ∀ f, P' f → P f) (hpost : ∀ x a f, R x a f → R' x a f) :
    Agrees P' R' c' c := by
  intro f hf
  obtain ⟨x, a, f', hc', hc, hR⟩ | hstop := h f (hpre f hf)
  · exact .inl ⟨x, a, f', hc', hc, hpost x a f' hR⟩
  · exact .inr hstop

theorem pure {x : β} {a : α} (h : ∀ f, P f → R x a f) : Agrees P R (Pure.pure x) (Pure.pure a) :=
  fun f hf => .inl ⟨x, a, f, rfl, rfl, h f hf⟩

theorem fail (d : Defect) : Agrees P R (Check.fail d) (Check.fail d) := fun f _ => .inr ⟨d, f, rfl, rfl⟩

theorem modify {g : Findings → Findings} {R : Unit → Unit → Findings → Prop} (h : ∀ f, P f → R () () (g f)) :
    Agrees P R (modify g) (modify g) :=
  fun f hf => .inl ⟨(), (), g f, rfl, rfl, h f hf⟩

/-- Two steps in a row agree if the first leaves what the second needs. -/
theorem bind {d' : β → CheckM δ} {d : α → CheckM γ} (hc : Agrees P R c' c)
    (hd : ∀ x a, Agrees (R x a) S (d' x) (d a)) : Agrees P S (c' >>= d') (c >>= d) := by
  intro f hf
  obtain ⟨x, a, f', hc', hc, hR⟩ | ⟨e, f', hc', hc⟩ := hc f hf
  · rw [bind_of_ok hc', bind_of_ok hc]
    exact hd x a f' hR
  · exact .inr ⟨e, f', bind_of_error hc' d', bind_of_error hc d⟩

/-- A step that goes on with a value of its own. -/
theorem andReturn {y : δ} {T : δ → α → Findings → Prop} (hc : Agrees P R c' c)
    (h : ∀ x a f, R x a f → T y a f) : Agrees P T (c' >>= fun _ => Pure.pure y) c := by
  intro f hf
  obtain ⟨x, a, f', hc', hc, hR⟩ | ⟨d, f', hc', hc⟩ := hc f hf
  · exact .inl ⟨y, a, f', bind_of_ok hc' _, hc, h x a f' hR⟩
  · exact .inr ⟨d, f', bind_of_error hc' _, hc⟩

/-- What holds of the findings without looking at them can be used for the step. -/
theorem of_fact {p : Prop} (h : p → Agrees P R c' c) : Agrees (fun f => P f ∧ p) R c' c :=
  fun f hf => h hf.2 f hf.1

/-- A condition under which both stop. -/
theorem guarded {q : Prop} [Decidable q] (d : Defect) {k' : Unit → CheckM β} {k : Unit → CheckM α}
    (h : ¬q → Agrees P R (k' ()) (k ())) :
    Agrees P R (if q then Check.fail d >>= k' else k' ()) (if q then Check.fail d >>= k else k ()) := by
  by_cases hq : q
  · rw [if_pos hq, if_pos hq]
    exact fun f _ => .inr ⟨d, f, rfl, rfl⟩
  · rw [if_neg hq, if_neg hq]
    exact h hq

/-- An offset at which both stop if it was claimed before. -/
theorem unclaimed {o : Nat} (d : Defect) {k' : Unit → CheckM β} {k : Unit → CheckM α}
    (h : Agrees (fun f => P f ∧ f.claimed.contains o = false) R (k' ()) (k ())) :
    Agrees P R (get >>= fun s => if s.claimed.contains o then Check.fail d >>= k' else k' ())
      (get >>= fun s => if s.claimed.contains o then Check.fail d >>= k else k ()) := by
  intro f hf
  have hrun {γ : Type} (k : Unit → CheckM γ) :
      (get >>= fun s : Findings => if s.claimed.contains o then Check.fail d >>= k else k ()) f
        = (if f.claimed.contains o then Check.fail d >>= k else k ()) f := rfl
  rw [hrun, hrun]
  cases hfresh : f.claimed.contains o with
  | true => exact .inr ⟨d, f, rfl, rfl⟩
  | false => exact h f ⟨hf, hfresh⟩

/-- A guard that holds. -/
theorem lift {v : δ} {x : Except Fault δ} (hx : x = .ok v) {k : δ → CheckM β} (h : Agrees P R (k v) c) :
    Agrees P R (Check.liftFault x >>= k) c := by
  rw [hx]
  exact h

/-- A guard that holds where the check reads the same. -/
theorem lift_both {v : δ} {x x' : Except Fault δ} (hx' : x' = .ok v) (hx : x = .ok v) {k' : δ → CheckM β}
    {k : δ → CheckM α} (h : Agrees P R (k' v) (k v)) :
    Agrees P R (Check.liftFault x' >>= k') (Check.liftFault x >>= k) := by
  rw [hx', hx]
  exact h

/-- Nothing is lost by not looking at a result. -/
theorem discard (h : Agrees P R c' c) : Agrees P (fun _ a f => ∃ x, R x a f) (Functor.discard c') c := by
  intro f hf
  obtain ⟨x, a, f', hc', hc, hR⟩ | ⟨d, f', hc', hc⟩ := h f hf
  · refine .inl ⟨(), a, f', ?_, hc, x, hR⟩
    change EStateM.map _ c' f = _
    rw [EStateM.map, hc']
  · refine .inr ⟨d, f', ?_, hc⟩
    change EStateM.map _ c' f = _
    rw [EStateM.map, hc']

end Agrees

namespace Guarded

variable {b : Block} {n : Nat}

theorem word_of_lt {m : Nat} (h : m < range64) : word m = .ok m := if_pos h

/-- Rounding up does not overflow where seven more still fit. -/
theorem roundUp_eq {m : Nat} (h : m + 7 < range64) : roundUp m = .ok (alignUp m) := by
  rw [roundUp, word_of_lt h]
  rfl

/-- Nothing can be claimed at level zero. -/
theorem agrees_zero {α β : Type} {R : β → α → Findings → Prop} {c' : CheckM β} {c : CheckM α} :
    Agrees (Level b 0) R c' c := fun _ hf => absurd hf.pos (Nat.lt_irrefl 0)

/-- One more claim in an unclaimed aligned place uses up one of the offsets that are left, and its
span ends before the numbers do. -/
theorem level_claim {f : Findings} {o : Nat} {len : Nat} {what : Region} (hf : Level b (n + 1) f)
    (haligned : o % alignment = 0) (hlen : 0 < len) (hinside : o + len ≤ b.size)
    (hfresh : f.claimed.contains o = false) :
    Level b n { f with claimed := f.claimed.insert o, spans := f.spans.push ⟨o, alignUp len, what⟩ }
      ∧ f.exprCount < (f.claimed.insert o).size := by
  -- The offset is claimed for the first time, so the claims get one more.
  have hsize : (f.claimed.insert o).size = f.claimed.size + 1 := by
    have hnot : ¬o ∈ f.claimed := by
      rw [← Std.HashSet.contains_iff_mem, hfresh]
      exact Bool.false_ne_true
    rw [Std.HashSet.size_insert, if_neg hnot]
  have hleft := hf.left
  have hexprs := hf.exprs
  refine ⟨⟨fun x hx => ?_, fun s hs => ?_, ?_, ?_⟩, ?_⟩
  · obtain rfl | hx := (Std.HashSet.mem_insert.mp hx).imp_left LawfulBEq.eq_of_beq
    · exact Block.mem_alignedOffsets.mpr ⟨by omega, haligned⟩
    · exact hf.claimed x hx
  · obtain hs | rfl := Array.mem_push.mp hs
    · exact hf.spans s hs
    · have hround := alignUp_lt len
      have hlimit : b.size < sizeLimit := b.size_lt
      unfold sizeLimit alignment range64 at *
      change o + alignUp len < _
      omega
  · change f.exprCount ≤ (f.claimed.insert o).size
    omega
  · change _ < (f.claimed.insert o).size + n
    omega
  · omega

/-- A claim takes an aligned offset, so the level below is left. -/
theorem agrees_claim (o : Offset) {len : Nat} (hlen : 0 < len) (what : Region) :
    Agrees (Level b (n + 1))
      (fun bytes _ f => (Level b n f ∧ f.exprCount < f.claimed.size) ∧ b.get? o.toNat len = some bytes)
      (claim b o len what) (Check.claim b o len what) := by
  unfold claim Check.claim
  refine Agrees.guarded _ fun haligned => ?_
  by_cases hinside : o.toNat + len ≤ b.size
  · have hget : b.get? o.toNat len = some (b.bytes.extract o.toNat (o.toNat + len)).toList :=
      (b.get?_eq o.toNat len).trans (if_pos hinside)
    -- A length inside the block is far below the range of a word.
    have hround : roundUp len = .ok (alignUp len) := by
      apply roundUp_eq
      have hlimit : b.size < sizeLimit := b.size_lt
      unfold sizeLimit range64 at *
      omega
    rw [hget, if_neg (Nat.not_lt.mpr hinside)]
    refine Agrees.unclaimed _ (Agrees.lift hround ?_)
    rintro f ⟨hf, hfresh⟩
    exact .inl ⟨_, (), _, rfl, rfl, level_claim hf (Decidable.not_not.mp haligned) hlen hinside hfresh, rfl⟩
  · have hget : b.get? o.toNat len = none := (b.get?_eq o.toNat len).trans (if_neg hinside)
    rw [hget, if_pos (Nat.not_le.mp hinside)]
    exact fun f _ => .inr ⟨_, f, rfl, rfl⟩

/-- A claim, whatever it takes. -/
theorem agrees_claim_level (o : Offset) {len : Nat} (hlen : 0 < len) (what : Region) :
    Agrees (Level b n) (fun _ _ f => Level b n f ∧ o.toNat + len ≤ b.size) (claim b o len what)
      (Check.claim b o len what) := by
  cases n with
  | zero => exact agrees_zero
  | succ n =>
    refine (agrees_claim o hlen what).mono (fun _ hf => hf) ?_
    rintro bytes _ f ⟨⟨hf, -⟩, hget⟩
    exact ⟨hf.up, Block.le_of_get? hget⟩

theorem keeps_claim (o : Offset) {len : Nat} (hlen : 0 < len) (what : Region) :
    Keeps b n (discard (claim b o len what)) (Check.claim b o len what) :=
  (agrees_claim_level o hlen what).discard.mono (fun _ hf => hf) fun _ _ _ ⟨_, hf, _⟩ => hf

/-- A text that is terminated inside the block has a length that fits. -/
theorem keeps_claimText (o : Offset) (what : Region) :
    Keeps b n (claimText b o what) (Check.claimText b o what) := by
  unfold claimText Check.claimText
  cases htext : b.textAt o.toNat with
  | outside => exact Agrees.fail _
  | unterminated => exact Agrees.fail _
  | text t =>
    have hinside := Block.le_of_get? (Block.textAt_eq_text_iff.mp htext)
    have hlimit := b.size_lt_range
    rw [Text.length_stored] at hinside
    refine Agrees.lift (word_of_lt (by omega)) ?_
    rw [← Text.length_stored]
    exact keeps_claim o (by rw [Text.length_stored]; omega) what

theorem keeps_claimTextPtr (what : Region) (p : Option Offset) :
    Keeps b n (claimTextPtr b what p) (Check.claimTextPtr b what p) := by
  cases p with
  | none => exact Agrees.pure fun _ hf => hf
  | some o => exact keeps_claimText o what

/-- An array that was claimed lies in the block. -/
theorem agrees_claimArray (base : Option Offset) (count : UInt64) {stride : Nat} (hstride : 0 < stride)
    (what : Region) :
    Agrees (Level b n)
      (fun given _ f => Level b n f
        ∧ given = base ∧ ∀ o ∈ base, o.toNat + count.toNat * stride ≤ b.size)
      (claimArray b base count stride what) (Check.claimArray b base count stride what) := by
  unfold claimArray Check.claimArray
  cases base with
  | none =>
    by_cases hcount : count = 0
    · rw [if_pos hcount, if_pos hcount]
      exact Agrees.pure fun f hf => ⟨hf, rfl, fun o ho => nomatch ho⟩
    · rw [if_neg hcount, if_neg hcount]
      exact Agrees.fail _
  | some o =>
    by_cases hcount : count = 0
    · simp only [if_pos hcount]
      exact Agrees.fail _
    · have hpos : 0 < count.toNat := Nat.pos_of_ne_zero fun h => hcount (UInt64.toNat_inj.mp h)
      simp only [if_neg hcount]
      -- The product is checked before it is used; one that is no word is outside any block, too.
      by_cases hfits : range64 ≤ count.toNat * stride
      · have hword : word (count.toNat * stride) = .error .overflow := if_neg (Nat.not_lt.mpr hfits)
        rw [if_pos hfits, hword]
        exact Agrees.fail _
      · rw [if_neg hfits, word_of_lt (Nat.not_le.mp hfits)]
        refine (agrees_claim_level o (Nat.mul_pos hpos hstride) what).discard.andReturn ?_
        rintro _ _ f ⟨_, hf, hinside⟩
        exact ⟨hf, rfl, fun o' ho' => by rw [← Option.some.inj ho']; exact hinside⟩

/-- The elements of an array that lies in the block stand at words. -/
theorem keeps_forElements {o : Offset} {total stride : Nat} (hinside : o.toNat + total * stride ≤ b.size)
    {step' step : Offset → CheckM Unit} (hstep : ∀ e, Keeps b n (step' e) (step e)) (count i : Nat)
    (hi : i + count ≤ total) :
    Keeps b n (forElements o stride step' count i) (Check.forPlaces ⟨o, total, stride⟩ step count i) := by
  induction count generalizing i with
  | zero => exact Agrees.pure fun _ hf => hf
  | succ count ih =>
    have hle : i * stride ≤ total * stride := Nat.mul_le_mul_right stride (by omega)
    have hlimit := b.size_lt_range
    have hsum : o.toNat + i * stride < range64 := by omega
    have hget : Places.get ⟨o, total, stride⟩ i = .ok (Offset.ofNat (o.toNat + i * stride)) := if_pos hsum
    rw [forElements, Check.forPlaces, hget]
    refine Agrees.lift (word_of_lt (by omega)) (Agrees.lift (word_of_lt hsum) ?_)
    exact (hstep _).bind fun _ _ => ih (i + 1) (by omega)

/-- The elements of an array that fits the block are reached without overflow. -/
theorem keeps_forArray (base : Option Offset) (count : UInt64) {stride : Nat}
    (hinside : ∀ o ∈ base, o.toNat + count.toNat * stride ≤ b.size) {step' step : Offset → CheckM Unit}
    (hstep : ∀ e, Keeps b n (step' e) (step e)) :
    Keeps b n (forArray base count stride step')
      (Check.forPlaces (Places.ofArray base count stride) step (Places.ofArray base count stride).count 0) := by
  cases base with
  | none => exact Agrees.pure fun _ hf => hf
  | some o => exact keeps_forElements (hinside o rfl) hstep _ 0 (Nat.le_of_eq (Nat.zero_add _))

/-- All bytes that a record is decoded from are there. -/
theorem decodePrefix_of_get? {α : Type} [Stored α] {pos : Nat} {bytes : List UInt8}
    (h : b.get? pos (Stored.size α) = some bytes) :
    Stored.decodePrefix bytes = .ok (Stored.decode bytes : α) := by
  have hinside := Block.le_of_get? h
  rw [Block.get?_eq, if_pos hinside] at h
  apply if_pos
  rw [← Option.some.inj h, Block.length_extract hinside]
  omega

theorem record_of_get? {α : Type} [Stored α] {o : Offset} {bytes : List UInt8}
    (h : b.get? o.toNat (Stored.size α) = some bytes) : Stored.readAt b o = .ok (Stored.decode bytes : α) :=
  Stored.readAt_eq_ok_iff.mpr ⟨bytes, h, rfl⟩

/-- Reading a record decodes a slice of exactly its size, so decoding does not fail. -/
theorem agrees_element {α : Type} [Stored α] (o : Offset) (what : Region) :
    Agrees (Level b n) (fun r' r f => Level b n f ∧ r' = r) (element (α := α) b o what)
      (Check.element b o what) := by
  unfold element Check.element
  cases hget : b.get? o.toNat (Stored.size α) with
  | none => exact Agrees.fail _
  | some bytes =>
    simp only [decodePrefix_of_get? hget]
    exact Agrees.pure fun f hf => ⟨hf, rfl⟩

theorem keeps_checkLocal (o : Offset) : Keeps b n (checkLocal b o) (Check.checkLocal b o) := by
  refine (agrees_element o _).bind fun r' r => Agrees.of_fact ?_
  rintro rfl
  refine Agrees.guarded _ fun _ => ?_
  cases r'.name with
  | none => exact Agrees.fail _
  | some name => exact keeps_claimText name _

/-- One step for each element of a list. -/
theorem keeps_each {α : Type} {step' step : α → CheckM Unit} (hstep : ∀ x, Keeps b n (step' x) (step x))
    (xs : List α) : Keeps b n (xs.forM step') (xs.forM step) := by
  induction xs with
  | nil => exact Agrees.pure fun _ hf => hf
  | cons x xs ih => exact (hstep x).bind fun _ _ => ih

/-- The slots of an expression are checked alike. -/
theorem keeps_checkSlots {step' step : Offset → CheckM Unit} (hstep : ∀ e, Keeps b n (step' e) (step e))
    (o : Offset) (count slot : Nat) (slots : List (Option Offset)) :
    Keeps b n (Check.checkSlots step' o count slot slots) (Check.checkSlots step o count slot slots) := by
  induction slots generalizing slot with
  | nil => exact Agrees.pure fun _ hf => hf
  | cons e slots ih =>
    cases e with
    | none =>
      rw [Check.checkSlots, Check.checkSlots]
      exact Agrees.guarded _ fun _ => ih (slot + 1)
    | some e =>
      rw [Check.checkSlots, Check.checkSlots]
      exact Agrees.guarded _ fun _ => (hstep e).bind fun _ _ => ih (slot + 1)

/-- There are no more expressions than claims. -/
theorem agrees_countExpr :
    Agrees (fun f => Level b n f ∧ f.exprCount < f.claimed.size) (fun _ _ => Level b n) countExpr
      (modify fun s => { s with exprCount := s.exprCount + 1 }) := by
  rintro f ⟨hf, hcount⟩
  have hsize := hf.size_lt_range
  have hrun : countExpr f = (Check.liftFault (word (f.exprCount + 1)) >>= fun count =>
      modify fun s => { s with exprCount := count }) f := rfl
  rw [hrun, word_of_lt (by omega)]
  exact .inl ⟨(), (), _, rfl, rfl, hf.claimed, hf.spans, hcount, hf.left⟩

/-- Each expression on the way down has taken an aligned offset, so the levels suffice. -/
theorem keeps_checkExpr {depth depth' : Nat} (hdepth : n ≤ depth) (hdepth' : n ≤ depth') (o : Offset) :
    Keeps b n (checkExpr b depth' o) (Check.checkExpr b depth o) := by
  -- The induction is on the level and not on the tree, which may have cycles.
  induction n generalizing depth depth' o with
  | zero => exact agrees_zero
  | succ n ih =>
    obtain ⟨depth, rfl⟩ := Nat.exists_eq_succ_of_ne_zero (Nat.ne_zero_of_lt hdepth)
    obtain ⟨depth', rfl⟩ := Nat.exists_eq_succ_of_ne_zero (Nat.ne_zero_of_lt hdepth')
    rw [checkExpr, Check.checkExpr]
    refine Agrees.mono ((agrees_claim o (by decide) _).bind fun bytes _ => Agrees.of_fact fun hget => ?_)
      (fun _ hf => hf) fun _ _ _ hf => Level.up hf
    refine Agrees.lift_both (decodePrefix_of_get? hget) (record_of_get? hget) ?_
    refine agrees_countExpr.bind fun _ _ => Agrees.guarded _ fun _ => ?_
    refine (keeps_claimTextPtr _ _).bind fun _ _ => (keeps_claimTextPtr _ _).bind fun _ _ => ?_
    exact keeps_each (ih (Nat.le_of_succ_le_succ hdepth) (Nat.le_of_succ_le_succ hdepth')) _

/-- A step that notes something other than a claim or an expression. -/
theorem keeps_note {g : Findings → Findings} (hspans : ∀ f, (g f).spans = f.spans)
    (hclaimed : ∀ f, (g f).claimed = f.claimed) (hexprs : ∀ f, (g f).exprCount = f.exprCount) :
    Keeps b n (modify g) (modify g) := by
  refine Agrees.modify fun f hf => ⟨?_, ?_, ?_, ?_⟩
  · rw [hclaimed]
    exact hf.claimed
  · rw [hspans]
    exact hf.spans
  · rw [hexprs, hclaimed]
    exact hf.exprs
  · rw [hclaimed]
    exact hf.left

theorem keeps_noteStmt (o : Offset) :
    Keeps b n (modify fun f => { f with stmts := f.stmts.insert o })
      (modify fun f => { f with stmts := f.stmts.insert o }) :=
  keeps_note (fun _ => rfl) (fun _ => rfl) fun _ => rfl

theorem keeps_checkKind (o : Offset) (raw : UInt8) : Keeps b n (checkKind o raw) (checkKind o raw) := by
  unfold checkKind
  cases StmtKind.ofRaw? raw with
  | none => exact Agrees.fail _
  | some kind =>
    dsimp only
    split
    · exact keeps_note (fun _ => rfl) (fun _ => rfl) fun _ => rfl
    · exact Agrees.pure fun _ hf => hf

theorem keeps_checkLoop (o : Offset) (p : Option Offset) : Keeps b n (checkLoop o p) (checkLoop o p) := by
  cases p with
  | none => exact Agrees.pure fun _ hf => hf
  | some target => exact keeps_note (fun _ => rfl) (fun _ => rfl) fun _ => rfl

theorem keeps_checkNested {nested' nested : Offset → CheckM Unit}
    (hnested : ∀ o, Keeps b n (nested' o) (nested o)) (p : Option Offset) :
    Keeps b n (checkNested nested' p) (checkNested nested p) := by
  cases p with
  | none => exact Agrees.pure fun _ hf => hf
  | some o => exact hnested o

/-- The guarded check of a statement agrees with the unguarded one, if that of the nested scope
does. -/
theorem keeps_checkStmt {depth depth' : Nat} (hdepth : n ≤ depth) (hdepth' : n ≤ depth')
    {nested' nested : Offset → CheckM Unit} (hnested : ∀ o, Keeps b n (nested' o) (nested o)) (o : Offset) :
    Keeps b n (checkStmt b depth' nested' o) (Check.checkStmt b depth nested o) := by
  rw [checkStmt_eq]
  refine (agrees_element o _).bind fun r' r => Agrees.of_fact ?_
  rintro rfl
  refine (keeps_checkKind o r'.kind).bind fun _ _ => Agrees.guarded _ fun _ => ?_
  refine (keeps_checkSlots (keeps_checkExpr hdepth hdepth') _ _ _ _).bind fun _ _ => ?_
  refine (keeps_checkLoop o r'.loop).bind fun _ _ => (keeps_checkNested hnested r'.scope).bind fun _ _ => ?_
  refine (keeps_claimTextPtr _ _).bind fun _ _ => ?_
  exact (agrees_claimArray _ _ (by decide) _).discard.mono (fun _ hf => hf) fun _ _ _ ⟨_, hf, _⟩ => hf

/-- Each scope on the way down has taken an aligned offset, so the levels suffice. -/
theorem keeps_checkScope {depth depth' : Nat} (hdepth : n ≤ depth) (hdepth' : n ≤ depth') (o : Offset) :
    Keeps b n (checkScope b depth' o) (Check.checkScope b depth o) := by
  -- As for expressions. Locals and statements are not claimed one by one, but their arrays are.
  induction n generalizing depth depth' o with
  | zero => exact agrees_zero
  | succ n ih =>
    obtain ⟨depth, rfl⟩ := Nat.exists_eq_succ_of_ne_zero (Nat.ne_zero_of_lt hdepth)
    obtain ⟨depth', rfl⟩ := Nat.exists_eq_succ_of_ne_zero (Nat.ne_zero_of_lt hdepth')
    have hlow := Nat.le_of_succ_le_succ hdepth
    have hlow' := Nat.le_of_succ_le_succ hdepth'
    rw [checkScope, Check.checkScope]
    refine Agrees.mono ((agrees_claim o (by decide) _).bind fun bytes _ => Agrees.of_fact fun hget => ?_)
      (fun _ hf => hf) fun _ _ _ hf => Level.up hf
    refine Agrees.lift_both (decodePrefix_of_get? hget) (record_of_get? hget) ?_
    refine ((agrees_claimArray _ _ (by decide) _).mono (fun _ hf => hf.1) fun _ _ _ hf => hf).bind
      fun locals _ => Agrees.of_fact ?_
    rintro ⟨rfl, hlocals⟩
    refine (keeps_forArray _ _ hlocals keeps_checkLocal).bind fun _ _ => ?_
    refine (agrees_claimArray _ _ (by decide) _).bind fun stmts _ => Agrees.of_fact ?_
    rintro ⟨rfl, hstmts⟩
    refine (keeps_forArray _ _ hstmts keeps_noteStmt).bind fun _ _ => ?_
    exact keeps_forArray _ _ hstmts (keeps_checkStmt hlow hlow' (ih hlow hlow'))

/-- The guarded walk agrees with the unguarded one from the start on. -/
theorem keeps_checkAll {p : Packed} {depth : Nat} (hdepth : n ≤ depth) (hmodel : n ≤ Check.checkDepth p.block) :
    Keeps p.block n (checkAll depth p) (Check.checkAll p) :=
  (keeps_checkScope hmodel hdepth p.scope).bind fun _ _ =>
    keeps_each (fun o => keeps_claim o (by decide) _) p.args

/-! ### The rest of the check -/

/-- The sums of the coverage check do not overflow, as each span ends before the numbers do. -/
theorem checkCover_eq {size stop : Nat} {spans : List Span} (hspans : ∀ s ∈ spans, s.start + s.len < range64) :
    checkCover size stop spans = Check.checkCover size stop spans := by
  induction spans generalizing stop with
  | nil => rfl
  | cons s spans ih =>
    obtain ⟨hs, hspans⟩ := List.forall_mem_cons.mp hspans
    rw [checkCover, Check.checkCover, word_of_lt hs]
    simp only [ih hspans]

theorem defect_of_checkCover {size stop : Nat} {spans : List Span} {e : CheckStop}
    (h : Check.checkCover size stop spans = .error e) : ∃ d, e = .defect d := by
  induction spans generalizing stop with
  | nil =>
    rw [Check.checkCover] at h
    split at h <;> cases h
    exact ⟨_, rfl⟩
  | cons s spans ih =>
    rw [Check.checkCover] at h
    split at h
    · cases h
      exact ⟨_, rfl⟩
    · split at h
      · cases h
        exact ⟨_, rfl⟩
      · exact ih h

theorem defect_of_checkLoopRef {f : Findings} {ref : Offset × Offset} {e : CheckStop}
    (h : Check.checkLoopRef f ref = .error e) : ∃ d, e = .defect d := by
  rw [Check.checkLoopRef] at h
  split at h
  · split at h <;> cases h
    exact ⟨_, rfl⟩
  · cases h
    exact ⟨_, rfl⟩

theorem defect_of_checkLoopRefs {f : Findings} {refs : List (Offset × Offset)} {e : CheckStop}
    (h : refs.forM (Check.checkLoopRef f) = .error e) : ∃ d, e = .defect d := by
  induction refs with
  | nil => cases h
  | cons ref refs ih =>
    rcases error_of_bind_eq_error h with hfirst | ⟨_, -, hrest⟩
    · exact defect_of_checkLoopRef hfirst
    · exact ih hrest

/-- What follows the walk is the same with and without guards. -/
theorem finish_eq {p : Packed} {f : Findings} (hspans : ∀ s ∈ f.spans, s.start + s.len < range64) :
    finish p f = Check.finish p f := by
  have hsorted : ∀ s ∈ f.spans.toList.mergeSort fun a b => a.start ≤ b.start, s.start + s.len < range64 := by
    intro s hs
    exact hspans s (Array.mem_toList_iff.mp (List.mem_mergeSort.mp hs))
  rw [finish, Check.finish, checkCover_eq hsorted]

/-- What follows the walk stops at a defect only, never at a fault. -/
theorem defect_of_finish {p : Packed} {f : Findings} {e : CheckStop} (h : Check.finish p f = .error e) :
    ∃ d, e = .defect d := by
  rcases error_of_bind_eq_error h with hrefs | ⟨_, -, h⟩
  · exact defect_of_checkLoopRefs hrefs
  rcases error_of_bind_eq_error h with hcover | ⟨_, -, h⟩
  · exact defect_of_checkCover hcover
  · cases h

end Guarded

/-- A check of any block ends with a report or a defect. It does not go deeper than one level more than the
block has aligned offsets, and no operation goes wrong on the way. -/
theorem Packed.verify_guarded (p : Packed) :
    ((∃ report, p.verify = .ok report) ∨ ∃ d, p.verify = .error (.defect d))
      ∧ ∀ depth, p.block.alignedOffsets.length + 1 ≤ depth → Guarded.verify depth p = p.verify := by
  -- At first nothing is claimed, and one level more than there are aligned offsets is left.
  have hempty : Level p.block (p.block.alignedOffsets.length + 1) Findings.empty := by
    refine ⟨fun o ho => ?_, fun s hs => ?_, Nat.zero_le _, ?_⟩
    · exact absurd ho Std.HashSet.not_mem_empty
    · exact absurd hs (Array.not_mem_empty s)
    · exact Nat.lt_add_left _ (Nat.lt_succ_self _)
  have hagree (depth : Nat) (hdepth : p.block.alignedOffsets.length + 1 ≤ depth) :=
    Guarded.keeps_checkAll (p := p) hdepth (Nat.le_of_eq p.block.checkDepth_eq.symm) Findings.empty hempty
  constructor
  · obtain ⟨_, _, f, -, hcheck, -⟩ | ⟨d, f, -, hcheck⟩ := hagree _ (Nat.le_refl _)
    · rw [verify, hcheck]
      cases hfinish : Check.finish p f with
      | ok report => exact .inl ⟨report, hfinish⟩
      | error e =>
        obtain ⟨d, rfl⟩ := Guarded.defect_of_finish hfinish
        exact .inr ⟨d, hfinish⟩
    · rw [verify, hcheck]
      exact .inr ⟨d, rfl⟩
  · intro depth hdepth
    obtain ⟨_, _, f, hguarded, hcheck, hlevel⟩ | ⟨d, f, hguarded, hcheck⟩ := hagree depth hdepth
    · rw [verify, Guarded.verify, hguarded, hcheck]
      exact Guarded.finish_eq hlevel.spans
    · rw [verify, Guarded.verify, hguarded, hcheck]

end TreePack
