import TreePack.Verify.Basic
/-!
Extents that tile a block.

Extents tile a range if no two of them overlap and together they have each of its positions. Extents that
follow each other from the start of the range to its end do (`Follow.tiles`), and extents that tile it follow
each other once they are sorted (`Tiles.follow`), so the sweep at the end of a check decides tiling.
-/

namespace TreePack

structure Extent where
  start : Nat
  len : Nat
  deriving DecidableEq

namespace Extent

def stop (e : Extent) : Nat := e.start + e.len

def Has (e : Extent) (i : Nat) : Prop := e.start ≤ i ∧ i < e.stop

def Apart (e e' : Extent) : Prop := e.stop ≤ e'.start ∨ e'.stop ≤ e.start

theorem Apart.symm {e e' : Extent} (h : e.Apart e') : e'.Apart e := Or.symm h

def Within (e e' : Extent) : Prop := e'.start ≤ e.start ∧ e.stop ≤ e'.stop

end Extent

structure Tiles (size : Nat) (es : List Extent) : Prop where
  apart : es.Pairwise Extent.Apart
  covers : ∀ i, i < size ↔ ∃ e ∈ es, e.Has i

/-- Tiling does not depend on the order. -/
theorem Tiles.perm {size : Nat} {es es' : List Extent} (hperm : es.Perm es') (h : Tiles size es) :
    Tiles size es' := by
  refine ⟨hperm.pairwise h.apart fun hab => hab.symm, fun i => ?_⟩
  rw [h.covers i]
  simp only [hperm.mem_iff]

/-- Extents that do not overlap have different starts. -/
theorem nodup_starts {es : List Extent} (hapart : es.Pairwise Extent.Apart) (hlen : ∀ e ∈ es, 0 < e.len) :
    (es.map Extent.start).Nodup := by
  induction es with
  | nil => exact List.nodup_nil
  | cons e es ih =>
    obtain ⟨haway, hapart⟩ := List.pairwise_cons.mp hapart
    obtain ⟨hpos, hlen⟩ := List.forall_mem_cons.mp hlen
    refine List.nodup_cons.mpr ⟨?_, ih hapart hlen⟩
    intro hmem
    obtain ⟨e', he', heq⟩ := List.mem_map.mp hmem
    have hpos' := hlen e' he'
    rcases haway e' he' with h | h
    · unfold Extent.stop at h
      omega
    · unfold Extent.stop at h
      omega

def Follow : Nat → List Extent → Nat → Prop
  | pos, [], stop => pos = stop
  | pos, e :: es, stop => e.start = pos ∧ Follow e.stop es stop

/-- Extents that follow each other can be cut anywhere. -/
theorem follow_append {pos stop : Nat} {es es' : List Extent} :
    Follow pos (es ++ es') stop ↔ ∃ mid, Follow pos es mid ∧ Follow mid es' stop := by
  induction es generalizing pos with
  | nil => exact ⟨fun h => ⟨pos, rfl, h⟩, fun ⟨mid, hmid, h⟩ => hmid ▸ h⟩
  | cons e es ih =>
    rw [List.cons_append, Follow, ih]
    exact ⟨fun ⟨hstart, mid, h, h'⟩ => ⟨mid, ⟨hstart, h⟩, h'⟩, fun ⟨mid, ⟨hstart, h⟩, h'⟩ => ⟨hstart, mid, h, h'⟩⟩

theorem Follow.le {pos stop : Nat} {es : List Extent} (h : Follow pos es stop) : pos ≤ stop := by
  induction es generalizing pos with
  | nil => exact Nat.le_of_eq h
  | cons e es ih =>
    obtain ⟨hstart, hrest⟩ := h
    have hle := ih hrest
    unfold Extent.stop at hle
    omega

theorem Follow.within {pos stop : Nat} {es : List Extent} (h : Follow pos es stop) :
    ∀ e ∈ es, pos ≤ e.start ∧ e.stop ≤ stop := by
  induction es generalizing pos with
  | nil => exact fun _ he => (List.not_mem_nil he).elim
  | cons first es ih =>
    obtain ⟨hstart, hrest⟩ := h
    intro e he
    rcases List.mem_cons.mp he with rfl | he
    · exact ⟨Nat.le_of_eq hstart.symm, hrest.le⟩
    · obtain ⟨hle, hstop⟩ := ih hrest e he
      refine ⟨?_, hstop⟩
      unfold Extent.stop at hle
      omega

/-- Extents that follow each other cover every position between their ends. -/
theorem Follow.covers {pos stop : Nat} {es : List Extent} (h : Follow pos es stop) (i : Nat) :
    (pos ≤ i ∧ i < stop) ↔ ∃ e ∈ es, e.Has i := by
  induction es generalizing pos with
  | nil =>
    have heq : pos = stop := h
    simp only [List.not_mem_nil, false_and, exists_false, iff_false]
    omega
  | cons e es ih =>
    obtain ⟨hstart, hrest⟩ := h
    have hle := hrest.le
    simp only [List.mem_cons, exists_eq_or_imp, ← ih hrest]
    unfold Extent.Has
    unfold Extent.stop at *
    omega

/-- Each extent ends before a later one begins. -/
theorem Follow.increasing {pos stop : Nat} {es : List Extent} (h : Follow pos es stop) :
    es.Pairwise fun e e' => e.stop ≤ e'.start := by
  induction es generalizing pos with
  | nil => exact List.Pairwise.nil
  | cons e es ih =>
    obtain ⟨-, hrest⟩ := h
    exact List.pairwise_cons.mpr ⟨fun e' he' => (hrest.within e' he').1, ih hrest⟩

theorem Follow.apart {pos stop : Nat} {es : List Extent} (h : Follow pos es stop) :
    es.Pairwise Extent.Apart := h.increasing.imp .inl

/-- Extents that follow each other from zero on tile. -/
theorem Follow.tiles {size : Nat} {es : List Extent} (h : Follow 0 es size) : Tiles size es := by
  refine ⟨h.apart, fun i => ?_⟩
  rw [← h.covers i]
  omega

section

variable {pos stop : Nat} {e : Extent} {es : List Extent}

/-- The first of sorted extents that have just the positions of a range lies at the start of the range. -/
theorem first_of_covers (hlen : 0 < e.len) (hfirst : ∀ e' ∈ es, e.start ≤ e'.start)
    (hcovers : ∀ i, (pos ≤ i ∧ i < stop) ↔ ∃ e' ∈ e :: es, e'.Has i) : e.start = pos ∧ e.stop ≤ stop := by
  have hself : ∀ i, e.Has i → pos ≤ i ∧ i < stop := fun i hi =>
    (hcovers i).mpr ⟨e, List.mem_cons_self, hi⟩
  have hstart := hself e.start ⟨Nat.le_refl _, by unfold Extent.stop; omega⟩
  have hlast := hself (e.stop - 1) (by unfold Extent.Has Extent.stop; omega)
  refine ⟨?_, by omega⟩
  -- The first position belongs to some extent, and none starts before `e`.
  obtain ⟨e', he', hhas⟩ := (hcovers pos).mp ⟨Nat.le_refl _, by omega⟩
  rcases List.mem_cons.mp he' with rfl | he'
  · have hle := hhas.1
    omega
  · have hle := hfirst e' he'
    have hle' := hhas.1
    omega

/-- Behind the first of sorted extents that have just the positions of a range, the others have the rest. -/
theorem covers_tail (hlen : ∀ e' ∈ es, 0 < e'.len) (hfirst : ∀ e' ∈ es, e.start ≤ e'.start)
    (haway : ∀ e' ∈ es, e.Apart e') (hpos : pos ≤ e.stop)
    (hcovers : ∀ i, (pos ≤ i ∧ i < stop) ↔ ∃ e' ∈ e :: es, e'.Has i) (i : Nat) :
    (e.stop ≤ i ∧ i < stop) ↔ ∃ e' ∈ es, e'.Has i := by
  constructor
  · rintro ⟨hge, hlt⟩
    obtain ⟨e', he', hhas⟩ := (hcovers i).mp ⟨Nat.le_trans hpos hge, hlt⟩
    rcases List.mem_cons.mp he' with rfl | he'
    · exact absurd hhas.2 (Nat.not_lt.mpr hge)
    · exact ⟨e', he', hhas⟩
  · rintro ⟨e', he', hhas⟩
    refine ⟨?_, ((hcovers i).mpr ⟨e', List.mem_cons_of_mem _ he', hhas⟩).2⟩
    -- An extent that does not overlap `e` and does not start before it starts behind it.
    have hle := hfirst e' he'
    have hpositive := hlen e' he'
    have hstart := hhas.1
    rcases haway e' he' with h | h
    · omega
    · unfold Extent.stop at h
      omega

end

/-- Extents that have just the positions of a range follow each other when they are sorted. -/
theorem follow_of_sorted {pos stop : Nat} {es : List Extent} (hpos : pos ≤ stop)
    (hlen : ∀ e ∈ es, 0 < e.len) (hsorted : es.Pairwise fun e e' => e.start ≤ e'.start)
    (hapart : es.Pairwise Extent.Apart)
    (hcovers : ∀ i, (pos ≤ i ∧ i < stop) ↔ ∃ e ∈ es, e.Has i) : Follow pos es stop := by
  induction es generalizing pos with
  | nil =>
    have hnone := hcovers pos
    simp only [List.not_mem_nil, false_and, exists_false, iff_false] at hnone
    change pos = stop
    omega
  | cons e es ih =>
    obtain ⟨hfirst, hsorted⟩ := List.pairwise_cons.mp hsorted
    obtain ⟨haway, hapart⟩ := List.pairwise_cons.mp hapart
    obtain ⟨hpositive, hlen⟩ := List.forall_mem_cons.mp hlen
    obtain ⟨hstart, hstop⟩ := first_of_covers hpositive hfirst hcovers
    have hbehind : pos ≤ e.stop := by
      unfold Extent.stop
      omega
    exact ⟨hstart, ih hstop hlen hsorted hapart (covers_tail hlen hfirst haway hbehind hcovers)⟩

/-- Extents that tile follow each other once they are sorted by their start. -/
theorem Tiles.follow {size : Nat} {es : List Extent} (h : Tiles size es) (hlen : ∀ e ∈ es, 0 < e.len)
    (hsorted : es.Pairwise fun e e' => e.start ≤ e'.start) : Follow 0 es size := by
  refine follow_of_sorted (Nat.zero_le size) hlen hsorted h.apart fun i => ?_
  rw [← h.covers i]
  omega

/-- Sorting by a key leaves a list in which the keys do not decrease. -/
theorem pairwise_mergeSort_key {α : Type} (key : α → Nat) (xs : List α) :
    (xs.mergeSort fun a b => decide (key a ≤ key b)).Pairwise fun a b => key a ≤ key b := by
  have h : (xs.mergeSort fun a b => decide (key a ≤ key b)).Pairwise
      fun a b => decide (key a ≤ key b) = true := by
    apply List.pairwise_mergeSort
    · intro a b c hab hbc
      simp only [decide_eq_true_eq] at *
      omega
    · intro a b
      simp only [Bool.or_eq_true, decide_eq_true_eq]
      omega
  exact h.imp fun hab => of_decide_eq_true hab

/-- Extents that tile a range follow each other in some order. -/
theorem Tiles.exists_follow {size : Nat} {es : List Extent} (h : Tiles size es) (hlen : ∀ e ∈ es, 0 < e.len) :
    ∃ es', es'.Perm es ∧ Follow 0 es' size := by
  have hperm := List.mergeSort_perm es fun a b => decide (a.start ≤ b.start)
  exact ⟨_, hperm, (h.perm hperm.symm).follow (fun e he => hlen e (hperm.mem_iff.mp he))
    (pairwise_mergeSort_key Extent.start es)⟩

theorem Follow.length_le {pos stop unit : Nat} {es : List Extent} (h : Follow pos es stop)
    (hlen : ∀ e ∈ es, unit ≤ e.len) : pos + es.length * unit ≤ stop := by
  induction es generalizing pos with
  | nil =>
    have heq : pos = stop := h
    rw [List.length_nil, Nat.zero_mul]
    omega
  | cons e es ih =>
    obtain ⟨hstart, hrest⟩ := h
    have hfirst := hlen e List.mem_cons_self
    have hle := ih hrest fun e' he' => hlen e' (List.mem_cons_of_mem _ he')
    rw [List.length_cons, Nat.succ_mul]
    unfold Extent.stop at hle
    omega

/-- Extents of at least some length that tile a range are not too many. -/
theorem Tiles.length_le {size unit : Nat} {es : List Extent} (h : Tiles size es) (hunit : 0 < unit)
    (hlen : ∀ e ∈ es, unit ≤ e.len) : es.length * unit ≤ size := by
  have hpos : ∀ e ∈ es, 0 < e.len := fun e he => Nat.lt_of_lt_of_le hunit (hlen e he)
  obtain ⟨es', hperm, hfollow⟩ := h.exists_follow hpos
  have hle := hfollow.length_le fun e he => hlen e (hperm.mem_iff.mp he)
  rw [hperm.length_eq] at hle
  omega

def totalLen (es : List Extent) : Nat := es.foldr (fun e n => e.len + n) 0

/-- The total length does not depend on the order. -/
theorem totalLen_perm {es es' : List Extent} (h : es.Perm es') : totalLen es = totalLen es' := by
  apply h.foldr_eq'
  intro e _ e' _ n
  exact Nat.add_left_comm _ _ _

/-- Extents that follow each other end where their lengths add up to. -/
theorem Follow.stop_eq {pos stop : Nat} {es : List Extent} (h : Follow pos es stop) :
    stop = pos + totalLen es := by
  induction es generalizing pos with
  | nil => exact Eq.symm h
  | cons e es ih =>
    obtain ⟨rfl, hrest⟩ := h
    calc
      stop = e.stop + totalLen es := ih hrest
      _ = e.start + totalLen (e :: es) := Nat.add_assoc _ _ _

/-- Extents that tile a range have its length together, in whatever order they lie. -/
theorem Tiles.totalLen_eq {size : Nat} {es : List Extent} (h : Tiles size es) (hlen : ∀ e ∈ es, 0 < e.len) :
    totalLen es = size := by
  obtain ⟨es', hperm, hfollow⟩ := h.exists_follow hlen
  rw [← totalLen_perm hperm, hfollow.stop_eq, Nat.zero_add]

def Span.extent (s : Span) : Extent := ⟨s.start, s.len⟩

/-- The coverage check accepts sorted spans exactly if they follow each other up to the size. -/
theorem checkCover_eq_ok_iff {size stop : Nat} {spans : List Span} :
    Check.checkCover size stop spans = .ok () ↔ Follow stop (spans.map Span.extent) size := by
  induction spans generalizing stop with
  | nil =>
    unfold Check.checkCover
    by_cases h : stop = size
    · simp [h, Follow]
    · simp [h, Follow]
  | cons s spans ih =>
    rw [Check.checkCover, List.map_cons, Follow]
    -- An overlap, the next span, a gap.
    rcases Nat.lt_trichotomy s.start stop with h | h | h
    · rw [if_pos h]
      constructor
      · intro h'
        cases h'
      · rintro ⟨h', -⟩
        change s.start = stop at h'
        omega
    · rw [if_neg (by omega), if_neg (by omega), ih]
      exact ⟨fun h' => ⟨h, h'⟩, fun h' => h'.2⟩
    · rw [if_neg (by omega), if_pos h]
      constructor
      · intro h'
        cases h'
      · rintro ⟨h', -⟩
        change s.start = stop at h'
        omega

/-- The sweep over the sorted spans accepts just the spans that tile the block. -/
theorem checkCover_mergeSort_iff {size : Nat} {spans : List Span} (hlen : ∀ s ∈ spans, 0 < s.len) :
    Check.checkCover size 0 (spans.mergeSort fun a b => a.start ≤ b.start) = .ok ()
      ↔ Tiles size (spans.map Span.extent) := by
  have hperm := List.mergeSort_perm spans fun a b => decide (a.start ≤ b.start)
  have hextents := hperm.map Span.extent
  have hsorted := pairwise_mergeSort_key Span.start spans
  rw [checkCover_eq_ok_iff]
  constructor
  · intro h
    exact h.tiles.perm hextents
  · intro h
    refine (h.perm hextents.symm).follow ?_ (List.pairwise_map.mpr hsorted)
    intro e he
    obtain ⟨s, hs, rfl⟩ := List.mem_map.mp he
    exact hlen s (hperm.mem_iff.mp hs)

end TreePack
