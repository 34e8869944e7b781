import TreePack.Proofs.Placement
import TreePack.Verify.Basic

namespace TreePack

variable {ι β : Type}

/-- A loop over elements, each of which gives its result. -/
theorem mapM_map_eq_ok {α β γ ε : Type} {f : β → Except ε γ} {g : α → β} {h : α → γ} {xs : List α}
    (hf : ∀ x ∈ xs, f (g x) = .ok (h x)) : (xs.map g).mapM f = .ok (xs.map h) := by
  induction xs with
  | nil => rfl
  | cons x xs ih =>
    have hfirst := hf x List.mem_cons_self
    have hrest := ih fun y hy => hf y (List.mem_cons_of_mem _ hy)
    rw [List.map_cons, List.mapM_cons, hfirst, hrest]
    rfl

namespace Places

structure Lists (p : Places) (os : List Offset) : Prop where
  count : p.count = os.length
  get : ∀ i o, os[i]? = some o → p.get i = .ok o

theorem collectFrom_of_lists {p : Places} (f : Offset → Except Fault β) {os : List Offset} {i : Nat}
    (hget : ∀ j o, os[j]? = some o → p.get (i + j) = .ok o) :
    p.collectFrom f os.length i = os.mapM f := by
  induction os generalizing i with
  | nil => rfl
  | cons o os ih =>
    have hfirst : p.get i = .ok o := hget 0 o rfl
    have hrest := ih (i := i + 1) fun j o' ho' => by
      have h := hget (j + 1) o' ho'
      rw [Nat.add_comm j 1, ← Nat.add_assoc] at h
      exact h
    rw [List.length_cons, collectFrom, hfirst, hrest, List.mapM_cons]
    rfl

/-- Reading the places of a row is reading the offsets listed. -/
theorem Lists.collect {p : Places} {os : List Offset} (h : p.Lists os) (f : Offset → Except Fault β) :
    p.collect f = os.mapM f := by
  rw [Places.collect, h.count]
  apply collectFrom_of_lists
  intro j o ho
  rw [Nat.zero_add]
  exact h.get j o ho

theorem forPlaces_of_get {p : Places} (step : Offset → CheckM Unit) {os : List Offset} {i : Nat}
    (hget : ∀ j o, os[j]? = some o → p.get (i + j) = .ok o) :
    Check.forPlaces p step os.length i = os.forM step := by
  induction os generalizing i with
  | nil => rfl
  | cons o os ih =>
    have hfirst : p.get i = .ok o := hget 0 o rfl
    have hrest := ih (i := i + 1) fun j o' ho' => by
      have h := hget (j + 1) o' ho'
      rw [Nat.add_comm j 1, ← Nat.add_assoc] at h
      exact h
    rw [List.length_cons, Check.forPlaces, hfirst, hrest]
    rfl

/-- Checking the places of a row is checking the offsets listed. -/
theorem Lists.forPlaces {p : Places} {os : List Offset} (h : p.Lists os) (step : Offset → CheckM Unit) :
    Check.forPlaces p step p.count 0 = os.forM step := by
  rw [h.count]
  apply forPlaces_of_get
  intro j o ho
  rw [Nat.zero_add]
  exact h.get j o ho

end Places

/-- The elements of an array that lies in a block can be counted by a word. -/
theorem InRow.length_lt {b : Block} {place : ι → Offset} {stride : Nat} {ids : List ι}
    (hrow : InRow place stride ids) (hstride : 0 < stride)
    (hinside : ∀ id ∈ ids, (place id).toNat < b.size) : ids.length < range64 := by
  cases ids with
  | nil => exact of_decide_eq_true rfl
  | cons first ids =>
    obtain ⟨last, hlast⟩ : ∃ last, (first :: ids)[ids.length]? = some last :=
      ⟨_, List.getElem?_eq_getElem (Nat.lt_succ_self ids.length)⟩
    have hplace := hrow.inRow first rfl _ _ hlast
    have hlt := hinside last (List.mem_of_getElem? hlast)
    have hmul : ids.length ≤ ids.length * stride := Nat.le_mul_of_pos_right _ hstride
    have hlimit := b.size_lt_range
    rw [List.length_cons]
    omega

/-- A pointer to the first of elements that lie side by side, with their number, gives their offsets. -/
theorem InRow.lists {place : ι → Offset} {stride : Nat} {ids : List ι} (hrow : InRow place stride ids)
    (hlength : ids.length < range64) :
    (Places.ofArray ((arrayBase ids).map place) ids.length.toUInt64 stride).Lists (ids.map place) := by
  cases ids with
  | nil => exact ⟨rfl, fun i o ho => by cases ho⟩
  | cons first ids =>
    have hcount : (first :: ids).length.toUInt64.toNat = (first :: ids).length :=
      UInt64.toNat_ofNat_of_lt' hlength
    refine ⟨?_, fun i o ho => ?_⟩
    · rw [List.length_map]
      exact hcount
    · rw [List.getElem?_map] at ho
      obtain ⟨id, hid, rfl⟩ := Option.map_eq_some_iff.mp ho
      have hplace := hrow.inRow first rfl i id hid
      have hlt := (place id).toNat_lt
      -- No offset is added past the end of the words, since the sum is an offset itself.
      change (place first).add (i * stride) = .ok (place id)
      rw [Offset.add, if_pos (by omega), ← hplace]
      apply congrArg
      apply Offset.toNat_inj.mp
      exact Offset.toNat_ofNat hlt

/-- The places of an array all of whose elements lie in the block. -/
theorem InRow.placesOf {α : Type} {b : Block} {place : ι → Offset} {key : α → ι} {stride : Nat}
    {xs : List α} (hrow : InRow place stride (xs.map key)) (hstride : 0 < stride)
    (hinside : ∀ x ∈ xs, (place (key x)).toNat + stride ≤ b.size) :
    (Places.ofArray ((arrayBase (xs.map key)).map place) xs.length.toUInt64 stride).Lists
      (xs.map fun x => place (key x)) := by
  have hlength : (xs.map key).length < range64 := by
    apply hrow.length_lt (b := b) hstride
    intro q hq
    obtain ⟨x, hx, rfl⟩ := List.mem_map.mp hq
    have hle := hinside x hx
    omega
  have hlists := hrow.lists hlength
  rw [List.length_map, List.map_map] at hlists
  exact hlists

end TreePack
