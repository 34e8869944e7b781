import TreePack.Proofs.Steps
import TreePack.Verify.Basic
/-!
Checks as recognizers.

A check that succeeds has noted down some marks in order: the spans that it claimed, the statements and the
loops that it met, the references that it has to look at in the end. `Recognizes c L` says that `c` succeeds
just with the lists of marks in `L`, and that claiming the same start twice is all that can still stop it.
Steps of a check are put together as lists of marks are: one behind the other.
-/

namespace TreePack

inductive Mark where
  | span (s : Span)
  | stmt (o : Offset)
  /-- A statement that a loop reference may name. -/
  | loop (o : Offset)
  | ref (source target : Offset)
  | expr

namespace Findings

def mark (f : Findings) : Mark → Findings
  | .span s => { f with claimed := f.claimed.insert s.start, spans := f.spans.push s }
  | .stmt o => { f with stmts := f.stmts.insert o }
  | .loop o => { f with loops := f.loops.insert o }
  | .ref source target => { f with loopRefs := f.loopRefs.push (source, target) }
  | .expr => { f with exprCount := f.exprCount + 1 }

def markAll (f : Findings) : List Mark → Findings
  | [] => f
  | m :: ms => (f.mark m).markAll ms

def Free (f : Findings) : Mark → Prop
  | .span s => f.claimed.contains s.start = false
  | _ => True

def Admits (f : Findings) : List Mark → Prop
  | [] => True
  | m :: ms => f.Free m ∧ (f.mark m).Admits ms

/-- Marks are left one after the other. -/
theorem markAll_append (f : Findings) (ms ns : List Mark) :
    f.markAll (ms ++ ns) = (f.markAll ms).markAll ns := by
  induction ms generalizing f with
  | nil => rfl
  | cons m ms ih => exact ih (f.mark m)

/-- Later marks are admitted by the findings that the earlier ones leave. -/
theorem admits_append (f : Findings) (ms ns : List Mark) :
    f.Admits (ms ++ ns) ↔ f.Admits ms ∧ (f.markAll ms).Admits ns := by
  induction ms generalizing f with
  | nil => simp [Admits, markAll]
  | cons m ms ih => rw [List.cons_append, Admits, Admits, ih, and_assoc, markAll]

end Findings

/-- The check succeeds just with the marks of the language, as far as they can be noted. -/
def Recognizes (c : CheckM Unit) (L : List Mark → Prop) : Prop :=
  ∀ f f', c f = .ok () f' ↔ ∃ ms, L ms ∧ f.Admits ms ∧ f' = f.markAll ms

def Then (L M : List Mark → Prop) (ms : List Mark) : Prop := ∃ as bs, L as ∧ M bs ∧ ms = as ++ bs

def Each {α : Type} (L : α → List Mark → Prop) : List α → List Mark → Prop
  | [] => (· = [])
  | x :: xs => Then (L x) (Each L xs)

namespace Recognizes

variable {c d : CheckM Unit} {L M : List Mark → Prop}

theorem congr (h : Recognizes c L) (hiff : ∀ ms, L ms ↔ M ms) : Recognizes c M := by
  intro f f'
  rw [h f f']
  simp only [hiff]

theorem nil : Recognizes (pure ()) (· = []) := by
  intro f f'
  constructor
  · intro h
    cases h
    exact ⟨[], rfl, trivial, rfl⟩
  · rintro ⟨ms, rfl, -, rfl⟩
    rfl

/-- A check that always stops recognises nothing. -/
theorem throw (stop : CheckStop) : Recognizes (throw stop) fun _ => False := by
  intro f f'
  constructor
  · intro h
    cases h
  · rintro ⟨ms, hno, -⟩
    exact hno.elim

/-- Noting something that is always free is recognised by that mark. -/
theorem mark {m : Mark} (hfree : ∀ f : Findings, f.Free m) :
    Recognizes (modify fun f => f.mark m) (· = [m]) := by
  intro f f'
  constructor
  · intro h
    cases h
    exact ⟨[m], rfl, ⟨hfree f, trivial⟩, rfl⟩
  · rintro ⟨ms, rfl, -, rfl⟩
    rfl

/-- Two steps, of which the second may depend on something that the marks of the first one show. -/
theorem bind_dep {α : Type} {L : α → List Mark → Prop} {M : α → List Mark → Prop}
    (hc : Recognizes c fun ms => ∃ a, L a ms) (hd : ∀ a as, L a as → Recognizes d (M a)) :
    Recognizes (c >>= fun _ => d) fun ms => ∃ a, Then (L a) (M a) ms := by
  intro f f'
  rw [bind_eq_ok_iff]
  constructor
  · rintro ⟨_, mid, hfirst, hsecond⟩
    obtain ⟨as, ⟨a, has⟩, hadmits, rfl⟩ := (hc f mid).mp hfirst
    obtain ⟨bs, hbs, hadmits', rfl⟩ := (hd a as has _ _).mp hsecond
    exact ⟨as ++ bs, ⟨a, as, bs, has, hbs, rfl⟩, (f.admits_append as bs).mpr ⟨hadmits, hadmits'⟩,
      (f.markAll_append as bs).symm⟩
  · rintro ⟨_, ⟨a, as, bs, has, hbs, rfl⟩, hadmits, rfl⟩
    obtain ⟨hfirst, hsecond⟩ := (f.admits_append as bs).mp hadmits
    refine ⟨(), f.markAll as, (hc f _).mpr ⟨as, ⟨a, has⟩, hfirst, rfl⟩, ?_⟩
    exact (hd a as has _ _).mpr ⟨bs, hbs, hsecond, f.markAll_append as bs⟩

/-- Two checks in a row recognise what the first does followed by what the second does. -/
theorem bind (hc : Recognizes c L) (hd : Recognizes d M) :
    Recognizes (c >>= fun _ => d) (Then L M) := by
  have h := bind_dep (α := Unit) (hc.congr fun ms => ⟨fun h => ⟨(), h⟩, fun ⟨_, h⟩ => h⟩)
    fun _ _ _ => hd
  exact h.congr fun ms => ⟨fun ⟨_, h⟩ => h, fun h => ⟨(), h⟩⟩

theorem fail (defect : Defect) : Recognizes (Check.fail defect) fun _ => False := throw (.defect defect)

/-- A condition that stops the check if it holds. -/
theorem guarded {P : Prop} [Decidable P] (defect : Defect) {k : Unit → CheckM Unit}
    (hk : ¬P → Recognizes (k ()) M) :
    Recognizes (if P then Check.fail defect >>= k else k ()) fun ms => ¬P ∧ M ms := by
  by_cases hP : P
  · rw [if_pos hP]
    intro f f'
    constructor
    · intro h
      cases h
    · rintro ⟨ms, hno, -⟩
      exact absurd hP hno.1
  · rw [if_neg hP]
    exact (hk hP).congr fun ms => ⟨fun h => ⟨hP, h⟩, fun h => h.2⟩

/-- A span is noted unless one begins at the same place. -/
theorem span (s : Span) (defect : Defect) :
    Recognizes (do
      if (← get).claimed.contains s.start then Check.fail defect
      modify fun f => f.mark (.span s)) (· = [.span s]) := by
  intro f f'
  have hrun : (do
      if (← get).claimed.contains s.start then Check.fail defect
      modify fun f => f.mark (.span s) : CheckM Unit) f
      = (if f.claimed.contains s.start then Check.fail defect >>= fun _ => modify fun f => f.mark (.span s)
        else modify fun f => f.mark (.span s)) f := rfl
  rw [hrun]
  -- The one step of a check that looks at what has been noted before.
  by_cases hstart : f.claimed.contains s.start = true
  · rw [if_pos hstart]
    constructor
    · intro h
      cases h
    · rintro ⟨ms, rfl, ⟨hfree, -⟩, rfl⟩
      rw [Findings.Free, hstart] at hfree
      cases hfree
  · rw [if_neg hstart]
    constructor
    · intro h
      cases h
      exact ⟨_, rfl, ⟨Bool.eq_false_iff.mpr hstart, trivial⟩, rfl⟩
    · rintro ⟨ms, rfl, -, rfl⟩
      rfl

/-- Something that is read, and a step that depends on it. -/
theorem read {α : Type} {x : Except Fault α} {k : α → CheckM Unit} {N : α → List Mark → Prop}
    (hk : ∀ a, x = .ok a → Recognizes (k a) (N a)) :
    Recognizes (Check.liftFault x >>= k) fun ms => ∃ a, x = .ok a ∧ N a ms := by
  cases x with
  | error e =>
    refine (throw (.fault e)).congr fun ms => ⟨fun h => h.elim, ?_⟩
    rintro ⟨a, ha, -⟩
    cases ha
  | ok a =>
    refine (hk a rfl).congr fun ms => ⟨fun h => ⟨a, rfl, h⟩, ?_⟩
    rintro ⟨a', ha', h⟩
    cases ha'
    exact h

/-- One step for each element of a list. -/
theorem each {α : Type} {step : α → CheckM Unit} {N : α → List Mark → Prop} {xs : List α}
    (hstep : ∀ x ∈ xs, Recognizes (step x) (N x)) : Recognizes (xs.forM step) (Each N xs) := by
  induction xs with
  | nil => exact nil
  | cons x xs ih =>
    exact (hstep x List.mem_cons_self).bind (ih fun y hy => hstep y (List.mem_cons_of_mem _ hy))

end Recognizes

def MarksOf {α β : Type} (key : β → α) (P : β → Prop) (marks : β → List Mark) (a : α) (ms : List Mark) :
    Prop := ∃ x, key x = a ∧ P x ∧ ms = marks x

section

variable {α β : Type} {key : β → α} {P : β → Prop} {marks : β → List Mark}

/-- The marks of objects in a row are those of each of them. -/
theorem each_marksOf_iff (as : List α) (ms : List Mark) :
    Each (MarksOf key P marks) as ms
      ↔ MarksOf (List.map key) (fun xs => ∀ x ∈ xs, P x) (List.flatMap marks) as ms := by
  -- On the objects; the marks are split where those of the first end.
  induction as generalizing ms with
  | nil =>
    constructor
    · rintro rfl
      exact ⟨[], rfl, fun _ h => (List.not_mem_nil h).elim, rfl⟩
    · rintro ⟨xs, hxs, -, rfl⟩
      rw [List.map_eq_nil_iff.mp hxs]
      rfl
  | cons a as ih =>
    constructor
    · rintro ⟨_, qs, ⟨x, rfl, hx, rfl⟩, hrest, rfl⟩
      obtain ⟨xs, rfl, hxs, rfl⟩ := (ih qs).mp hrest
      exact ⟨x :: xs, rfl, List.forall_mem_cons.mpr ⟨hx, hxs⟩, rfl⟩
    · rintro ⟨xs, hxs, hP, rfl⟩
      cases xs with
      | nil => cases hxs
      | cons x xs =>
        obtain ⟨rfl, rfl⟩ := List.cons.inj hxs
        obtain ⟨hx, hxs⟩ := List.forall_mem_cons.mp hP
        exact ⟨marks x, xs.flatMap marks, ⟨x, rfl, hx, rfl⟩, (ih _).mpr ⟨xs, rfl, hxs, rfl⟩, rfl⟩

namespace Recognizes

variable {step : α → CheckM Unit}

/-- A step for each of some keys finds a node for each of them. -/
theorem nodes (hstep : ∀ a, Recognizes (step a) (MarksOf key P marks a)) (as : List α) :
    Recognizes (as.forM step)
      (MarksOf (List.map key) (fun xs => ∀ x ∈ xs, P x) (List.flatMap marks) as) :=
  (each fun a _ => hstep a).congr fun ms => each_marksOf_iff as ms

/-- A step for a key that may be absent finds a node if there is a key. -/
theorem option (hstep : ∀ a, Recognizes (step a) (MarksOf key P marks a)) (p : Option α) :
    Recognizes (p.elim (pure ()) step)
      (MarksOf (Option.map key) (fun x => ∀ y ∈ x, P y) (fun x => x.elim [] marks) p) := by
  cases p with
  | none =>
    refine nil.congr fun ms => ⟨?_, ?_⟩
    · rintro rfl
      refine ⟨none, rfl, fun y hy => ?_, rfl⟩
      cases hy
    · rintro ⟨x, hx, -, rfl⟩
      rw [Option.map_eq_none_iff.mp hx]
      rfl
  | some a =>
    refine (hstep a).congr fun ms => ⟨?_, ?_⟩
    · rintro ⟨x, rfl, hx, rfl⟩
      refine ⟨some x, rfl, fun y hy => ?_, rfl⟩
      cases hy
      exact hx
    · rintro ⟨x, hx, hP, rfl⟩
      obtain ⟨y, rfl, rfl⟩ := Option.map_eq_some_iff.mp hx
      exact ⟨y, rfl, hP y rfl, rfl⟩

end Recognizes

end

end TreePack
