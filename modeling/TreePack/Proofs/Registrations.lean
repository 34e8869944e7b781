import Mathlib.Data.Finset.Card
import Mathlib.Data.List.DropRight
import TreePack.Proofs.Planning

namespace TreePack

variable {ι : Type}

structure Registration (ι : Type) where
  node : ι
  offset : Offset
  kind : NodeKind

structure Attempt (ι : Type) extends Registration ι where
  accepted : Bool

inductive LedgerCall (ι : Type) where
  | register (r : Registration ι)
  | resolve (node : ι)
  | entry (node : ι)
  | clear

namespace LedgerCall

def isClear : LedgerCall ι → Bool
  | clear => true
  | register _ | resolve _ | entry _ => false

def registration? : LedgerCall ι → Option (Registration ι)
  | register r => some r
  | resolve _ | entry _ | clear => none

end LedgerCall

def registrationsSinceClear (calls : List (LedgerCall ι)) : List (Registration ι) :=
  (calls.rtakeWhile fun c => !c.isClear).filterMap LedgerCall.registration?

variable [DecidableEq ι]

def firstOf (node : ι) (log : List (Attempt ι)) : Option (Attempt ι) := log.find? fun a => a.node = node

def acceptedRepeats (log : List (Attempt ι)) : Nat :=
  log.zipIdx.countP fun x => x.1.accepted && (log.take x.2).any fun earlier => earlier.node = x.1.node

variable [Hashable ι]

namespace Ledger

def enter (r : Registration ι) : EStateM (CompactError ι) (Ledger ι) Unit := register r.node r.offset r.kind

structure Use (ι : Type) [DecidableEq ι] [Hashable ι] where
  ledger : Ledger ι
  log : List (Attempt ι)

namespace Use

def call (u : Use ι) : LedgerCall ι → Use ι
  | .register r =>
    match enter r u.ledger with
    | .ok _ l => ⟨l, u.log ++ [⟨r, true⟩]⟩
    | .error _ l => ⟨l, u.log ++ [⟨r, false⟩]⟩
  | .resolve _ | .entry _ => u
  | .clear => ⟨.empty, []⟩

def after (calls : List (LedgerCall ι)) : Use ι := calls.foldl call ⟨.empty, []⟩

end Use

/-- The ledger knows of each node what the first attempt to enter it said, and nothing else. -/
structure FirstStands (u : Use ι) : Prop where
  entry : ∀ node, u.ledger.entry? node = (firstOf node u.log).map fun first => ⟨first.offset, first.kind⟩
  resolve : ∀ node, u.ledger.resolve node = match firstOf node u.log with
    | some first => .ok first.offset
    | none => .error (.ledgerMiss node)
  /-- A node that is new gets an entry, and no other node does. -/
  entered : ∀ r, firstOf r.node u.log = none → ∃ l, enter r u.ledger = .ok () l
    ∧ ∀ node, l.entry? node = if r.node = node then some ⟨r.offset, r.kind⟩ else u.ledger.entry? node
  /-- A repeat is counted, and the entry stays, whatever kind the repeat names. -/
  repeated : ∀ r first, firstOf r.node u.log = some first → first.offset = r.offset →
    ∃ l, enter r u.ledger = .ok () l ∧ l.duplicates = u.ledger.duplicates + 1 ∧ l.size = u.ledger.size
      ∧ ∀ node, l.entry? node = u.ledger.entry? node
  /-- Just a registration that differs from the first one in its offset is refused, and changes nothing. -/
  refused : ∀ r e l, enter r u.ledger = .error e l
    ↔ ∃ first, firstOf r.node u.log = some first ∧ first.offset ≠ r.offset
      ∧ e = .conflictingRegistration r.node first.offset r.offset ∧ l = u.ledger
  size : u.ledger.size = (u.log.map fun a => a.node).toFinset.card
  duplicates : u.ledger.duplicates = acceptedRepeats u.log
  accepted : u.log.countP (fun a => a.accepted) = u.ledger.size + u.ledger.duplicates

/-! ### One registration -/

section

variable {l : Ledger ι} {r : Registration ι}

/-- The first registration of a node enters it. -/
theorem enter_new (h : l.entry? r.node = none) :
    enter r l = .ok () { l with entries := l.entries.insert r.node ⟨r.offset, r.kind⟩ } := by
  rw [enter, register, h]

/-- A repeat at the same offset is counted and changes nothing else, even if it names another
kind. -/
theorem enter_repeat {first : LedgerEntry} (h : l.entry? r.node = some first)
    (hoffset : first.offset = r.offset) : enter r l = .ok () { l with duplicates := l.duplicates + 1 } := by
  simp only [enter, register, h, if_pos hoffset]

/-- A registration at another offset is refused, and the ledger stays as it was. -/
theorem enter_conflict {first : LedgerEntry} (h : l.entry? r.node = some first)
    (hoffset : first.offset ≠ r.offset) :
    enter r l = .error (.conflictingRegistration r.node first.offset r.offset) l := by
  simp only [enter, register, h, if_neg hoffset]

theorem size_insert_new (h : l.entry? r.node = none) (entry : LedgerEntry) :
    Ledger.size ⟨l.entries.insert r.node entry, l.duplicates⟩ = l.size + 1 := by
  have hnot : r.node ∉ l.entries := by
    rw [Std.HashMap.mem_iff_isSome_getElem?]
    change ¬(l.entry? r.node).isSome
    rw [h]
    exact Bool.false_ne_true
  rw [Ledger.size, Std.HashMap.size_insert, if_neg hnot]
  rfl

end

/-! ### Attempts -/

section

omit [Hashable ι]

theorem firstOf_concat (node : ι) (log : List (Attempt ι)) (a : Attempt ι) :
    firstOf node (log ++ [a]) = (firstOf node log).or (if a.node = node then some a else none) := by
  rw [firstOf, firstOf, List.find?_append, List.find?_singleton]
  simp only [decide_eq_true_eq]

/-- A node has no first attempt if it was never tried. -/
theorem firstOf_eq_none_iff {node : ι} {log : List (Attempt ι)} :
    firstOf node log = none ↔ node ∉ log.map fun a => a.node := by
  rw [firstOf, List.find?_eq_none, List.mem_map]
  simp only [decide_eq_true_eq, not_exists, not_and]

/-- One more attempt is a repeat if it was accepted and the node was known. -/
theorem acceptedRepeats_concat (log : List (Attempt ι)) (a : Attempt ι) :
    acceptedRepeats (log ++ [a])
      = acceptedRepeats log + if a.accepted ∧ (firstOf a.node log).isSome then 1 else 0 := by
  -- What came before an earlier attempt is not changed by a later one.
  have hearlier : log.zipIdx.countP (fun x => x.1.accepted
        && ((log ++ [a]).take x.2).any fun earlier => earlier.node = x.1.node) = acceptedRepeats log := by
    apply List.countP_congr
    rintro ⟨b, i⟩ hb
    have hi : i < log.length := (List.getElem?_eq_some_iff.mp (List.mem_zipIdx_iff_getElem?.mp hb)).1
    simp only [List.take_append_of_le_length (Nat.le_of_lt hi)]
  have hlast : (log.any fun earlier => earlier.node = a.node) = (firstOf a.node log).isSome := by
    rw [Bool.eq_iff_iff, List.any_eq_true, firstOf, List.find?_isSome]
  rw [acceptedRepeats, List.zipIdx_append, List.countP_append, hearlier]
  simp only [List.zipIdx_singleton, List.countP_singleton, Nat.zero_add, List.take_left, hlast,
    Bool.and_eq_true]

/-- One more attempt adds a node if it is the first for it. -/
theorem card_nodes_concat (log : List (Attempt ι)) (a : Attempt ι) :
    ((log ++ [a]).map fun a => a.node).toFinset.card
      = (log.map fun a => a.node).toFinset.card + if (firstOf a.node log).isSome then 0 else 1 := by
  have hset : ((log ++ [a]).map fun a => a.node).toFinset
      = insert a.node (log.map fun a => a.node).toFinset := by
    ext node
    simp
  rw [hset]
  by_cases hmem : a.node ∈ log.map fun a => a.node
  · have hsome : (firstOf a.node log).isSome := by
      rw [Option.isSome_iff_ne_none]
      exact fun hnone => firstOf_eq_none_iff.mp hnone hmem
    rw [if_pos hsome, Finset.card_insert_of_mem (List.mem_toFinset.mpr hmem), Nat.add_zero]
  · have hnone : ¬(firstOf a.node log).isSome := by
      rw [firstOf_eq_none_iff.mpr hmem]
      exact Bool.false_ne_true
    rw [if_neg hnone, Finset.card_insert_of_notMem (fun h => hmem (List.mem_toFinset.mp h))]

end

/-! ### What every call keeps -/

structure Recalls (u : Use ι) : Prop where
  entry : ∀ node, u.ledger.entry? node = (firstOf node u.log).map fun first => ⟨first.offset, first.kind⟩
  size : u.ledger.size = (u.log.map fun a => a.node).toFinset.card
  duplicates : u.ledger.duplicates = acceptedRepeats u.log
  accepted : u.log.countP (fun a => a.accepted) = u.ledger.size + u.ledger.duplicates

theorem recalls_empty : Recalls (⟨.empty, []⟩ : Use ι) := by
  refine ⟨fun node => ?_, ?_, rfl, ?_⟩
  · exact Std.HashMap.getElem?_empty
  · exact Std.HashMap.size_empty
  · have hsize : (empty : Ledger ι).size = 0 := Std.HashMap.size_empty
    rw [hsize]
    rfl

namespace Recalls

variable {u : Use ι}

theorem entry_of_first (h : Recalls u) {node : ι} {first : Attempt ι}
    (hfirst : firstOf node u.log = some first) : u.ledger.entry? node = some ⟨first.offset, first.kind⟩ := by
  rw [h.entry, hfirst]
  rfl

theorem entry_of_none (h : Recalls u) {node : ι} (hnone : firstOf node u.log = none) :
    u.ledger.entry? node = none := by
  rw [h.entry, hnone]
  rfl

variable {l : Ledger ι} {log : List (Attempt ι)} {r : Registration ι}

/-- The first attempt for a node adds its entry. -/
theorem first_attempt (h : Recalls ⟨l, log⟩) (hfirst : firstOf r.node log = none) :
    Recalls ⟨{ l with entries := l.entries.insert r.node ⟨r.offset, r.kind⟩ }, log ++ [⟨r, true⟩]⟩ := by
  have hsize := size_insert_new (h.entry_of_none hfirst) ⟨r.offset, r.kind⟩
  constructor
  case entry =>
    intro node
    rw [entry?_insert, firstOf_concat]
    by_cases heq : r.node = node
    · subst heq
      rw [if_pos rfl, if_pos rfl, hfirst]
      rfl
    · rw [if_neg heq, if_neg heq, Option.or_none]
      exact h.entry node
  case size =>
    rw [card_nodes_concat, hfirst]
    exact hsize.trans (congrArg (· + 1) h.size)
  case duplicates =>
    rw [acceptedRepeats_concat, hfirst]
    exact h.duplicates
  case accepted =>
    have haccepted : log.countP (fun a => a.accepted) = l.size + l.duplicates := h.accepted
    rw [List.countP_append, haccepted, hsize]
    exact Nat.add_right_comm l.size l.duplicates 1

/-- A later attempt for a node leaves the entries as they are. It is counted if it is accepted. -/
theorem later_attempt (h : Recalls ⟨l, log⟩) {first : Attempt ι} (hfirst : firstOf r.node log = some first)
    (accepted : Bool) :
    Recalls ⟨{ l with duplicates := l.duplicates + accepted.toNat }, log ++ [⟨r, accepted⟩]⟩ := by
  constructor
  case entry =>
    intro node
    rw [firstOf_concat]
    by_cases heq : r.node = node
    · rw [← heq, hfirst]
      exact h.entry_of_first hfirst
    · rw [if_neg heq, Option.or_none]
      exact h.entry node
  case size =>
    rw [card_nodes_concat, hfirst]
    exact h.size
  case duplicates =>
    rw [acceptedRepeats_concat, hfirst]
    cases accepted with
    | false => exact h.duplicates
    | true => exact congrArg (· + 1) h.duplicates
  case accepted =>
    rw [List.countP_append]
    cases accepted with
    | false => exact h.accepted
    | true => exact congrArg (· + 1) h.accepted

/-- A registration is kept in mind, whether it is accepted or refused. -/
theorem register (h : Recalls u) (r : Registration ι) : Recalls (u.call (.register r)) := by
  obtain ⟨l, log⟩ := u
  cases hfirst : firstOf r.node log with
  | none =>
    simp only [Use.call, enter_new (h.entry_of_none hfirst)]
    exact h.first_attempt hfirst
  | some first =>
    have hentry := h.entry_of_first hfirst
    by_cases hoffset : first.offset = r.offset
    · simp only [Use.call, enter_repeat hentry hoffset]
      exact h.later_attempt hfirst true
    · simp only [Use.call, enter_conflict hentry hoffset]
      exact h.later_attempt hfirst false

/-- Each call keeps the ledger in step with its log. Clearing forgets both. -/
theorem call (h : Recalls u) (c : LedgerCall ι) : Recalls (u.call c) := by
  cases c with
  | register r => exact h.register r
  | resolve node => exact h
  | entry node => exact h
  | clear => exact recalls_empty

/-- All that a user of the ledger can ask follows from the log. -/
theorem firstStands (h : Recalls u) : FirstStands u where
  entry := h.entry
  resolve node := by
    rw [Ledger.resolve, h.entry]
    cases firstOf node u.log <;> rfl
  entered r hnone := by
    refine ⟨_, enter_new (h.entry_of_none hnone), fun node => ?_⟩
    rw [entry?_insert]
  repeated r first hfirst hoffset :=
    ⟨_, enter_repeat (h.entry_of_first hfirst) hoffset, rfl, rfl, fun _ => rfl⟩
  refused r e l := by
    -- What happens depends on the first attempt: none, one at this offset, or one at another.
    cases hfirst : firstOf r.node u.log with
    | none =>
      rw [enter_new (h.entry_of_none hfirst)]
      simp
    | some first =>
      have hentry := h.entry_of_first hfirst
      by_cases hoffset : first.offset = r.offset
      · rw [enter_repeat hentry hoffset]
        simp [hoffset]
      · rw [enter_conflict hentry hoffset]
        constructor
        · intro hrun
          cases hrun
          exact ⟨first, rfl, hoffset, rfl, rfl⟩
        · rintro ⟨_, hsame, -, rfl, rfl⟩
          cases hsame
          rfl
  size := h.size
  duplicates := h.duplicates
  accepted := h.accepted

end Recalls

/-- After any sequence of calls the ledger and its log agree. -/
theorem recalls_after (calls : List (LedgerCall ι)) : Recalls (Use.after calls) := by
  induction calls using List.reverseRecOn with
  | nil => exact recalls_empty
  | append_singleton calls c ih =>
    rw [Use.after, List.foldl_concat]
    exact ih.call c

/-- The log has the registrations since the last clearing. -/
theorem log_after (calls : List (LedgerCall ι)) :
    (Use.after calls).log.map Attempt.toRegistration = registrationsSinceClear calls := by
  -- On the calls from the back, where the last one either adds to the log or clears it.
  induction calls using List.reverseRecOn with
  | nil => rfl
  | append_singleton calls c ih =>
    rw [Use.after, List.foldl_concat, registrationsSinceClear, List.rtakeWhile_concat]
    change (Use.call (Use.after calls) c).log.map Attempt.toRegistration = _
    cases c with
    | register r =>
      have hlog : ∃ b, (Use.call (Use.after calls) (.register r)).log = (Use.after calls).log ++ [⟨r, b⟩] := by
        simp only [Use.call]
        cases enter r (Use.after calls).ledger with
        | ok _ l => exact ⟨true, rfl⟩
        | error e l => exact ⟨false, rfl⟩
      obtain ⟨b, hlog⟩ := hlog
      change _ = List.filterMap LedgerCall.registration? (_ ++ [LedgerCall.register r])
      rw [hlog, List.map_append, ih, List.filterMap_append]
      rfl
    | resolve node | entry node =>
      refine ih.trans (Eq.trans ?_ List.filterMap_append.symm)
      exact (List.append_nil _).symm
    | clear => rfl

/-- After any calls, the ledger knows of each node the first registration since the last clearing. -/
theorem after_firstStands (calls : List (LedgerCall ι)) :
    (Use.after calls).log.map Attempt.toRegistration = registrationsSinceClear calls
      ∧ FirstStands (Use.after calls) :=
  ⟨log_after calls, (recalls_after calls).firstStands⟩

end Ledger

end TreePack
