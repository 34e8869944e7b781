import TreePack.Compact.Plan
import TreePack.Proofs.Pointers
import TreePack.Proofs.Steps

namespace TreePack

variable {ι : Type} [DecidableEq ι] [Hashable ι]

namespace Ledger

def HasRow (l : Ledger ι) : Nat → List (Leaf ι (Cell ι)) → Prop
  | _, [] => True
  | pos, c :: cs => l.resolve c.id = .ok (.ofNat pos) ∧ l.HasRow (pos + c.val.size) cs

def HasPieces (l : Ledger ι) : Nat → List (Piece ι) → Prop
  | _, [] => True
  | pos, p :: ps => l.HasRow pos p.cells ∧ l.HasPieces (pos + alignUp p.size) ps

def Le (l l' : Ledger ι) : Prop := ∀ node entry, l.entry? node = some entry → l'.entry? node = some entry

theorem Le.refl (l : Ledger ι) : l.Le l := fun _ _ h => h

/-- A ledger that only grew, and grew again, only grew. -/
theorem Le.trans {l l' l'' : Ledger ι} (h : l.Le l') (h' : l'.Le l'') : l.Le l'' :=
  fun node entry hentry => h' node entry (h node entry hentry)

/-- What was resolved stays resolved to the same offset. -/
theorem Le.resolve {l l' : Ledger ι} (h : l.Le l') {node : ι} {o : Offset}
    (ho : l.resolve node = .ok o) : l'.resolve node = .ok o := by
  obtain ⟨entry, hentry, heq⟩ := (resolve_eq_ok_iff l node o).mp ho
  exact (resolve_eq_ok_iff l' node o).mpr ⟨entry, h node entry hentry, heq⟩

/-- Rows stay where they are while the ledger grows. -/
theorem HasRow.mono {l l' : Ledger ι} (hle : l.Le l') {pos : Nat} {cs : List (Leaf ι (Cell ι))}
    (h : l.HasRow pos cs) : l'.HasRow pos cs := by
  induction cs generalizing pos with
  | nil => exact h
  | cons c cs ih => exact ⟨hle.resolve h.1, ih h.2⟩

theorem entry?_insert (l : Ledger ι) (node other : ι) (entry : LedgerEntry) (duplicates : Nat) :
    Ledger.entry? ⟨l.entries.insert node entry, duplicates⟩ other
      = if node = other then some entry else l.entry? other := by
  unfold entry?
  rw [Std.HashMap.getElem?_insert]
  simp only [beq_iff_eq]

/-- Entering a node succeeds only if the node now stands at that offset, and no other node is
moved. -/
theorem register_run {l l' : Ledger ι} {node : ι} {o : Offset} {kind : NodeKind}
    (h : register node o kind l = .ok () l') :
    l'.resolve node = .ok o ∧ l.Le l' ∧ ∀ other, other ≠ node → l'.entry? other = l.entry? other := by
  unfold register at h
  split at h
  · -- The identity is new.
    rename_i hnone
    cases h
    refine ⟨(resolve_eq_ok_iff _ node o).mpr ⟨⟨o, kind⟩, ?_, rfl⟩, fun other entry hentry => ?_,
      fun other hother => ?_⟩
    · rw [entry?_insert, if_pos rfl]
    · have hne : node ≠ other := by
        intro heq
        rw [heq, hentry] at hnone
        cases hnone
      rw [entry?_insert, if_neg hne, hentry]
    · rw [entry?_insert, if_neg hother.symm]
  · -- The identity has an entry, which stays if it has the same offset.
    rename_i first hfirst
    split at h
    · rename_i heq
      cases h
      exact ⟨(resolve_eq_ok_iff _ node o).mpr ⟨first, hfirst, heq⟩, fun _ _ hentry => hentry, fun _ _ => rfl⟩
    · cases h

/-- Entering a row succeeds only if it now stands in line from its position on. -/
theorem registerCells_run {pos : Nat} {cs : List (Leaf ι (Cell ι))} {l l' : Ledger ι}
    (h : registerCells pos cs l = .ok () l') : l'.HasRow pos cs ∧ l.Le l'
      ∧ ∀ node, node ∉ cs.map (·.id) → l'.entry? node = l.entry? node := by
  induction cs generalizing pos l with
  | nil =>
    cases h
    exact ⟨trivial, Le.refl _, fun _ _ => rfl⟩
  | cons c cs ih =>
    obtain ⟨_, mid, hfirst, hrest⟩ := bind_eq_ok_iff.mp h
    obtain ⟨hresolve, hle, hothers⟩ := register_run hfirst
    obtain ⟨hrow, hle', hothers'⟩ := ih hrest
    refine ⟨⟨hle'.resolve hresolve, hrow⟩, hle.trans hle', fun node hnode => ?_⟩
    obtain ⟨hne, hnode⟩ := not_or.mp (mt List.mem_cons.mpr hnode)
    exact (hothers' node hnode).trans (hothers node hne)

end Ledger

def piecesSize : List (Piece ι) → Nat
  | [] => 0
  | p :: ps => alignUp p.size + piecesSize ps

def reservationsFrom : Nat → List (Piece ι) → List Reservation
  | _, [] => []
  | pos, p :: ps => .ofPiece pos p :: reservationsFrom (pos + alignUp p.size) ps

omit [DecidableEq ι] [Hashable ι] in
theorem length_reservationsFrom (pos : Nat) (ps : List (Piece ι)) :
    (reservationsFrom pos ps).length = ps.length := by
  induction ps generalizing pos with
  | nil => rfl
  | cons p ps ih => rw [reservationsFrom, List.length_cons, ih, List.length_cons]

def Visit.Allowed : Visit ι → Prop
  | .enterLocal l => l.isFunction = false
  | .enterStmt s => s.exprs.length ≤ maxExprs
  | .place _ | .leave => True

structure PlanRun (vs : List (Visit ι)) (cx cx' : Context ι) : Prop where
  keeps : cx.ledger.Le cx'.ledger
  pieces : cx'.ledger.HasPieces cx.cursor (placedPieces vs)
  cursor : cx'.cursor = cx.cursor + piecesSize (placedPieces vs)
  reservations : cx'.reservations.toList
    = cx.reservations.toList ++ reservationsFrom cx.cursor (placedPieces vs)
  allowed : ∀ v ∈ vs, v.Allowed
  written : cx'.written = cx.written
  block : cx'.block = cx.block
  stats : cx'.stats = cx.stats
  others : ∀ node, node ∉ idsOf (placedPieces vs) → cx'.ledger.entry? node = cx.ledger.entry? node

/-- A step that sets nothing aside and is let pass leaves the context alone. -/
theorem PlanRun.skip {v : Visit ι} (cx : Context ι) (hv : v.piece? = none) (hallowed : v.Allowed) :
    PlanRun [v] cx cx := by
  have hpieces : placedPieces [v] = [] := placedPieces_skip hv []
  refine ⟨Ledger.Le.refl _, ?_, ?_, ?_, ?_, rfl, rfl, rfl, fun _ _ => rfl⟩
  · rw [hpieces]
    trivial
  · rw [hpieces]
    rfl
  · rw [hpieces]
    exact (List.append_nil _).symm
  · intro w hw
    rw [List.mem_singleton.mp hw]
    exact hallowed

/-- A run over the first step and one over the others make up a run over all. -/
theorem PlanRun.cons {v : Visit ι} {vs : List (Visit ι)} {cx mid cx' : Context ι}
    (h : PlanRun [v] cx mid) (h' : PlanRun vs mid cx') : PlanRun (v :: vs) cx cx' := by
  have hallowed : ∀ w ∈ v :: vs, w.Allowed := by
    intro w hw
    rcases List.mem_cons.mp hw with rfl | hw
    · exact h.allowed w List.mem_cons_self
    · exact h'.allowed w hw
  have hcursor := h.cursor
  have hpieces := h'.pieces
  have hreservations := h'.reservations
  rw [h.reservations] at hreservations
  have hwritten := h'.written.trans h.written
  have hblock := h'.block.trans h.block
  have hstats := h'.stats.trans h.stats
  have hothers : ∀ node, node ∉ idsOf (placedPieces (v :: vs)) →
      cx'.ledger.entry? node = cx.ledger.entry? node := by
    intro node hnode
    rw [placedPieces_cons, idsOf_append, List.mem_append, not_or] at hnode
    exact (h'.others node hnode.2).trans (h.others node hnode.1)
  -- Only a step that places a piece moves the cursor.
  cases v with
  | place p =>
    have hmid : mid.cursor = cx.cursor + alignUp p.size := hcursor
    rw [hmid] at hpieces hreservations
    refine ⟨h.keeps.trans h'.keeps, ⟨h.pieces.1.mono h'.keeps, hpieces⟩, ?_, ?_, hallowed, hwritten, hblock,
      hstats, hothers⟩
    · rw [h'.cursor, hmid, placedPieces_place, piecesSize, Nat.add_assoc]
    · rw [hreservations, List.append_assoc]
      rfl
  | enterLocal _ | enterStmt _ | leave =>
    have hmid : mid.cursor = cx.cursor := hcursor
    rw [hmid] at hpieces hreservations
    refine ⟨h.keeps.trans h'.keeps, hpieces, ?_, ?_, hallowed, hwritten, hblock, hstats, hothers⟩
    · rw [h'.cursor, hmid]
      rfl
    · rw [hreservations, List.append_assoc]
      rfl

namespace Context

section

variable {p : Piece ι} {cx cx' : Context ι}

/-- Entering a piece changes the ledger and nothing else. -/
theorem enter_eq_ok_iff {position : Nat} : enter position p cx = .ok () cx'
    ↔ ∃ ledger, Ledger.registerCells position p.cells cx.ledger = .ok () ledger ∧ cx' = { cx with ledger } := by
  cases cx with
  | mk ledger cursor reservations block written stats =>
    simp only [enter]
    cases Ledger.registerCells position p.cells ledger with
    | ok u entered => simp [eq_comm]
    | error e entered => simp

/-- A refused piece also changes the ledger only: the cells in front of the one refused stay
entered. -/
theorem enter_eq_error_iff {position : Nat} {e : CompactError ι} : enter position p cx = .error e cx'
    ↔ ∃ ledger, Ledger.registerCells position p.cells cx.ledger = .error e ledger
      ∧ cx' = { cx with ledger } := by
  cases cx with
  | mk ledger cursor reservations block written stats =>
    simp only [enter]
    cases Ledger.registerCells position p.cells ledger with
    | ok u entered => simp
    | error e' entered => simp [eq_comm, and_assoc]

/-- A piece is planned just if its cells can be entered at the cursor, whether its bytes are set aside before or
after that. -/
theorem planPiece_eq_ok_iff : planPiece p cx = .ok () cx'
    ↔ ∃ ledger, Ledger.registerCells cx.cursor p.cells cx.ledger = .ok () ledger
      ∧ cx' = { cx.reserved p with ledger } := by
  by_cases harray : p.first.val.kind.inArray
  · rw [planPiece, if_pos harray]
    change (enter cx.cursor p >>= fun _ => reserve p) cx = .ok () cx' ↔ _
    rw [bind_eq_ok_iff]
    constructor
    · rintro ⟨_, mid, henter, hreserve⟩
      obtain ⟨ledger, hregister, rfl⟩ := enter_eq_ok_iff.mp henter
      cases hreserve
      exact ⟨ledger, hregister, rfl⟩
    · rintro ⟨ledger, hregister, rfl⟩
      exact ⟨(), _, enter_eq_ok_iff.mpr ⟨ledger, hregister, rfl⟩, rfl⟩
  · rw [planPiece, if_neg harray]
    change enter cx.cursor p (cx.reserved p) = .ok () cx' ↔ _
    exact enter_eq_ok_iff

/-- A piece that is refused leaves the entries of the cells before the refused one behind. A single node also keeps
the bytes that were set aside for it, an array has got none yet. -/
theorem planPiece_eq_error_iff {e : CompactError ι} : planPiece p cx = .error e cx'
    ↔ ∃ ledger, Ledger.registerCells cx.cursor p.cells cx.ledger = .error e ledger
      ∧ cx' = if p.first.val.kind.inArray then { cx with ledger } else { cx.reserved p with ledger } := by
  by_cases harray : p.first.val.kind.inArray
  · rw [planPiece, if_pos harray]
    change (enter cx.cursor p >>= fun _ => reserve p) cx = .error e cx' ↔ _
    rw [bind_eq_error_iff, enter_eq_error_iff]
    simp only [if_pos harray]
    refine or_iff_left ?_
    rintro ⟨_, mid, -, hreserve⟩
    cases hreserve
  · rw [planPiece, if_neg harray]
    change enter cx.cursor p (cx.reserved p) = .error e cx' ↔ _
    simp only [if_neg harray]
    exact enter_eq_error_iff

end

/-- A step that is allowed and places nothing changes nothing. -/
theorem planVisit_skip {v : Visit ι} (hv : v.piece? = none) (hallowed : v.Allowed) (cx : Context ι) :
    planVisit v cx = .ok () cx := by
  cases v with
  | enterLocal l =>
    rw [planVisit, if_neg (Bool.eq_false_iff.mp hallowed)]
    rfl
  | enterStmt s =>
    rw [planVisit, if_neg (Nat.not_lt.mpr hallowed)]
    rfl
  | place p => cases hv
  | leave => rfl

/-- A step that is not allowed is refused for a defect of the tree, and changes nothing either. -/
theorem planVisit_refused {v : Visit ι} (h : ¬v.Allowed) (cx : Context ι) :
    ∃ d, planVisit v cx = .error (.malformedTree d) cx := by
  cases v with
  | enterLocal l =>
    rw [planVisit, if_pos ((Bool.not_eq_false _).mp h)]
    exact ⟨_, rfl⟩
  | enterStmt s =>
    rw [planVisit, if_pos (Nat.lt_of_not_le h)]
    exact ⟨_, rfl⟩
  | place p => exact absurd trivial h
  | leave => exact absurd trivial h

/-- One step of a walk reserves at most one piece, behind all others, and enters it there. -/
theorem planVisit_run {v : Visit ι} {cx cx' : Context ι} (h : planVisit v cx = .ok () cx') :
    PlanRun [v] cx cx' := by
  by_cases hallowed : v.Allowed
  case neg =>
    obtain ⟨d, hrefused⟩ := planVisit_refused hallowed cx
    cases hrefused.symm.trans h
  -- A step that places nothing changes nothing, and one that does is planned at the cursor.
  cases hv : v.piece? with
  | none =>
    cases (planVisit_skip hv hallowed cx).symm.trans h
    exact PlanRun.skip cx hv hallowed
  | some p =>
    obtain rfl : v = .place p := Visit.eq_place_of_piece? hv
    obtain ⟨ledger, hregister, rfl⟩ := planPiece_eq_ok_iff.mp h
    obtain ⟨hrow, hle, hothers⟩ := Ledger.registerCells_run hregister
    refine ⟨hle, ⟨hrow, trivial⟩, rfl, Array.toList_push, ?_, rfl, rfl, rfl, fun node hnode => ?_⟩
    · exact List.forall_mem_singleton.mpr hallowed
    · have hids : idsOf (placedPieces [.place p]) = p.cells.map (·.id) := List.append_nil _
      rw [hids] at hnode
      exact hothers node hnode

/-- A walk reserves its pieces one behind the other, and the ledger has each of them where it was
reserved. -/
theorem planVisits_run {vs : List (Visit ι)} {cx cx' : Context ι} (h : planVisits vs cx = .ok () cx') :
    PlanRun vs cx cx' := by
  induction vs generalizing cx with
  | nil =>
    cases h
    exact ⟨Ledger.Le.refl _, trivial, rfl, (List.append_nil _).symm, fun _ h => (List.not_mem_nil h).elim,
      rfl, rfl, rfl, fun _ _ => rfl⟩
  | cons v vs ih =>
    obtain ⟨_, mid, hfirst, hrest⟩ := bind_eq_ok_iff.mp h
    exact (planVisit_run hfirst).cons (ih hrest)

end Context

/-! ### Loop references -/

/-- The loop targets are the statements of a loop kind. -/
theorem mem_loopTargets_iff (stmts : List (Stmt ι)) (target : ι) :
    (loopTargets stmts).contains target = true
      ↔ ∃ t ∈ stmts, t.id = target ∧ t.head.kind.isLoopTarget := by
  rw [loopTargets, Std.HashSet.contains_ofList, List.contains_iff_mem, List.mem_map]
  constructor
  · rintro ⟨t, ht, hid⟩
    obtain ⟨hmem, hkind⟩ := List.mem_filter.mp ht
    exact ⟨t, hmem, hid, hkind⟩
  · rintro ⟨t, hmem, hid, hkind⟩
    exact ⟨t, List.mem_filter.mpr ⟨hmem, hkind⟩, hid⟩

/-- A loop reference is accepted where the ledger has its target as a statement, of a loop kind. -/
theorem loopDefect?_eq_none_iff (ledger : Ledger ι) (loops : Std.HashSet ι) (target : ι) :
    loopDefect? ledger loops target = none
      ↔ (∃ entry, ledger.entry? target = some entry ∧ entry.kind = .stmt)
        ∧ loops.contains target = true := by
  unfold loopDefect?
  cases ledger.entry? target with
  | none => simp
  | some entry =>
    by_cases hkind : entry.kind = .stmt
    · by_cases hloop : loops.contains target <;> simp [hkind, hloop]
    · simp [hkind]

/-- Without a defect, each loop reference names a loop among the statements. -/
theorem loops_of_firstLoopDefect? {ledger : Ledger ι} {stmts : List (Stmt ι)}
    (h : firstLoopDefect? ledger stmts = none) :
    ∀ s ∈ stmts, ∀ target ∈ s.head.loop, ∃ t ∈ stmts, t.id = target ∧ t.head.kind.isLoopTarget := by
  intro s hs target htarget
  have hnone := List.findSome?_eq_none_iff.mp h target
    (List.mem_filterMap.mpr ⟨s, hs, htarget⟩)
  exact (mem_loopTargets_iff stmts target).mp ((loopDefect?_eq_none_iff _ _ _).mp hnone).2

/-! ### Whole functions -/

structure Planned (f : Function ι) (size : Nat) (cx : Context ι) : Prop where
  pieces : cx.ledger.HasPieces 0 f.pieces
  cursor : cx.cursor = size
  size_eq : size = piecesSize f.pieces
  reservations : cx.reservations.toList = reservationsFrom 0 f.pieces
  written : cx.written = ∅
  wellFormed : f.WellFormed
  /-- The ledger has no other node than those of the function. -/
  known : ∀ node, (cx.ledger.entry? node).isSome → node ∈ idsOf f.pieces

/-- A plan succeeds just if every step is planned and the loop references have no defect. In the end it counts
the reservations and the entries of the ledger. -/
theorem Context.plan_eq_ok_iff {f : Function ι} {size : Nat} {cx cx' : Context ι} :
    Context.plan f cx = .ok size cx' ↔ ∃ mid, planVisits f.visits (Context.empty : Context ι) = .ok () mid
      ∧ firstLoopDefect? mid.ledger f.scope.allStmts = none ∧ size = mid.cursor
      ∧ cx' = { mid with stats :=
          { mid.stats with reservations := mid.reservations.size, ledgerEntries := mid.ledger.size } } := by
  have hset : (set (Context.empty : Context ι) : CompactM ι PUnit) cx = .ok ⟨⟩ Context.empty := rfl
  rw [Context.plan, bind_of_ok hset]
  constructor
  · intro h
    obtain ⟨_, mid, hvisits, h⟩ := bind_eq_ok_iff.mp h
    obtain ⟨_, _, hget, h⟩ := bind_eq_ok_iff.mp h
    cases hget
    -- The loop references are looked at when all nodes have their place.
    cases hloops : firstLoopDefect? mid.ledger f.scope.allStmts with
    | some defect =>
      rw [hloops] at h
      cases h
    | none =>
      rw [hloops] at h
      cases h
      exact ⟨mid, hvisits, hloops, rfl, rfl⟩
  · rintro ⟨mid, hvisits, hloops, rfl, rfl⟩
    have hget : (get : CompactM ι (Context ι)) mid = .ok mid mid := rfl
    rw [bind_of_ok hvisits, bind_of_ok hget, hloops]
    rfl

/-- A plan that succeeds leaves the pieces of the tree in the ledger from offset zero on, a
reservation for each, and the cursor behind the last. -/
theorem Context.plan_run {f : Function ι} {size : Nat} {cx cx' : Context ι}
    (h : Context.plan f cx = .ok size cx') : Planned f size cx' := by
  obtain ⟨mid, hvisits, hloops, rfl, rfl⟩ := Context.plan_eq_ok_iff.mp h
  have hrun := planVisits_run hvisits
  have hpieces := hrun.pieces
  have hcursor := hrun.cursor
  have hreservations := hrun.reservations
  have hothers := hrun.others
  rw [placedPieces_visits] at hpieces hcursor hreservations hothers
  have hallowed := (forall_visits (P := Visit.Allowed) (fun _ => trivial) trivial f).mp hrun.allowed
  -- The ledger starts empty, so what it knows in the end are nodes of the pieces.
  have hknown : ∀ node, (mid.ledger.entry? node).isSome → node ∈ idsOf f.pieces := by
    intro node hnode
    by_contra habsent
    have hnone : (Context.empty : Context ι).ledger.entry? node = none := Std.HashMap.getElem?_empty
    rw [hothers node habsent, hnone] at hnode
    cases hnode
  exact
    { pieces := hpieces
      known := hknown
      cursor := rfl
      size_eq := hcursor.trans (Nat.zero_add _)
      reservations := hreservations
      written := hrun.written
      wellFormed := ⟨hallowed.1, hallowed.2, loops_of_firstLoopDefect? hloops⟩ }

/-- The counts after a plan, which has not asked for a block yet. -/
theorem Context.stats_of_plan {f : Function ι} {size : Nat} {cx cx' : Context ι}
    (h : Context.plan f cx = .ok size cx') :
    cx'.block = none ∧ cx'.stats
      = { Stats.zero with reservations := cx'.reservations.size, ledgerEntries := cx'.ledger.size } := by
  obtain ⟨mid, hvisits, -, rfl, rfl⟩ := Context.plan_eq_ok_iff.mp h
  have hrun := planVisits_run hvisits
  refine ⟨hrun.block, ?_⟩
  simp only [hrun.stats]
  rfl

/-! ### Why planning fails -/

def CompactError.BlamesTree : CompactError ι → Prop
  | .malformedTree _ | .conflictingRegistration _ _ _ => True
  | _ => False

/-- Entering nodes fails for a conflict only. -/
theorem Ledger.registerCells_error {pos : Nat} {cs : List (Leaf ι (Cell ι))} {l l' : Ledger ι}
    {e : CompactError ι} (h : Ledger.registerCells pos cs l = .error e l') : e.BlamesTree := by
  induction cs generalizing pos l with
  | nil => cases h
  | cons c cs ih =>
    rcases bind_eq_error_iff.mp h with hfirst | ⟨_, mid, -, hrest⟩
    · unfold Ledger.register at hfirst
      split at hfirst
      · cases hfirst
      · split at hfirst
        · cases hfirst
        · cases hfirst
          trivial
    · exact ih hrest

namespace Context

theorem planVisit_error {v : Visit ι} {cx cx' : Context ι} {e : CompactError ι}
    (h : planVisit v cx = .error e cx') : e.BlamesTree := by
  by_cases hallowed : v.Allowed
  case neg =>
    obtain ⟨d, hrefused⟩ := planVisit_refused hallowed cx
    cases hrefused.symm.trans h
    trivial
  cases hv : v.piece? with
  | none => cases (planVisit_skip hv hallowed cx).symm.trans h
  | some p =>
    obtain rfl : v = .place p := Visit.eq_place_of_piece? hv
    obtain ⟨ledger, hregister, -⟩ := planPiece_eq_error_iff.mp h
    exact Ledger.registerCells_error hregister

/-- A walk fails for a defect of the tree or a conflict of its identities. -/
theorem planVisits_error {vs : List (Visit ι)} {cx cx' : Context ι} {e : CompactError ι}
    (h : planVisits vs cx = .error e cx') : e.BlamesTree := by
  induction vs generalizing cx with
  | nil => cases h
  | cons v vs ih =>
    rcases bind_eq_error_iff.mp h with hfirst | ⟨_, mid, -, hrest⟩
    · exact planVisit_error hfirst
    · exact ih hrest

/-- A plan fails for reasons that lie in the tree. -/
theorem plan_error {f : Function ι} {cx cx' : Context ι} {e : CompactError ι}
    (h : plan f cx = .error e cx') : e.BlamesTree := by
  rcases bind_eq_error_iff.mp h with hset | ⟨_, start, hset, h⟩
  · cases hset
  rcases bind_eq_error_iff.mp h with hvisits | ⟨_, mid, -, h⟩
  · exact planVisits_error hvisits
  rcases bind_eq_error_iff.mp h with hget | ⟨_, _, hget, h⟩
  · cases hget
  cases hget
  cases hloops : firstLoopDefect? mid.ledger f.scope.allStmts with
  | some defect =>
    rw [hloops] at h
    cases h
    trivial
  | none =>
    rw [hloops] at h
    cases h

end Context

end TreePack
