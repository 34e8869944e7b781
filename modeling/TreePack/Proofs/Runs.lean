import TreePack.Proofs.Writing

namespace TreePack

variable {ι : Type}

/-! ### Pieces at the end -/

theorem piecesSize_append (ps qs : List (Piece ι)) :
    piecesSize (ps ++ qs) = piecesSize ps + piecesSize qs := by
  induction ps with
  | nil => exact (Nat.zero_add _).symm
  | cons p ps ih => rw [List.cons_append, piecesSize, piecesSize, ih, Nat.add_assoc]

theorem piecesSize_concat (ps : List (Piece ι)) (p : Piece ι) :
    piecesSize (ps ++ [p]) = piecesSize ps + alignUp p.size := piecesSize_append ps [p]

/-- One more reservation starts where the pieces so far end. -/
theorem reservationsFrom_concat (pos : Nat) (ps : List (Piece ι)) (p : Piece ι) :
    reservationsFrom pos (ps ++ [p]) = reservationsFrom pos ps ++ [.ofPiece (pos + piecesSize ps) p] := by
  induction ps generalizing pos with
  | nil => rfl
  | cons q ps ih => rw [List.cons_append, reservationsFrom, reservationsFrom, ih, piecesSize, Nat.add_assoc]; rfl

variable [DecidableEq ι] [Hashable ι]

namespace Ledger

/-- A piece entered at the cursor joins the pieces in front of it. -/
theorem HasPieces.concat {l : Ledger ι} {pos : Nat} {ps : List (Piece ι)} {p : Piece ι}
    (h : l.HasPieces pos ps) (hrow : l.HasRow (pos + piecesSize ps) p.cells) :
    l.HasPieces pos (ps ++ [p]) := by
  induction ps generalizing pos with
  | nil => exact ⟨hrow, trivial⟩
  | cons q ps ih =>
    rw [piecesSize, ← Nat.add_assoc] at hrow
    exact ⟨h.1, ih h.2 hrow⟩

/-- Pieces stay where they are while the ledger grows. -/
theorem HasPieces.mono {l l' : Ledger ι} (hle : l.Le l') {pos : Nat} {ps : List (Piece ι)}
    (h : l.HasPieces pos ps) : l'.HasPieces pos ps := by
  induction ps generalizing pos with
  | nil => trivial
  | cons p ps ih => exact ⟨h.1.mono hle, ih h.2⟩

/-- Cells that are refused leave behind the entries of those before them. -/
theorem registerCells_le {pos : Nat} {cs : List (Leaf ι (Cell ι))} {l l' : Ledger ι} {e : CompactError ι}
    (h : registerCells pos cs l = .error e l') : l.Le l' := by
  induction cs generalizing pos l with
  | nil => cases h
  | cons c cs ih =>
    rcases bind_eq_error_iff.mp h with hfirst | ⟨_, mid, hfirst, hrest⟩
    · unfold register at hfirst
      split at hfirst
      · cases hfirst
      · split at hfirst
        · cases hfirst
        · cases hfirst
          exact Le.refl _
    · exact (register_run hfirst).2.1.trans (ih hrest)

end Ledger

/-! ### What a context has planned -/

def CompactM.after {α : Type} (x : CompactM ι α) (cx : Context ι) : Context ι :=
  match x cx with
  | .ok _ cx' => cx'
  | .error _ cx' => cx'

namespace CompactM

variable {α : Type} {x : CompactM ι α} {cx cx' : Context ι}

theorem after_of_ok {a : α} (h : x cx = .ok a cx') : x.after cx = cx' := by
  simp only [after, h]

theorem after_of_error {e : CompactError ι} (h : x cx = .error e cx') : x.after cx = cx' := by
  simp only [after, h]

theorem after_bind_of_ok {β : Type} {a : α} (h : x cx = .ok a cx') (f : α → CompactM ι β) :
    (x >>= f).after cx = (f a).after cx' := by
  simp only [after, bind_of_ok h]

/-- Nothing happens after a step that failed. -/
theorem after_bind_of_error {β : Type} {e : CompactError ι} (h : x cx = .error e cx')
    (f : α → CompactM ι β) : (x >>= f).after cx = cx' := by
  simp only [after, bind_of_error h]

end CompactM

namespace Context

/-- The context has set bytes aside for some pieces one behind the other, and has at most a block of their
size. -/
structure Laid (cx : Context ι) (ps : List (Piece ι)) : Prop where
  cursor : cx.cursor = piecesSize ps
  reservations : cx.reservations.toList = reservationsFrom 0 ps
  block : ∀ b ∈ cx.block, b.size = cx.cursor

/-- Without a block there is nothing to be too small. -/
theorem Laid.of_no_block {cx : Context ι} {ps : List (Piece ι)} (hcursor : cx.cursor = piecesSize ps)
    (hreservations : cx.reservations.toList = reservationsFrom 0 ps) (hnone : cx.block = none) :
    cx.Laid ps := by
  refine ⟨hcursor, hreservations, fun b hb => ?_⟩
  rw [hnone] at hb
  cases hb

theorem laid_empty : (Context.empty : Context ι).Laid [] :=
  .of_no_block rfl rfl rfl

/-! ### What a plan leaves behind, whether it succeeds or fails -/

/-- A step that places nothing leaves the context as it is, even if it is refused. -/
theorem after_planVisit_skip {v : Visit ι} (hv : v.piece? = none) (cx : Context ι) :
    (planVisit v).after cx = cx := by
  by_cases hallowed : v.Allowed
  · exact CompactM.after_of_ok (planVisit_skip hv hallowed cx)
  · obtain ⟨d, hrefused⟩ := planVisit_refused hallowed cx
    exact CompactM.after_of_error hrefused

/-- A plan begins afresh. Once its steps are planned, it changes only counts. -/
theorem exists_after_plan (f : Function ι) (cx : Context ι) :
    ∃ stats, (plan f).after cx = { (planVisits f.visits).after Context.empty with stats } := by
  have hset : (set (Context.empty : Context ι) : CompactM ι PUnit) cx = .ok ⟨⟩ Context.empty := rfl
  rw [plan, CompactM.after_bind_of_ok hset]
  cases hvisits : planVisits f.visits (Context.empty : Context ι) with
  | error e mid =>
    rw [CompactM.after_bind_of_error hvisits, CompactM.after_of_error hvisits]
    exact ⟨mid.stats, rfl⟩
  | ok u mid =>
    have hget : (get : CompactM ι (Context ι)) mid = .ok mid mid := rfl
    rw [CompactM.after_bind_of_ok hvisits, CompactM.after_bind_of_ok hget, CompactM.after_of_ok hvisits]
    -- The loop references decide on the result, but they set nothing aside.
    cases firstLoopDefect? mid.ledger f.scope.allStmts with
    | some d => exact ⟨mid.stats, rfl⟩
    | none => exact ⟨_, rfl⟩

section

variable {P Q : Context ι → Prop}

/-- What planning each piece of some steps keeps true, planning the steps does. The first piece that is refused ends
it, and may leave something weaker true. -/
theorem after_planVisits {vs : List (Visit ι)}
    (hok : ∀ p ∈ placedPieces vs, ∀ cx cx', P cx → planPiece p cx = .ok () cx' → P cx')
    (herror : ∀ p ∈ placedPieces vs, ∀ cx e cx', P cx → planPiece p cx = .error e cx' → Q cx')
    (hweaker : ∀ cx, P cx → Q cx) {cx : Context ι} (h : P cx) : Q ((planVisits vs).after cx) := by
  -- On the steps; a step that is refused ends the walk.
  induction vs generalizing cx with
  | nil => exact hweaker cx h
  | cons v vs ih =>
    rw [placedPieces_cons] at hok herror
    have hothers {cx : Context ι} (h : P cx) : Q ((planVisits vs).after cx) :=
      ih (fun p hp => hok p (List.mem_append_right _ hp)) (fun p hp => herror p (List.mem_append_right _ hp)) h
    rw [planVisits]
    cases hv : v.piece? with
    | none =>
      have hskip := after_planVisit_skip hv cx
      cases hstep : planVisit v cx with
      | ok u mid =>
        rw [CompactM.after_of_ok hstep] at hskip
        rw [CompactM.after_bind_of_ok hstep, hskip]
        exact hothers h
      | error e mid =>
        rw [CompactM.after_of_error hstep] at hskip
        rw [CompactM.after_bind_of_error hstep, hskip]
        exact hweaker cx h
    | some p =>
      obtain rfl : v = .place p := Visit.eq_place_of_piece? hv
      cases hstep : planVisit (.place p) cx with
      | ok u mid =>
        rw [CompactM.after_bind_of_ok hstep]
        exact hothers (hok p List.mem_cons_self cx mid h hstep)
      | error e mid =>
        rw [CompactM.after_bind_of_error hstep]
        exact herror p List.mem_cons_self cx e mid h hstep

/-- A plan begins afresh, so what is true of the empty context and kept true by each piece is true after it, or what
the refusal of a piece leaves true. -/
theorem after_plan {f : Function ι} (hempty : P .empty)
    (hok : ∀ p ∈ f.pieces, ∀ cx cx', P cx → planPiece p cx = .ok () cx' → P cx')
    (herror : ∀ p ∈ f.pieces, ∀ cx e cx', P cx → planPiece p cx = .error e cx' → Q cx')
    (hweaker : ∀ cx, P cx → Q cx) (hstats : ∀ cx stats, Q cx → Q { cx with stats }) (cx : Context ι) :
    Q ((plan f).after cx) := by
  rw [← placedPieces_visits] at hok herror
  have hmid : Q ((planVisits f.visits).after .empty) := after_planVisits hok herror hweaker hempty
  obtain ⟨stats, hafter⟩ := exists_after_plan f cx
  rw [hafter]
  exact hstats _ stats hmid

end

/-! ### The plan stays in order -/

/-- A piece goes behind those that were set aside before. -/
theorem Laid.push {cx : Context ι} {ps : List (Piece ι)} (h : cx.Laid ps) (hnone : cx.block = none)
    (p : Piece ι) (ledger : Ledger ι) : Context.Laid { cx.reserved p with ledger } (ps ++ [p]) := by
  have hcursor : cx.cursor = 0 + piecesSize ps := h.cursor.trans (Nat.zero_add _).symm
  apply Laid.of_no_block
  · exact (congrArg (· + alignUp p.size) h.cursor).trans (piecesSize_concat ps p).symm
  · rw [reservationsFrom_concat, ← h.reservations, ← hcursor]
    exact Array.toList_push
  · exact hnone

/-- A step that is planned sets its piece aside, if it has one. -/
theorem Laid.planVisit_ok {v : Visit ι} {cx mid : Context ι} {ps : List (Piece ι)} (h : cx.Laid ps)
    (hnone : cx.block = none) (hstep : planVisit v cx = .ok () mid) :
    mid.Laid (ps ++ placedPieces [v]) ∧ mid.block = none := by
  refine ⟨?_, (planVisit_run hstep).block.trans hnone⟩
  cases hv : v.piece? with
  | none =>
    have hskip := after_planVisit_skip hv cx
    rw [CompactM.after_of_ok hstep] at hskip
    rw [hskip, placedPieces_skip hv, placedPieces_nil, List.append_nil]
    exact h
  | some p =>
    obtain rfl : v = .place p := Visit.eq_place_of_piece? hv
    obtain ⟨ledger, -, rfl⟩ := planPiece_eq_ok_iff.mp hstep
    exact h.push hnone p ledger

/-- A step that is refused sets nothing aside, but for a single node, whose bytes were set aside already. -/
theorem Laid.planVisit_error {v : Visit ι} {cx mid : Context ι} {ps : List (Piece ι)} {e : CompactError ι}
    (h : cx.Laid ps) (hnone : cx.block = none) (hstep : planVisit v cx = .error e mid) :
    ∃ qs, qs <+: placedPieces [v] ∧ mid.Laid (ps ++ qs) := by
  cases hv : v.piece? with
  | none =>
    have hskip := after_planVisit_skip hv cx
    rw [CompactM.after_of_error hstep] at hskip
    refine ⟨[], List.nil_prefix, ?_⟩
    rw [hskip, List.append_nil]
    exact h
  | some p =>
    obtain rfl : v = .place p := Visit.eq_place_of_piece? hv
    obtain ⟨ledger, -, rfl⟩ := planPiece_eq_error_iff.mp hstep
    -- An array is entered before it is reserved, a single node after.
    by_cases harray : p.first.val.kind.inArray
    · refine ⟨[], List.nil_prefix, ?_⟩
      rw [if_pos harray, List.append_nil]
      exact ⟨h.cursor, h.reservations, h.block⟩
    · refine ⟨[p], List.prefix_rfl, ?_⟩
      rw [if_neg harray]
      exact h.push hnone p ledger

/-- Planning some steps sets the first of their pieces aside, all of them unless a step is refused. -/
theorem Laid.planVisits {vs : List (Visit ι)} {cx : Context ι} {ps : List (Piece ι)} (h : cx.Laid ps)
    (hnone : cx.block = none) :
    ∃ qs, qs <+: placedPieces vs ∧ ((planVisits vs).after cx).Laid (ps ++ qs) := by
  -- On the steps; the one that is refused is the last.
  induction vs generalizing cx ps with
  | nil =>
    refine ⟨[], List.nil_prefix, ?_⟩
    rw [List.append_nil]
    exact h
  | cons v vs ih =>
    rw [Context.planVisits, placedPieces_cons]
    cases hstep : planVisit v cx with
    | ok u mid =>
      obtain ⟨hmid, hnone⟩ := h.planVisit_ok hnone hstep
      obtain ⟨qs, hprefix, hlaid⟩ := ih hmid hnone
      rw [CompactM.after_bind_of_ok hstep]
      refine ⟨placedPieces [v] ++ qs, (List.prefix_append_right_inj _).mpr hprefix, ?_⟩
      rw [← List.append_assoc]
      exact hlaid
    | error e mid =>
      obtain ⟨qs, hprefix, hlaid⟩ := h.planVisit_error hnone hstep
      rw [CompactM.after_bind_of_error hstep]
      exact ⟨qs, hprefix.trans (List.prefix_append _ _), hlaid⟩

/-- A plan sets the first pieces of its tree aside, all of them unless a step is refused. -/
theorem laid_after_plan (f : Function ι) (cx : Context ι) :
    ∃ ps, ps <+: f.pieces ∧ ((Context.plan f).after cx).Laid ps := by
  have hvisits : ∃ ps, ps <+: placedPieces f.visits
      ∧ ((planVisits f.visits).after (Context.empty : Context ι)).Laid ([] ++ ps) := laid_empty.planVisits rfl
  obtain ⟨ps, hprefix, hlaid⟩ := hvisits
  obtain ⟨stats, hafter⟩ := exists_after_plan f cx
  rw [placedPieces_visits] at hprefix
  rw [hafter]
  exact ⟨ps, hprefix, hlaid.cursor, hlaid.reservations, hlaid.block⟩

/-- Allocating changes the block only, which is made as large as the cursor says. -/
theorem Laid.allocate {cx : Context ι} {ps : List (Piece ι)} (h : cx.Laid ps) (allocator : Allocator ι) :
    ((Context.allocate allocator).after cx).Laid ps := by
  simp only [CompactM.after, Context.allocate]
  cases allocator cx.cursor with
  | error e => exact h
  | ok b =>
    by_cases hsize : b.size = cx.cursor
    · simp only [hsize, ↓reduceIte]
      refine ⟨h.cursor, h.reservations, fun b' hb' => ?_⟩
      cases hb'
      exact hsize
    · simp only [hsize, ↓reduceIte]
      exact h

/-- A write without a block changes nothing. Any other one gives the block away, and writes some of the steps. -/
theorem after_write (f : Function ι) (cx : Context ι) :
    (cx.block = none ∧ (write f).after cx = cx)
    ∨ ∃ block stop, cx.block = some block
      ∧ (Progress.writeVisits cx.ledger f.visits ⟨cx.written, cx.stats, block⟩ = .ok () stop
        ∨ ∃ e, Progress.writeVisits cx.ledger f.visits ⟨cx.written, cx.stats, block⟩ = .error e stop)
      ∧ (write f).after cx = { cx with block := none, written := stop.written, stats := stop.stats } := by
  cases hblock : cx.block with
  | none => exact .inl ⟨rfl, CompactM.after_of_error (write_of_none hblock)⟩
  | some block =>
    right
    cases hvisits : Progress.writeVisits cx.ledger f.visits ⟨cx.written, cx.stats, block⟩ with
    | error e stop =>
      exact ⟨block, stop, rfl, .inr ⟨e, hvisits⟩, CompactM.after_of_error (write_of_error hblock hvisits)⟩
    | ok u stop =>
      refine ⟨block, stop, rfl, .inl hvisits, ?_⟩
      by_cases hall : cx.reservations.size = stop.written.size
      · exact CompactM.after_of_ok ((write_of_ok hblock hvisits).trans (if_pos hall))
      · exact CompactM.after_of_error ((write_of_ok hblock hvisits).trans (if_neg hall))

/-- Writing changes neither cursor nor reservations. -/
theorem Laid.write {cx : Context ι} {ps : List (Piece ι)} (h : cx.Laid ps) (f : Function ι) :
    ((Context.write f).after cx).Laid ps := by
  rcases after_write f cx with ⟨-, hafter⟩ | ⟨block, stop, -, -, hafter⟩
  · rw [hafter]
    exact h
  · rw [hafter]
    exact .of_no_block h.cursor h.reservations rfl

/-! ### Any number of calls -/

inductive Reached : Context ι → Prop where
  | empty : Reached .empty
  | plan {cx : Context ι} (h : Reached cx) (f : Function ι) : Reached ((Context.plan f).after cx)
  | allocate {cx : Context ι} (h : Reached cx) (allocator : Allocator ι) :
      Reached ((Context.allocate allocator).after cx)
  | write {cx : Context ι} (h : Reached cx) (f : Function ι) : Reached ((Context.write f).after cx)

/-- What a context in use has set aside is always in order. -/
theorem Reached.laid {cx : Context ι} (h : cx.Reached) : ∃ ps, cx.Laid ps := by
  induction h with
  | empty => exact ⟨[], laid_empty⟩
  | plan _ f _ =>
    obtain ⟨ps, -, hlaid⟩ := laid_after_plan f _
    exact ⟨ps, hlaid⟩
  | allocate _ allocator ih =>
    obtain ⟨ps, hlaid⟩ := ih
    exact ⟨ps, hlaid.allocate allocator⟩
  | write _ f ih =>
    obtain ⟨ps, hlaid⟩ := ih
    exact ⟨ps, hlaid.write f⟩

/-- A function that was planned and for which a block was allocated is in a context in use. -/
theorem Reached.allocated {f : Function ι} {allocator : Allocator ι} {size : Nat}
    {planned allocated : Context ι} (hplan : Context.plan f Context.empty = .ok size planned)
    (halloc : Context.allocate allocator planned = .ok () allocated) : allocated.Reached := by
  have h := (Reached.empty.plan f).allocate allocator
  rw [CompactM.after_of_ok hplan, CompactM.after_of_ok halloc] at h
  exact h

end Context

end TreePack
