import TreePack.Proofs.Planning

namespace TreePack

variable {ι : Type} [DecidableEq ι] [Hashable ι]

namespace Ledger

structure Fresh (l : Ledger ι) (ids : List ι) : Prop where
  nodup : ids.Nodup
  absent : ∀ node ∈ ids, l.entry? node = none

structure Entered (l l' : Ledger ι) (cs : List (Leaf ι (Cell ι))) : Prop where
  cells : ∀ c ∈ cs, ∃ o, l'.entry? c.id = some ⟨o, c.val.kind⟩
  others : ∀ node, node ∉ cs.map (·.id) → l'.entry? node = l.entry? node
  duplicates : l'.duplicates = l.duplicates

theorem Entered.nil (l : Ledger ι) : Entered l l [] :=
  ⟨fun _ hc => (List.not_mem_nil hc).elim, fun _ _ => rfl, rfl⟩

/-- Rows entered one after the other are entered together, as no node is in both. -/
theorem Entered.append {l l' l'' : Ledger ι} {cs ds : List (Leaf ι (Cell ι))} (h : Entered l l' cs)
    (h' : Entered l' l'' ds) (hnodup : ((cs ++ ds).map (·.id)).Nodup) : Entered l l'' (cs ++ ds) := by
  rw [List.map_append] at hnodup
  obtain ⟨-, -, hdisjoint⟩ := List.nodup_append.mp hnodup
  refine ⟨?_, ?_, h'.duplicates.trans h.duplicates⟩
  · intro c hc
    rcases List.mem_append.mp hc with hc | hc
    · have hnot : c.id ∉ ds.map (·.id) := fun hmem =>
        hdisjoint c.id (List.mem_map_of_mem hc) c.id hmem rfl
      rw [h'.others c.id hnot]
      exact h.cells c hc
    · exact h'.cells c hc
  · intro node hnode
    rw [List.map_append, List.mem_append, not_or] at hnode
    rw [h'.others node hnode.2, h.others node hnode.1]

/-- What is fresh stays so when others are entered before it. -/
theorem Fresh.entered {l l' : Ledger ι} {cs : List (Leaf ι (Cell ι))} {ids : List ι}
    (h : l.Fresh (cs.map (·.id) ++ ids)) (hentered : Entered l l' cs) : l'.Fresh ids := by
  obtain ⟨-, hnodup, hdisjoint⟩ := List.nodup_append.mp h.nodup
  refine ⟨hnodup, fun node hnode => ?_⟩
  have hnot : node ∉ cs.map (·.id) := fun hmem => hdisjoint node hmem node hnode rfl
  rw [hentered.others node hnot]
  exact h.absent node (List.mem_append_right _ hnode)

/-- New nodes of a row are entered without a conflict and without a repeat. -/
theorem registerCells_fresh (pos : Nat) {cs : List (Leaf ι (Cell ι))} {l : Ledger ι}
    (h : l.Fresh (cs.map (·.id))) : ∃ l', registerCells pos cs l = .ok () l' ∧ Entered l l' cs := by
  induction cs generalizing pos l with
  | nil => exact ⟨l, rfl, Entered.nil l⟩
  | cons c cs ih =>
    have habsent : l.entry? c.id = none := h.absent c.id List.mem_cons_self
    let mid : Ledger ι := ⟨l.entries.insert c.id ⟨.ofNat pos, c.val.kind⟩, l.duplicates⟩
    have hstep : register c.id (.ofNat pos) c.val.kind l = .ok () mid := by
      simp only [register, habsent, mid]
    have hmid : Entered l mid [c] := by
      refine ⟨?_, ?_, rfl⟩
      · intro d hd
        rw [List.mem_singleton.mp hd]
        exact ⟨_, (entry?_insert l c.id c.id _ _).trans (if_pos rfl)⟩
      · intro node hnode
        have hne : c.id ≠ node := fun heq => hnode (List.mem_singleton.mpr heq.symm)
        exact (entry?_insert l c.id node _ _).trans (if_neg hne)
    -- The other nodes of the row are still new, as none of them is the first.
    have hfresh : l.Fresh ([c].map (·.id) ++ cs.map (·.id)) := h
    have hrest : mid.Fresh (cs.map (·.id)) := hfresh.entered hmid
    obtain ⟨l', hothers, hentered⟩ := ih (pos + c.val.size) hrest
    exact ⟨l', (bind_of_ok hstep _).trans hothers, hmid.append hentered h.nodup⟩

end Ledger

def cellsOf (ps : List (Piece ι)) : List (Leaf ι (Cell ι)) := ps.flatMap Piece.cells

omit [DecidableEq ι] [Hashable ι] in
theorem map_id_cellsOf (ps : List (Piece ι)) : (cellsOf ps).map (·.id) = idsOf ps := List.map_flatMap

omit [DecidableEq ι] [Hashable ι] in
/-- Each statement of a tree has its record among the cells. -/
theorem Function.stmt_mem_cellsOf (f : Function ι) {t : Stmt ι} (ht : t ∈ f.scope.allStmts) :
    (⟨t.id, t.cell⟩ : Leaf ι (Cell ι)) ∈ cellsOf f.pieces := by
  obtain ⟨p, hp, hcell⟩ := f.scope.exists_stmtPiece t ht
  exact List.mem_flatMap.mpr ⟨p, List.mem_append_left _ hp, hcell⟩

namespace Context

open Ledger

/-- A step that is allowed and brings only fresh identities is planned. -/
theorem planVisit_fresh {v : Visit ι} {cx : Context ι} (hallowed : v.Allowed)
    (hfresh : cx.ledger.Fresh (idsOf (placedPieces [v]))) :
    ∃ cx', planVisit v cx = .ok () cx' ∧ Entered cx.ledger cx'.ledger (cellsOf (placedPieces [v])) := by
  cases hv : v.piece? with
  | none =>
    rw [placedPieces_skip hv]
    exact ⟨cx, planVisit_skip hv hallowed cx, Entered.nil cx.ledger⟩
  | some p =>
    obtain rfl : v = .place p := Visit.eq_place_of_piece? hv
    have hcells : cellsOf (placedPieces [.place p]) = p.cells := List.append_nil _
    rw [← map_id_cellsOf, hcells] at hfresh
    obtain ⟨mid, hregister, hmid⟩ := registerCells_fresh cx.cursor hfresh
    rw [hcells]
    exact ⟨_, planPiece_eq_ok_iff.mpr ⟨mid, hregister, rfl⟩, hmid⟩

/-- After a step that is allowed, the identities of the other steps are still fresh. -/
theorem planVisit_fresh_cons {v : Visit ι} {vs : List (Visit ι)} {cx : Context ι} (hallowed : v.Allowed)
    (hfresh : cx.ledger.Fresh (idsOf (placedPieces (v :: vs)))) :
    ∃ mid, planVisit v cx = .ok () mid ∧ Entered cx.ledger mid.ledger (cellsOf (placedPieces [v]))
      ∧ mid.ledger.Fresh (idsOf (placedPieces vs)) := by
  rw [placedPieces_cons, idsOf_append] at hfresh
  obtain ⟨mid, hstep, hmid⟩ := planVisit_fresh hallowed
    ⟨(List.nodup_append.mp hfresh.nodup).1, fun node hnode =>
      hfresh.absent node (List.mem_append_left _ hnode)⟩
  rw [← map_id_cellsOf] at hfresh
  exact ⟨mid, hstep, hmid, hfresh.entered hmid⟩

/-- A walk over new nodes that meets nothing forbidden is planned to its end. -/
theorem planVisits_fresh {vs : List (Visit ι)} {cx : Context ι} (hallowed : ∀ v ∈ vs, v.Allowed)
    (hfresh : cx.ledger.Fresh (idsOf (placedPieces vs))) :
    ∃ cx', planVisits vs cx = .ok () cx'
      ∧ Entered cx.ledger cx'.ledger (cellsOf (placedPieces vs)) := by
  induction vs generalizing cx with
  | nil => exact ⟨cx, rfl, Entered.nil _⟩
  | cons v vs ih =>
    obtain ⟨hself, hallowed⟩ := List.forall_mem_cons.mp hallowed
    obtain ⟨mid, hstep, hmid, hrest⟩ := planVisit_fresh_cons hself hfresh
    obtain ⟨cx', hothers, hentered⟩ := ih hallowed hrest
    have hcells : cellsOf (placedPieces (v :: vs))
        = cellsOf (placedPieces [v]) ++ cellsOf (placedPieces vs) := by
      rw [placedPieces_cons, cellsOf, List.flatMap_append]
      rfl
    have hnodup : ((cellsOf (placedPieces [v]) ++ cellsOf (placedPieces vs)).map (·.id)).Nodup := by
      rw [← hcells, map_id_cellsOf]
      exact hfresh.nodup
    rw [hcells]
    exact ⟨cx', (bind_of_ok hstep _).trans hothers, hmid.append hentered hnodup⟩

/-- The walk over a function with distinct identities and without forbidden nodes is planned. -/
theorem exists_planVisits {f : Function ι} (hids : (idsOf f.pieces).Nodup)
    (hallowed : ∀ v ∈ f.visits, v.Allowed) :
    ∃ mid, planVisits f.visits (Context.empty : Context ι) = .ok () mid
      ∧ Entered Ledger.empty mid.ledger (cellsOf f.pieces) := by
  have hfresh : (Context.empty : Context ι).ledger.Fresh (idsOf (placedPieces f.visits)) := by
    rw [placedPieces_visits]
    exact ⟨hids, fun _ _ => Std.HashMap.getElem?_empty⟩
  obtain ⟨mid, hvisits, hentered⟩ := planVisits_fresh hallowed hfresh
  rw [placedPieces_visits] at hentered
  exact ⟨mid, hvisits, hentered⟩

/-- When every step is planned, the loop references decide. -/
theorem plan_of_visits {f : Function ι} {mid : Context ι}
    (hvisits : planVisits f.visits (Context.empty : Context ι) = .ok () mid) (cx : Context ι) :
    (∀ d, firstLoopDefect? mid.ledger f.scope.allStmts = some d →
        Context.plan f cx = .error (.malformedTree d) mid)
      ∧ (firstLoopDefect? mid.ledger f.scope.allStmts = none →
        ∃ size cx', Context.plan f cx = .ok size cx') := by
  constructor
  · intro d hdefect
    have hset : (set (Context.empty : Context ι) : CompactM ι PUnit) cx = .ok ⟨⟩ Context.empty := rfl
    have hget : (get : CompactM ι (Context ι)) mid = .ok mid mid := rfl
    rw [Context.plan, bind_of_ok hset, bind_of_ok hvisits, bind_of_ok hget, hdefect]
    rfl
  · intro hnone
    exact ⟨_, _, plan_eq_ok_iff.mpr ⟨mid, hvisits, hnone, rfl, rfl⟩⟩

/-- A well-formed function with distinct identities can be planned. -/
theorem exists_plan {f : Function ι} (hids : (idsOf f.pieces).Nodup) (hwell : f.WellFormed)
    (cx : Context ι) : ∃ size cx', Context.plan f cx = .ok size cx' := by
  have hallowed : ∀ v ∈ f.visits, v.Allowed :=
    (forall_visits (P := Visit.Allowed) (fun _ => trivial) trivial f).mpr
      ⟨hwell.noFunctions, hwell.fewExprs⟩
  obtain ⟨mid, hvisits, hentered⟩ := exists_planVisits hids hallowed
  apply (plan_of_visits hvisits cx).2
  -- A loop reference names a statement of the function, and all of these are in the ledger now.
  apply List.findSome?_eq_none_iff.mpr
  intro target htarget
  obtain ⟨s, hs, hloop⟩ := List.mem_filterMap.mp htarget
  obtain ⟨t, ht, rfl, hkind⟩ := hwell.loops s hs target hloop
  obtain ⟨o, hentry⟩ := hentered.cells _ (f.stmt_mem_cellsOf ht)
  exact (loopDefect?_eq_none_iff _ _ _).mpr
    ⟨⟨_, hentry, rfl⟩, (mem_loopTargets_iff _ _).mpr ⟨t, ht, rfl, hkind⟩⟩

end Context

def breakInLoop : Function Nat :=
  let name : Text := ⟨[105], by decide⟩
  { scope :=
      ⟨0, [⟨1, ⟨2, name⟩, .scalar .i32, false⟩],
        [⟨⟨3, .whileLoop, some ⟨1, 1⟩, none, none, []⟩,
          some ⟨4, [], [⟨⟨5, .breakLoop, none, some 3, none, []⟩, none, []⟩]⟩,
          [.node ⟨6, .ident, 0, .scalar .i32, some ⟨7, name⟩, none⟩ (.none maxChildren)]⟩]⟩
    args := [⟨8, .scalar .u8⟩] }

theorem breakInLoop_wellFormed : breakInLoop.WellFormed := ⟨by decide, by decide, by decide⟩

/-- A break in a loop is planned in any context. -/
theorem exists_plan_breakInLoop (cx : Context Nat) :
    ∃ size cx', Context.plan breakInLoop cx = .ok size cx' ∧ size ≤ Block.maxSize := by
  obtain ⟨size, cx', hplan⟩ := Context.exists_plan (by decide) breakInLoop_wellFormed cx
  have hsize := (Context.plan_run hplan).size_eq
  refine ⟨size, cx', hplan, ?_⟩
  rw [hsize]
  decide

end TreePack
