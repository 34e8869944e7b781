import TreePack.Proofs.CheckedTrees
import TreePack.Proofs.StoredTrees

namespace TreePack

def Mark.ref? : Mark → Option (Offset × Offset)
  | .ref source target => some (source, target)
  | _ => none

theorem Mark.ref?_eq_some_iff {m : Mark} {source target : Offset} :
    m.ref? = some (source, target) ↔ m = .ref source target := by
  cases m with
  | ref s t => simp [Mark.ref?]
  | span s | stmt o | loop o | expr => simp [Mark.ref?]

namespace Findings

section

variable {β : Type} (list : Findings → List β) {what : Mark → Option β}
  (set : Findings → Std.HashSet Offset) {note : Offset → Mark}

/-- A list to which each mark adds what it is about. -/
theorem list_markAll (hmark : ∀ f m, list (f.mark m) = list f ++ (what m).toList) (f : Findings)
    (ms : List Mark) : list (f.markAll ms) = list f ++ ms.filterMap what := by
  induction ms generalizing f with
  | nil => exact (List.append_nil _).symm
  | cons m ms ih =>
    rw [markAll, ih, hmark, List.append_assoc, List.filterMap_cons]
    cases what m <;> rfl

/-- A set that has the offsets of marks of one kind. -/
theorem contains_markAll {o : Offset}
    (hmark : ∀ f m, (set (f.mark m)).contains o ↔ (set f).contains o ∨ note o = m) (f : Findings)
    (ms : List Mark) : (set (f.markAll ms)).contains o ↔ (set f).contains o ∨ note o ∈ ms := by
  induction ms generalizing f with
  | nil => simp [markAll]
  | cons m ms ih => rw [markAll, ih, hmark, List.mem_cons, or_assoc]

end

/-- The spans keep the order in which the marks claim them. -/
theorem spans_markAll (f : Findings) (ms : List Mark) :
    (f.markAll ms).spans.toList = f.spans.toList ++ ms.filterMap Mark.span? := by
  apply list_markAll fun f => f.spans.toList
  intro f m
  cases m <;> simp [mark, Mark.span?]

theorem loopRefs_markAll (f : Findings) (ms : List Mark) :
    (f.markAll ms).loopRefs.toList = f.loopRefs.toList ++ ms.filterMap Mark.ref? := by
  apply list_markAll fun f => f.loopRefs.toList
  intro f m
  cases m <;> simp [mark, Mark.ref?]

theorem contains_insert_iff (s : Std.HashSet Offset) (o o' : Offset) :
    (s.insert o').contains o ↔ s.contains o ∨ o = o' := by
  rw [Std.HashSet.contains_insert, Bool.or_eq_true, beq_iff_eq]
  exact or_comm.trans (or_congr_right eq_comm)

/-- The statements the findings know after the marks: those known before, and those among the
marks. -/
theorem contains_stmts_markAll (f : Findings) (ms : List Mark) (o : Offset) :
    (f.markAll ms).stmts.contains o ↔ f.stmts.contains o ∨ Mark.stmt o ∈ ms := by
  apply contains_markAll stmts
  intro f m
  cases m with
  | stmt o' =>
    rw [Mark.stmt.injEq]
    exact contains_insert_iff f.stmts o o'
  | span s | loop o' | ref source target | expr => simp [mark]

theorem contains_loops_markAll (f : Findings) (ms : List Mark) (o : Offset) :
    (f.markAll ms).loops.contains o ↔ f.loops.contains o ∨ Mark.loop o ∈ ms := by
  apply contains_markAll loops
  intro f m
  cases m with
  | loop o' =>
    rw [Mark.loop.injEq]
    exact contains_insert_iff f.loops o o'
  | span s | stmt o' | ref source target | expr => simp [mark]

/-- Spans with different starts can be noted, none of which has been claimed before. -/
theorem admits_of_nodup {f : Findings} {ms : List Mark}
    (hnodup : ((ms.filterMap Mark.span?).map Span.start).Nodup)
    (hfree : ∀ n ∈ (ms.filterMap Mark.span?).map Span.start, f.claimed.contains n = false) :
    f.Admits ms := by
  induction ms generalizing f with
  | nil => trivial
  | cons m ms ih =>
    cases m with
    | span s =>
      obtain ⟨hnotMem, hnodup⟩ := List.nodup_cons.mp hnodup
      obtain ⟨hself, hrest⟩ := List.forall_mem_cons.mp hfree
      refine ⟨hself, ih hnodup fun n hn => ?_⟩
      -- Noting a span claims its start, and no later span begins there.
      have hne : s.start ≠ n := by
        rintro rfl
        exact hnotMem hn
      have hbeq : (s.start == n) = false := beq_eq_false_iff_ne.mpr hne
      change (f.claimed.insert s.start).contains n = false
      rw [Std.HashSet.contains_insert, hbeq, hrest n hn]
      rfl
    | stmt o | loop o | ref source target | expr => exact ⟨trivial, ih hnodup hfree⟩

end Findings

/-- A loop reference passes when its target was checked as a statement and was checked to be of a
loop kind. The target may stand anywhere in the tree, before or behind the reference. -/
theorem checkLoopRef_eq_ok_iff (f : Findings) (ref : Offset × Offset) :
    Check.checkLoopRef f ref = .ok () ↔ f.stmts.contains ref.2 ∧ f.loops.contains ref.2 := by
  unfold Check.checkLoopRef
  by_cases hstmt : f.stmts.contains ref.2
  · by_cases hloop : f.loops.contains ref.2
    · simp [hstmt, hloop]
    · simp [hstmt, hloop]
  · simp [hstmt]

theorem forM_eq_ok_iff {α ε : Type} {step : α → Except ε Unit} {xs : List α} :
    xs.forM step = .ok () ↔ ∀ x ∈ xs, step x = .ok () := by
  induction xs with
  | nil => exact ⟨fun _ _ h => (List.not_mem_nil h).elim, fun _ => rfl⟩
  | cons x xs ih =>
    rw [List.forall_mem_cons, ← ih]
    change (step x >>= fun _ => xs.forM step) = .ok () ↔ _
    cases step x with
    | error e => simp [bind, Except.bind]
    | ok u => simp [bind, Except.bind]

/-- What is left once the walk is over: the loop references, judged against all the statements and
loops found, and the spans, which sorted by their start must leave no gap and not overlap. -/
theorem exists_finish_iff (p : Packed) (f : Findings) :
    (∃ report, Check.finish p f = .ok report)
      ↔ (∀ ref ∈ f.loopRefs.toList, f.stmts.contains ref.2 ∧ f.loops.contains ref.2)
        ∧ Check.checkCover p.block.size 0 (f.spans.toList.mergeSort fun a b => a.start ≤ b.start)
          = .ok () := by
  simp only [← checkLoopRef_eq_ok_iff, ← forM_eq_ok_iff, Check.finish]
  cases f.loopRefs.toList.forM (Check.checkLoopRef f) with
  | error e => simp [bind, Except.bind]
  | ok u =>
    cases Check.checkCover p.block.size 0 (f.spans.toList.mergeSort fun a b => a.start ≤ b.start) with
    | error e => simp [bind, Except.bind]
    | ok u => simp [bind, Except.bind, pure, Except.pure]

theorem recognizes_claimArg (b : Block) (o : Offset) :
    Recognizes (Check.claim b o (Stored.size TypeDesc) .argType)
      (MarksOf Leaf.id (fun t => (argPiece t).HeldIn b id) (fun t => [argMark t]) o) := by
  refine (recognizes_claim b o _ _).congr fun ms => ⟨?_, ?_⟩
  · rintro ⟨haligned, hle, rfl⟩
    obtain ⟨t, ht⟩ : ∃ t : TypeDesc, Stored.readAt b o = .ok t := Stored.exists_readAt hle
    exact ⟨⟨o, t⟩, rfl, (held_single _ _).mpr ⟨haligned, ht⟩, rfl⟩
  · rintro ⟨t, rfl, ht, rfl⟩
    obtain ⟨haligned, hread⟩ := (held_single _ _).mp ht
    exact ⟨haligned, Block.le_of_holds hread, rfl⟩

/-- The walk of the verifier accepts exactly the blocks that hold some function at the offsets
given, and the marks it leaves are that function's. Nothing is said yet of loops, of sharing or of
coverage. -/
theorem recognizes_checkAll (p : Packed) :
    Recognizes (Check.checkAll p) fun ms =>
      ∃ f : Function Offset, (f.scope.id = p.scope ∧ f.args.map (·.id) = p.args)
        ∧ FoundScope p.block (Check.checkDepth p.block) f.scope
        ∧ Held p.block id (f.args.map argPiece) ∧ ms = f.marks := by
  refine ((recognizes_checkScope p.block _ p.scope).bind
    (Recognizes.nodes (recognizes_claimArg p.block) p.args)).congr fun ms => ⟨?_, ?_⟩
  · rintro ⟨_, _, ⟨scope, hscope, hfound, rfl⟩, ⟨args, hids, hheld, rfl⟩, rfl⟩
    refine ⟨⟨scope, args⟩, ⟨hscope, hids⟩, hfound, List.forall_mem_map.mpr hheld, ?_⟩
    rw [Function.marks, ← List.map_eq_flatMap]
  · rintro ⟨⟨scope, args⟩, ⟨hscope, hids⟩, hfound, hheld, rfl⟩
    refine ⟨_, _, ⟨scope, hscope, hfound, rfl⟩, ⟨args, hids, List.forall_mem_map.mp hheld, rfl⟩, ?_⟩
    rw [Function.marks, ← List.map_eq_flatMap]

/-- The references that were noted lead to loops just if the loop references of the tree name loops of it. -/
theorem loopRefs_lead_iff (f : Function Offset) :
    (∀ ref ∈ (Findings.empty.markAll f.marks).loopRefs.toList,
        (Findings.empty.markAll f.marks).stmts.contains ref.2
          ∧ (Findings.empty.markAll f.marks).loops.contains ref.2)
      ↔ ∀ s ∈ f.scope.allStmts, ∀ target ∈ s.head.loop,
          ∃ t ∈ f.scope.allStmts, t.id = target ∧ t.head.kind.isLoopTarget := by
  -- All three lists start empty, so they hold the marks of the tree and nothing else.
  have hstmts : ∀ o, (Findings.empty.markAll f.marks).stmts.contains o
      ↔ ∃ t ∈ f.scope.allStmts, t.id = o := by
    intro o
    rw [Findings.contains_stmts_markAll, f.stmt_mem_marks_iff]
    simp [Findings.empty]
  have hloops : ∀ o, (Findings.empty.markAll f.marks).loops.contains o
      ↔ ∃ t ∈ f.scope.allStmts, t.id = o ∧ t.head.kind.isLoopTarget := by
    intro o
    rw [Findings.contains_loops_markAll, f.loop_mem_marks_iff]
    simp [Findings.empty]
  have hrefs : ∀ source target, (source, target) ∈ (Findings.empty.markAll f.marks).loopRefs.toList
      ↔ ∃ t ∈ f.scope.allStmts, t.id = source ∧ t.head.loop = some target := by
    intro source target
    rw [Findings.loopRefs_markAll, ← f.ref_mem_marks_iff, List.mem_append, List.mem_filterMap]
    simp only [Mark.ref?_eq_some_iff, exists_eq_right]
    exact or_iff_right List.not_mem_nil
  simp only [hstmts, hloops]
  constructor
  · intro h s hs target htarget
    exact (h (s.id, target) ((hrefs _ _).mpr ⟨s, hs, rfl, htarget⟩)).2
  · rintro h ⟨source, target⟩ href
    obtain ⟨s, hs, -, hloop⟩ := (hrefs source target).mp href
    obtain ⟨t, ht, hid, htarget⟩ := h s hs target hloop
    exact ⟨⟨t, ht, hid⟩, t, ht, hid, htarget⟩

theorem len_pos_of_mem_extentsOf {f : Function Offset} {e : Extent} (h : e ∈ extentsOf f.marks) :
    0 < e.len := by
  obtain ⟨piece, -, rfl⟩ := List.mem_map.mp (f.extents_perm.mem_iff.mp h)
  exact piece.extent_len_pos id

/-- The spans that were noted tile the block just if the pieces of the tree do. -/
theorem checkCover_marks_iff (f : Function Offset) (size : Nat) :
    Check.checkCover size 0 ((Findings.empty.markAll f.marks).spans.toList.mergeSort
        fun a b => a.start ≤ b.start) = .ok () ↔ Tiles size (f.pieces.map (Piece.extent id)) := by
  have hspans : (Findings.empty.markAll f.marks).spans.toList = f.marks.filterMap Mark.span? :=
    Findings.spans_markAll _ _
  have hlen : ∀ s ∈ f.marks.filterMap Mark.span?, 0 < s.len := by
    intro s hs
    have hextent : s.extent ∈ extentsOf f.marks := List.mem_map_of_mem hs
    exact len_pos_of_mem_extentsOf hextent
  have hperm := f.extents_perm
  rw [hspans, checkCover_mergeSort_iff hlen]
  exact ⟨Tiles.perm hperm, Tiles.perm hperm.symm⟩

/-- Checking a well-formed tree that stands at its own offsets notes down all its marks. -/
theorem Packed.checkAll_of_relocates {p : Packed} {f : Function Offset} (h : p.Relocates (fun o => o) f)
    (hwell : f.WellFormed) :
    Check.checkAll p Findings.empty = .ok () (Findings.empty.markAll f.marks) := by
  obtain ⟨hscopeHeld, hargsHeld⟩ := (held_append _ _).mp h.held
  -- The tiles leave no room for a tree with more levels than the check goes down.
  have hheight : f.scope.height ≤ Check.checkDepth p.block := by
    have hle := h.height_le
    change f.scope.height * 8 ≤ p.block.size at hle
    unfold Check.checkDepth
    omega
  -- Pieces that tile the block begin at different places, so no start is claimed twice.
  have hadmits : Findings.empty.Admits f.marks := by
    have htiles : Tiles p.block.size (extentsOf f.marks) := h.tiles.perm f.extents_perm.symm
    have hstarts : ((extentsOf f.marks).map Extent.start).Nodup :=
      nodup_starts htiles.apart fun e he => len_pos_of_mem_extentsOf he
    rw [extentsOf, List.map_map] at hstarts
    exact Findings.admits_of_nodup hstarts fun n _ => Std.HashSet.contains_empty
  exact (recognizes_checkAll p _ _).mpr ⟨f.marks, ⟨f, ⟨h.root.symm, h.args.symm⟩,
    ⟨hheight, hscopeHeld, hwell.noFunctions, hwell.fewExprs⟩, hargsHeld, rfl⟩, hadmits, rfl⟩

/-- A packed function is accepted just if it is a tree that stands at its own offsets. -/
theorem Packed.exists_report_iff (p : Packed) :
    (∃ report, p.verify = .ok report)
      ↔ ∃ f : Function Offset, f.WellFormed ∧ p.Relocates (fun o => o) f := by
  -- A block verifies if the walk goes through and what follows it does.
  have hverify : (∃ report, p.verify = .ok report) ↔ ∃ f', Check.checkAll p Findings.empty = .ok () f'
      ∧ ∃ report, Check.finish p f' = .ok report := by
    unfold verify
    cases Check.checkAll p Findings.empty with
    | ok u f' => simp
    | error stop f' => simp
  rw [hverify]
  constructor
  · -- The walk gives the tree, and what follows makes it well-formed and its extents tile.
    rintro ⟨f', hrun, hfinish⟩
    obtain ⟨_, ⟨f, ⟨hscope, hargs⟩, hfound, hargsHeld, rfl⟩, -, rfl⟩ := (recognizes_checkAll p _ _).mp hrun
    obtain ⟨hrefs, hcover⟩ := (exists_finish_iff p _).mp hfinish
    refine ⟨f, ⟨hfound.noFunctions, hfound.fewExprs, (loopRefs_lead_iff f).mp hrefs⟩, hscope.symm, hargs.symm,
      ?_, (checkCover_marks_iff f _).mp hcover⟩
    exact (held_append _ _).mpr ⟨hfound.held, hargsHeld⟩
  · rintro ⟨f, hwell, h⟩
    refine ⟨Findings.empty.markAll f.marks, Packed.checkAll_of_relocates h hwell, ?_⟩
    exact (exists_finish_iff p _).mpr
      ⟨(loopRefs_lead_iff f).mpr hwell.loops, (checkCover_marks_iff f _).mpr h.tiles⟩

/-- A block that holds a well-formed function verifies. -/
theorem Packed.Relocates.exists_report {ι : Type} {p : Packed} {place : ι → Offset} {f : Function ι}
    (h : p.Relocates place f) (hwell : f.WellFormed) : ∃ report, p.verify = .ok report :=
  p.exists_report_iff.mpr ⟨f.stored place, hwell.stored, h.stored⟩

/-- A packed function is accepted exactly if it is a tree whose nodes have been given offsets. -/
theorem Packed.verify_accepts_iff (p : Packed) :
    (∃ report, p.verify = .ok report)
      ↔ ∃ (ι : Type) (f : Function ι) (place : ι → Offset), f.WellFormed ∧ p.Relocates place f := by
  constructor
  · intro h
    obtain ⟨f, hwell, hrelocates⟩ := p.exists_report_iff.mp h
    exact ⟨Offset, f, fun o => o, hwell, hrelocates⟩
  · rintro ⟨ι, f, place, hwell, hrelocates⟩
    exact hrelocates.exists_report hwell

end TreePack
