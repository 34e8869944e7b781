import TreePack.Compact.Decl
import TreePack.Proofs.Accepting
import TreePack.Proofs.PackedDumps
import TreePack.Proofs.Plannable

namespace TreePack

variable {ι : Type} [DecidableEq ι] [Hashable ι]

namespace Decl

/-- The error with which the plan, the limit or the allocator refuses a function, if one of them does. -/
def refusal? (options : Options) (allocator : Allocator ι) (f : Function ι) : Option (CompactError ι) :=
  match Context.plan f Context.empty with
  | .error e _ => some e
  | .ok size _ =>
    if options.maxBlockBytes < size then some (.blockTooLarge size options.maxBlockBytes)
    else
      match allocator size with
      | .error e => some e
      | .ok block => if block.size = size then none else some (.shortBlock size block.size)

variable {options : Options} {allocator : Allocator ι} {f : Function ι}

/-- Nothing refuses a function just if it can be planned, its size keeps to the limit and the allocator gives a
block of this size. -/
theorem refusal?_eq_none_iff :
    refusal? options allocator f = none ↔ ∃ size cx block, Context.plan f Context.empty = .ok size cx
      ∧ size ≤ options.maxBlockBytes ∧ allocator size = .ok block ∧ block.size = size := by
  unfold refusal?
  constructor
  · intro h
    cases hplan : Context.plan f Context.empty with
    | error e cx => simp only [hplan, reduceCtorEq] at h
    | ok size cx =>
      by_cases hlarge : options.maxBlockBytes < size
      · simp only [hplan, hlarge, ↓reduceIte, reduceCtorEq] at h
      · cases halloc : allocator size with
        | error e => simp only [hplan, hlarge, halloc, ↓reduceIte, reduceCtorEq] at h
        | ok block =>
          by_cases hsize : block.size = size
          · exact ⟨size, cx, block, rfl, Nat.le_of_not_lt hlarge, halloc, hsize⟩
          · simp only [hplan, hlarge, halloc, hsize, ↓reduceIte, reduceCtorEq] at h
  · rintro ⟨size, cx, block, hplan, hlimit, halloc, hsize⟩
    simp only [hplan, Nat.not_lt.mpr hlimit, halloc, hsize, ↓reduceIte]

/-- Preparing asks the plan, the limit and the allocator in this order and stops at the first refusal. -/
theorem compactTree_of_refused {e : CompactError ι} (h : refusal? options allocator f = some e) :
    compactTree options allocator f = (.error e, .tree f) := by
  -- The refusals come in the order in which they are asked for: plan, limit, allocator, length.
  have hprepare : ∃ cx, prepare options allocator f Context.empty = .error e cx := by
    unfold refusal? at h
    cases hplan : Context.plan f Context.empty with
    | error e' cx =>
      rw [hplan] at h
      cases h
      exact ⟨cx, bind_of_error hplan _⟩
    | ok size cx =>
      have hallocate : Context.allocate allocator cx = _ :=
        Context.allocate_of_planned (Context.plan_run hplan)
      have hprepare : prepare options allocator f Context.empty = _ := bind_of_ok hplan _
      rw [hplan] at h
      by_cases hlarge : options.maxBlockBytes < size
      · simp only [hlarge, ↓reduceIte, Option.some.injEq] at hprepare h
        rw [← h]
        exact ⟨cx, hprepare⟩
      · simp only [hlarge, ↓reduceIte] at hprepare h
        cases halloc : allocator size with
        | error e' =>
          rw [halloc] at hallocate h
          cases h
          exact ⟨cx, hprepare.trans hallocate⟩
        | ok block =>
          rw [halloc] at hallocate h
          by_cases hsize : block.size = size
          · simp only [hsize, ↓reduceIte, reduceCtorEq] at h
          · simp only [hsize, ↓reduceIte, Option.some.injEq] at hallocate h
            rw [← h]
            exact ⟨cx, hprepare.trans hallocate⟩
  obtain ⟨cx, hprepare⟩ := hprepare
  rw [compactTree, hprepare]

omit [DecidableEq ι] [Hashable ι] in
/-- A relocated function passes the check. -/
theorem check_of_relocates (options : Options) {p : Packed} {place : ι → Offset} (h : p.Relocates place f)
    (hwell : f.WellFormed) : (check options p : Except (CompactError ι) Unit) = .ok () := by
  obtain ⟨report, hverify⟩ := h.exists_report hwell
  by_cases hon : options.verify
  · rw [check, if_pos hon, hverify]
  · rw [check, if_neg hon]

/-- What a planned function is compacted to if its size keeps to the limit and the allocator gives a block of
this size: nothing that follows the allocation fails. -/
theorem compactTree_of_plan {size : Nat} {cx : Context ι} {block : Block}
    (hplan : Context.plan f Context.empty = .ok size cx) (hlimit : size ≤ options.maxBlockBytes)
    (halloc : allocator size = .ok block) (hsize : block.size = size) :
    ∃ stop, WriteRun cx.ledger f.visits 0 ⟨cx.written, { cx.stats with blockBytes := size }, block⟩ stop
      ∧ compactTree options allocator f = (.ok (.compacted stop.stats),
          .packed ⟨stop.block, cx.ledger.offset f.scope.id, f.args.map fun t => cx.ledger.offset t.id⟩) := by
  have hplanned := Context.plan_run hplan
  let allocated : Context ι := { cx with stats := { cx.stats with blockBytes := size }, block := some block }
  have hprepare : prepare options allocator f Context.empty = .ok () allocated := by
    have hallocate : Context.allocate allocator cx = _ := Context.allocate_of_planned hplanned
    simp only [halloc, hsize, ↓reduceIte] at hallocate
    rw [prepare, bind_of_ok hplan, if_neg (Nat.not_lt.mpr hlimit)]
    exact hallocate
  have hfit : piecesSize f.pieces ≤ block.size := Nat.le_of_eq (hplanned.size_eq.symm.trans hsize.symm)
  have hblock : allocated.block = some block := rfl
  obtain ⟨stop, hrun, hwrite⟩ := Context.write_of_pieces hblock hplanned.written hplanned.pieces
    hplanned.pointersIn hfit hplanned.size_reservations
  have hcheck := check_of_relocates options (hplanned.relocates hsize hrun) hplanned.wellFormed
  refine ⟨stop, hrun, ?_⟩
  simp only [compactTree, hprepare, hwrite, allocated, hcheck]

/-- A function that is not refused is relocated. -/
theorem compactTree_run (h : refusal? options allocator f = none) :
    ∃ stats p, ∃ place : ι → Offset,
      compactTree options allocator f = (.ok (.compacted stats), .packed p)
        ∧ p.Relocates place f ∧ f.WellFormed := by
  obtain ⟨size, cx, block, hplan, hlimit, halloc, hsize⟩ := refusal?_eq_none_iff.mp h
  have hplanned := Context.plan_run hplan
  obtain ⟨stop, hrun, hcompact⟩ := compactTree_of_plan hplan hlimit halloc hsize
  exact ⟨_, _, _, hcompact, hplanned.relocates hsize hrun, hplanned.wellFormed⟩

/-- Compacting a declaration compacts its tree and keeps name, type and argument count. -/
theorem compact_of_tree {d : Decl ι} {result : Except (CompactError ι) Outcome} {body : Body ι}
    (hbody : d.body = some (.tree f)) (h : compactTree options allocator f = (result, body)) :
    compact options allocator d = (result, { d with body := some body }) := by
  obtain ⟨name, ty, body'⟩ := d
  subst hbody
  simp only [compact, h]

/-- What becomes of a declaration is decided by its body and, for a scattered one, by what refuses it; a
declaration that is not compacted stays as it was. -/
theorem compact_all_or_nothing (options : Options) (allocator : Allocator ι) (d : Decl ι) :
    match d.body with
    | none => compact options allocator d = (.ok .notAFunction, d)
    | some (.packed _) => compact options allocator d = (.ok .alreadyCompacted, d)
    | some .poisoned => compact options allocator d = (.error .poisoned, d)
    | some (.tree f) =>
      (∀ e cx, Context.plan f Context.empty = .error e cx → e.BlamesTree)
        ∧ match refusal? options allocator f with
          | some e => compact options allocator d = (.error e, d)
          | none => ∃ stats d', compact options allocator d = (.ok (.compacted stats), d')
              ∧ (∃ p, d'.body = some (.packed p))
              ∧ d'.name = d.name ∧ d'.ty = d.ty ∧ d'.argCount = d.argCount := by
  obtain ⟨name, ty, body⟩ := d
  match body with
  | none => rfl
  | some (.packed p) => rfl
  | some .poisoned => rfl
  | some (.tree f) =>
    refine ⟨fun e cx hplan => Context.plan_error hplan, ?_⟩
    cases hrefusal : refusal? options allocator f with
    | some e =>
      have hcompact := compactTree_of_refused hrefusal
      simp only [compact, hcompact]
    | none =>
      -- The argument count of a packed body is the number of its root offsets.
      obtain ⟨stats, p, place, hcompact, hrelocates, -⟩ := compactTree_run hrefusal
      have hargs : p.args.length = f.args.length := by rw [hrelocates.args, List.length_map]
      refine ⟨stats, ⟨name, ty, some (.packed p)⟩, ?_, ⟨p, rfl⟩, rfl, rfl, hargs⟩
      simp only [compact, hcompact]

/-- The dump of a packed body is the dump of the tree it holds, with locations as they read back. -/
theorem dump_of_relocates {d : Decl ι} {p : Packed} {place : ι → Offset} (hbody : d.body = some (.packed p))
    (h : p.Relocates place f) (hwell : f.WellFormed) :
    d.dump = .ok (d.signature (f.args.map (·.val)) ++ (f.scope.stored place).dump 1) := by
  have hargs := (h.shows hwell).argTypes
  have hscope := h.dump hwell 1
  simp only [dump, hbody, hargs, hscope, ok_bind]
  rfl

/-- A scattered function and what it is compacted to are dumped alike, except that the location is lost whose
word stands for its absence. -/
theorem dump_compact_eq_iff {d d' : Decl ι} {stats : Stats} (hbody : d.body = some (.tree f))
    (h : compact options allocator d = (.ok (.compacted stats), d')) :
    ∃ before after, d.dump = .ok before ∧ d'.dump = .ok after
      ∧ (after = before ↔ ∀ s ∈ f.scope.allStmts, ∀ loc ∈ s.head.loc, loc.pack ≠ Offset.absent) := by
  obtain ⟨name, ty, body⟩ := d
  subst hbody
  cases hrefusal : refusal? options allocator f with
  | some e =>
    have hcompact := compactTree_of_refused hrefusal
    simp only [compact, hcompact] at h
    cases h
  | none =>
    obtain ⟨stats', p, place, hcompact, hrelocates, hwell⟩ := compactTree_run hrefusal
    simp only [compact, hcompact] at h
    cases h
    -- Both dumps begin with the same signature, so what follows it decides.
    refine ⟨_, _, rfl, dump_of_relocates rfl hrelocates hwell, ?_⟩
    rw [← hrelocates.dump_stored_eq_iff hwell 1]
    exact String.append_right_inj _

end Decl

/-- The usual limit admits every size that the heap has room for. -/
theorem Options.le_standard {size : Nat} (h : size ≤ Block.maxSize) :
    size ≤ Options.standard.maxBlockBytes := by
  change size ≤ range64 - 1
  unfold Block.maxSize sizeLimit at h
  unfold range64
  omega

def breakInLoopDecl : Decl Nat :=
  ⟨⟨[102], by decide⟩, .scalar .void, some (.tree breakInLoop)⟩

/-- A break in a loop, compacted and dumped. -/
theorem dump_compact_eq_iff_breakInLoop :
    ∃ stats d', Decl.compact Options.standard Allocator.heap breakInLoopDecl = (.ok (.compacted stats), d')
      ∧ ∃ before after, breakInLoopDecl.dump = .ok before ∧ d'.dump = .ok after
        ∧ (after = before
          ↔ ∀ s ∈ breakInLoop.scope.allStmts, ∀ loc ∈ s.head.loc, loc.pack ≠ Offset.absent) := by
  have hrefusal : Decl.refusal? Options.standard Allocator.heap breakInLoop = none := by
    obtain ⟨size, planned, hplan, hmax⟩ := exists_plan_breakInLoop Context.empty
    obtain ⟨block, hheap, hsize⟩ := Allocator.heap_ok (ι := Nat) hmax
    have hlimit : ¬Options.standard.maxBlockBytes < size := by
      change ¬range64 - 1 < size
      unfold Block.maxSize sizeLimit at hmax
      unfold range64
      omega
    rw [Decl.refusal?, hplan]
    simp only [hlimit, hheap, hsize, ↓reduceIte]
  obtain ⟨stats, p, place, hcompact, -⟩ := Decl.compactTree_run hrefusal
  have hdone : Decl.compact Options.standard Allocator.heap breakInLoopDecl
      = (.ok (.compacted stats), { breakInLoopDecl with body := some (.packed p) }) := by
    simp only [Decl.compact, breakInLoopDecl, hcompact]
  exact ⟨stats, _, hdone, Decl.dump_compact_eq_iff rfl hdone⟩

end TreePack
