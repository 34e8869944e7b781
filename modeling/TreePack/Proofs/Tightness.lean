import TreePack.Proofs.Accounts
import TreePack.Proofs.Renaming

namespace TreePack

/-- Padded pieces end at an aligned offset. -/
theorem piecesSize_mod {ι : Type} (ps : List (Piece ι)) : piecesSize ps % alignment = 0 := by
  induction ps with
  | nil => rfl
  | cons p ps ih =>
    have hfirst := alignUp_mod p.size
    rw [piecesSize]
    unfold alignment at *
    omega

/-- The heap has room for every block that holds a tree. -/
theorem Packed.Relocates.size_le_max {ι : Type} {p : Packed} {place : ι → Offset} {f : Function ι}
    (h : p.Relocates place f) : p.block.size ≤ Block.maxSize := by
  have hlimit : p.block.size < sizeLimit := p.block.size_lt
  have haligned := piecesSize_mod f.pieces
  rw [← h.size_eq] at haligned
  -- The one size between both limits is no multiple of the alignment.
  unfold Block.maxSize sizeLimit alignment at *
  omega

/-- What is read off a packed function that passes the check: a tree that stands at its own offsets. -/
theorem Packed.exists_read_of_verify {p : Packed} {report : Report} (h : p.verify = .ok report) :
    ∃ g, p.read = .ok g ∧ g.WellFormed ∧ p.Relocates id g ∧ g.stored id = g := by
  obtain ⟨f, hwell, hf⟩ := p.exists_report_iff.mp ⟨report, h⟩
  have hg : p.Relocates id (f.stored id) := hf.stored
  have hread : p.read = .ok (f.stored id) := hf.read hwell
  -- Nothing is lost when it is stored once more, since reading it twice gives one tree.
  have hsame := hread.symm.trans (hg.read hwell.stored)
  exact ⟨f.stored id, hread, hwell.stored, hg, (Except.ok.inj hsame).symm⟩

structure Packed.ReadsLike (p q : Packed) : Prop where
  argTypes : ∃ types, p.argTypes = .ok types ∧ q.argTypes = .ok types
  text : ∀ depth, ∃ text, p.root.dump depth = .ok text ∧ q.root.dump depth = .ok text

/-- A tree that is read off one block, put at other offsets in another one. -/
theorem Packed.Relocates.readsLike {p q : Packed} {place : Offset → Offset} {g : Function Offset}
    (hp : p.Relocates id g) (hq : q.Relocates place g) (hwell : g.WellFormed) (hstored : g.stored id = g) :
    p.ReadsLike q := by
  refine ⟨⟨_, (hp.shows hwell).argTypes, (hq.shows hwell).argTypes⟩, fun depth => ?_⟩
  have hscope : g.scope.stored id = g.scope := congrArg Function.scope hstored
  -- No location of the tree has the word for its absence, or it would have been lost before.
  have hlocs := (hp.dump_stored_eq_iff hwell depth).mp (congrArg (Scope.dump · depth) hscope)
  have hsame := (hq.dump_stored_eq_iff hwell depth).mpr hlocs
  have htext := hp.dump hwell depth
  have htext' := hq.dump hwell depth
  rw [hscope] at htext
  rw [hsame] at htext'
  exact ⟨_, htext, htext'⟩

variable {ι : Type} [DecidableEq ι] [Hashable ι]

structure Packed.TightFor (p : Packed) (report : Report) (f : Function ι) : Prop where
  plan : ∀ cx, ∃ planned, Context.plan f cx = .ok p.block.size planned
    ∧ planned.reservations.size = report.spans
  /-- The usual limit admits a block of this size, and the heap has room for it. -/
  room : p.block.size ≤ Options.standard.maxBlockBytes
    ∧ ∃ block, (Allocator.heap : Allocator ι) p.block.size = .ok block ∧ block.size = p.block.size
  compact : ∀ (options : Options) (allocator : Allocator ι) (block : Block) (d : Decl ι),
    d.body = some (.tree f) → p.block.size ≤ options.maxBlockBytes → allocator p.block.size = .ok block →
    block.size = p.block.size → ∃ stats q,
      d.compact options allocator = (.ok (.compacted stats), { d with body := some (.packed q) })
        ∧ q.block.size = p.block.size ∧ p.ReadsLike q

/-- A packed function that passes the check is as tight as what the tree that is read off it is compacted to,
whatever identities the nodes of the tree are given. -/
theorem Packed.tight_of_verify {p : Packed} {report : Report} (h : p.verify = .ok report) :
    ∃ g, p.read = .ok g ∧ ∀ {ι : Type} [DecidableEq ι] [Hashable ι] (r : Offset → ι),
      ((idsOf g.pieces).map r).Nodup → p.TightFor report (g.rename r) := by
  obtain ⟨g, hread, hwell, hp, hstored⟩ := exists_read_of_verify h
  refine ⟨g, hread, fun {ι} _ _ r hids => ?_⟩
  have hreport : report = ⟨g.pieces.length, g.scope.allStmts.length, g.exprs.length⟩ :=
    Except.ok.inj (h.symm.trans (hp.verify_eq hwell))
  have hsize : piecesSize (g.rename r).pieces = p.block.size := by
    rw [g.pieces_rename, piecesSize_map_rename, hp.size_eq]
  have hwell' : (g.rename r).WellFormed := hwell.relabel r sameLoc
  rw [← g.idsOf_rename] at hids
  have hplan (cx : Context ι) : ∃ planned, Context.plan (g.rename r) cx = .ok p.block.size planned := by
    obtain ⟨size, planned, hplan⟩ := Context.exists_plan hids hwell' cx
    rw [(Context.plan_run hplan).size_eq, hsize] at hplan
    exact ⟨planned, hplan⟩
  have hmax := hp.size_le_max
  constructor
  case plan =>
    intro cx
    obtain ⟨planned, hplan⟩ := hplan cx
    refine ⟨planned, hplan, ?_⟩
    rw [(Context.plan_run hplan).size_reservations, g.pieces_rename, List.length_map, hreport]
  case room => exact ⟨Options.le_standard hmax, Allocator.heap_ok hmax⟩
  case compact =>
    intro options allocator block d hbody hlimit halloc hblock
    obtain ⟨planned, hplan⟩ := hplan Context.empty
    obtain ⟨stop, hrun, hcompact⟩ := Decl.compactTree_of_plan hplan hlimit halloc hblock
    have hq := (Context.plan_run hplan).relocates hblock hrun
    -- The renamed tree at the new offsets is the tree at some offsets.
    have hq' := (relocates_relabel_iff (fun _ => rfl)).mp hq
    exact ⟨stop.stats, _, Decl.compact_of_tree hbody hcompact, hrun.size.trans hblock,
      hp.readsLike hq' hwell hstored⟩

/-- A function of no statements whose block no compaction gives: the argument types stand in the opposite order,
the base of one of them is unknown, and the bytes between its fields are not zero. -/
def handmade : Packed :=
  ⟨⟨(Stored.encode (⟨none, 0, none, 0⟩ : ScopeRecord Offset) ++ [200, 1, 255, 255] ++ List.replicate 12 0
      ++ Stored.encode (TypeDesc.scalar .u64)).toArray, by decide⟩, ⟨0⟩, [⟨48⟩, ⟨32⟩]⟩

def handmadeTree : Function Offset :=
  ⟨⟨⟨0⟩, [], []⟩, [⟨⟨48⟩, .scalar .u64⟩, ⟨⟨32⟩, { TypeDesc.scalar .void with pointers := 1 }⟩]⟩

/-- The arguments stand in the opposite order, but the extents tile the block. -/
theorem handmade_relocates : handmade.Relocates id handmadeTree := by
  have hfollow : Follow 0 [⟨0, 32⟩, ⟨32, 16⟩, ⟨48, 16⟩] 64 := ⟨rfl, rfl, rfl, rfl⟩
  have hperm : ([⟨0, 32⟩, ⟨32, 16⟩, ⟨48, 16⟩] : List Extent).Perm [⟨0, 32⟩, ⟨48, 16⟩, ⟨32, 16⟩] :=
    (List.Perm.swap _ _ _).cons _
  refine ⟨rfl, rfl, ?_, hfollow.tiles.perm hperm⟩
  refine (held_cons _ _).mpr ⟨(held_single _ _).mpr ⟨rfl, ?_⟩, (held_cons _ _).mpr
    ⟨(held_single _ _).mpr ⟨rfl, ?_⟩, (held_cons _ _).mpr ⟨(held_single _ _).mpr ⟨rfl, ?_⟩, held_nil⟩⟩⟩
  all_goals rfl

/-- The block made by hand verifies, is read, and is planned again under other names. -/
theorem tight_of_verify_handmade :
    handmade.verify = .ok ⟨3, 0, 0⟩ ∧ ∃ g, handmade.read = .ok g
      ∧ ((idsOf g.pieces).map Offset.toNat).Nodup ∧ handmade.TightFor ⟨3, 0, 0⟩ (g.rename Offset.toNat) := by
  have hwell : handmadeTree.WellFormed := ⟨by decide, by decide, by decide⟩
  have hverify : handmade.verify = .ok ⟨3, 0, 0⟩ := handmade_relocates.verify_eq hwell
  obtain ⟨g, hread, htight⟩ := Packed.tight_of_verify hverify
  have hg : g = handmadeTree := Except.ok.inj (hread.symm.trans (handmade_relocates.read hwell))
  have hids : ((idsOf g.pieces).map Offset.toNat).Nodup := by
    rw [hg]
    decide
  exact ⟨hverify, g, hread, hids, htight Offset.toNat hids⟩

end TreePack
