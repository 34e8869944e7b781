import TreePack.Proofs.Dumps
import TreePack.Proofs.Walks

namespace TreePack

namespace SourceLoc

def last : SourceLoc := ⟨0xFFFFFFFF, 0xFFFFFFFF⟩

/-- Packing loses nothing: line and column have their own halves of the word. -/
theorem pack_inj {a b : SourceLoc} : a.pack = b.pack ↔ a = b := by
  constructor
  · intro h
    rw [← unpack_pack a, h, unpack_pack]
  · exact congrArg pack

/-- One location packs to the word that stands for none. -/
theorem pack_eq_absent_iff (loc : SourceLoc) : loc.pack = Offset.absent ↔ loc = last := by
  have hlast : last.pack = Offset.absent := rfl
  rw [← hlast, pack_inj]

end SourceLoc

/-- Every other location reads back as it was. -/
theorem storedLoc_of_ne_last {loc : Option SourceLoc} (h : loc ≠ some SourceLoc.last) :
    storedLoc loc = loc := by
  apply (storedLoc_eq_iff loc).mpr
  intro l hl habsent
  apply h
  rw [hl, (SourceLoc.pack_eq_absent_iff l).mp habsent]

/-- The last location reads back as none. -/
theorem storedLoc_last : storedLoc (some SourceLoc.last) = none := rfl

variable {ι : Type}

/-- A walk that reaches a statement in the tree reaches a view of its stored location in the block. -/
theorem Packed.Relocates.loc_of_walk {p : Packed} {place : ι → Offset} {f : Function ι}
    (h : p.Relocates place f) (hwell : f.WellFormed) {ts : List Turn} {s : Stmt ι}
    (hwalk : (Node.scope f.scope).walk ts = some (.stmt s)) :
    ∃ v, p.walk ts = .ok (some (.stmt v)) ∧ v.loc = .ok (storedLoc s.head.loc) := by
  have hroot := h.heldIn hwell
  have hheld := hroot.of_walk hwalk
  refine ⟨⟨p.block, place s.id⟩, ?_, StmtView.loc_of_held hheld.held.1⟩
  rw [h.walk_eq, hroot.walk (Node.owned_of_walk hwalk), hwalk]
  rfl

/-- Of a function that was planned and for which a block was allocated, every statement is reached in the
block as it is in the tree, and its view gives back its location exactly if that is not the last one. -/
theorem Context.write_loc_iff [DecidableEq ι] [Hashable ι] {f : Function ι}
    {cx planned allocated : Context ι} {size : Nat} {allocator : Allocator ι}
    (hplan : Context.plan f cx = .ok size planned)
    (halloc : Context.allocate allocator planned = .ok () allocated) :
    ∃ p cx', Context.write f allocated = .ok p cx' ∧ ∀ s ∈ f.scope.allStmts,
      ∃ ts v, (Node.scope f.scope).walk ts = some (.stmt s) ∧ p.walk ts = .ok (some (.stmt v))
        ∧ (v.loc = .ok s.head.loc ↔ s.head.loc ≠ some SourceLoc.last)
        ∧ (s.head.loc = some SourceLoc.last → v.loc = .ok none) := by
  obtain ⟨p, cx', hwrite, hrelocates, hwell⟩ := Context.write_relocates hplan halloc
  refine ⟨p, cx', hwrite, fun s hs => ?_⟩
  obtain ⟨ts, hwalk⟩ := f.scope.exists_walk s hs
  obtain ⟨v, hview, hloc⟩ := hrelocates.loc_of_walk hwell hwalk
  refine ⟨ts, v, hwalk, hview, ?_, ?_⟩
  · constructor
    · intro hkept hlast
      rw [hloc, hlast] at hkept
      cases hkept
    · intro hne
      rw [hloc, storedLoc_of_ne_last hne]
  · intro hlast
    rw [hloc, hlast, storedLoc_last]

theorem write_loc_iff_breakInLoop :
    ∃ size planned allocated, Context.plan breakInLoop Context.empty = .ok size planned
      ∧ Context.allocate Allocator.heap planned = .ok () allocated
      ∧ ∃ p cx', Context.write breakInLoop allocated = .ok p cx' ∧ ∀ s ∈ breakInLoop.scope.allStmts,
        ∃ ts v, (Node.scope breakInLoop.scope).walk ts = some (.stmt s) ∧ p.walk ts = .ok (some (.stmt v))
          ∧ (v.loc = .ok s.head.loc ↔ s.head.loc ≠ some SourceLoc.last)
          ∧ (s.head.loc = some SourceLoc.last → v.loc = .ok none) := by
  obtain ⟨size, planned, allocated, hplan, halloc⟩ :=
    Context.exists_allocated (by decide) breakInLoop_wellFormed (by decide) Context.empty
  exact ⟨size, planned, allocated, hplan, halloc, Context.write_loc_iff hplan halloc⟩

def nopAtLast : Function Nat :=
  { scope := ⟨0, [], [⟨⟨1, .nop, some SourceLoc.last, none, none, []⟩, none, []⟩]⟩
    args := [] }

/-- The statement of `nopAtLast` has a location in the tree and none in the block. -/
theorem loc_lost_nopAtLast :
    ∃ size planned allocated p cx' s v, Context.plan nopAtLast Context.empty = .ok size planned
      ∧ Context.allocate Allocator.heap planned = .ok () allocated
      ∧ Context.write nopAtLast allocated = .ok p cx'
      ∧ (Node.scope nopAtLast.scope).walk [.toStmt 0] = some (.stmt s)
      ∧ p.walk [.toStmt 0] = .ok (some (.stmt v))
      ∧ s.head.loc = some SourceLoc.last ∧ v.loc = .ok none := by
  obtain ⟨size, planned, allocated, hplan, halloc⟩ :=
    Context.exists_allocated (f := nopAtLast) (by decide) ⟨by decide, by decide, by decide⟩ (by decide)
      Context.empty
  obtain ⟨p, cx', hwrite, hrelocates, hwell⟩ := Context.write_relocates hplan halloc
  have hwalk : (Node.scope nopAtLast.scope).walk [.toStmt 0]
      = some (.stmt ⟨⟨1, .nop, some SourceLoc.last, none, none, []⟩, none, []⟩) := rfl
  obtain ⟨v, hview, hloc⟩ := hrelocates.loc_of_walk hwell hwalk
  exact ⟨size, planned, allocated, p, cx', _, v, hplan, halloc, hwrite, hwalk, hview, rfl, hloc⟩

end TreePack
