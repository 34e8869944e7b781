import TreePack.Proofs.Placement
import TreePack.Proofs.Tiling
import TreePack.Proofs.Writing
/-!
A plan and a block make a relocated tree.

`Packed.Relocates` says that a packed function is a tree with offsets in place of identities: the root
offsets are those of the root nodes, the block holds every piece of the tree, and the pieces tile the block.
`Context.write_run` shows that writing a planned function into a block of the planned size succeeds and gives
such a packed function, whatever stood in the block before.
-/

namespace TreePack

variable {ι : Type}

def Piece.extent (place : ι → Offset) (p : Piece ι) : Extent :=
  ⟨(place p.first.id).toNat, alignUp p.size⟩

theorem Piece.extent_len_pos (place : ι → Offset) (p : Piece ι) : 0 < (p.extent place).len := by
  have hsize := p.size_pos
  have halign := le_alignUp p.size
  change 0 < alignUp p.size
  omega

/-- The extents of pieces add up to their padded sizes. -/
theorem totalLen_extents (place : ι → Offset) (ps : List (Piece ι)) :
    totalLen (ps.map (Piece.extent place)) = piecesSize ps := by
  induction ps with
  | nil => rfl
  | cons p ps ih => exact congrArg (alignUp p.size + ·) ih

/-- The packed function is a tree whose nodes stand at the offsets of `place`. -/
structure Packed.Relocates (p : Packed) (place : ι → Offset) (f : Function ι) : Prop where
  root : p.scope = place f.scope.id
  args : p.args = f.args.map fun t => place t.id
  held : Held p.block place f.pieces
  tiles : Tiles p.block.size (f.pieces.map (Piece.extent place))

section

variable {b : Block} {place : ι → Offset}

/-- A row of cells of one size takes their number times that size. -/
theorem rowSize_of_uniform {cs : List (Leaf ι (Cell ι))} {stride : Nat}
    (hsize : ∀ c ∈ cs, c.val.size = stride) : rowSize cs = cs.length * stride := by
  induction cs with
  | nil => exact (Nat.zero_mul _).symm
  | cons c cs ih =>
    rw [rowSize_cons, hsize c List.mem_cons_self, ih fun d hd => hsize d (List.mem_cons_of_mem _ hd),
      List.length_cons, Nat.succ_mul, Nat.add_comm]

/-- The elements of a piece stand in its extent. -/
theorem Piece.HeldIn.has {p : Piece ι} (h : p.HeldIn b place) (huniform : p.Uniform) {q : ι}
    (hq : q ∈ p.cells.map (·.id)) : (p.extent place).Has (place q).toNat := by
  obtain ⟨c, hc, rfl⟩ := List.mem_map.mp hq
  obtain ⟨i, hi⟩ := List.mem_iff_getElem?.mp hc
  have hplace := h.inRow i c hi
  have hlt : i < p.cells.length := (List.getElem?_eq_some_iff.mp hi).1
  have hsize : p.size = p.cells.length * p.first.val.size := rowSize_of_uniform huniform
  have hmul : (i + 1) * p.first.val.size ≤ p.cells.length * p.first.val.size :=
    Nat.mul_le_mul_right _ hlt
  have hpos := p.first.val.size_pos
  have halign := le_alignUp p.size
  rw [Nat.succ_mul] at hmul
  change (place p.first.id).toNat ≤ (place c.id).toNat
    ∧ (place c.id).toNat < (place p.first.id).toNat + alignUp p.size
  omega

/-- The elements of a piece stand at different offsets. -/
theorem Piece.HeldIn.nodup {p : Piece ι} (h : p.HeldIn b place) :
    ((p.cells.map (·.id)).map place).Nodup := by
  have hpos := p.first.val.size_pos
  rw [List.map_map]
  apply List.pairwise_iff_getElem.mpr
  intro i j hi hj hij heq
  rw [List.length_map] at hi hj
  rw [List.getElem_map, List.getElem_map] at heq
  have hfirst := h.inRow i _ (List.getElem?_eq_getElem hi)
  have hsecond := h.inRow j _ (List.getElem?_eq_getElem hj)
  have hmul : (i + 1) * p.first.val.size ≤ j * p.first.val.size := Nat.mul_le_mul_right _ hij
  have heq' : (place p.cells[i].id).toNat = (place p.cells[j].id).toNat := congrArg Offset.toNat heq
  rw [Nat.succ_mul] at hmul
  omega

/-- Nodes of pieces that do not overlap stand at different offsets. -/
theorem nodup_places {ps : List (Piece ι)} (h : Held b place ps) (huniform : ∀ p ∈ ps, p.Uniform)
    (hapart : (ps.map (Piece.extent place)).Pairwise Extent.Apart) :
    ((idsOf ps).map place).Nodup := by
  induction ps with
  | nil => exact List.nodup_nil
  | cons p ps ih =>
    obtain ⟨hhead, htail⟩ := (held_cons p ps).mp h
    obtain ⟨haway, hapart⟩ := List.pairwise_cons.mp hapart
    have huniform' : ∀ p' ∈ ps, p'.Uniform := fun p' hp' => huniform p' (List.mem_cons_of_mem _ hp')
    rw [idsOf_cons, List.map_append]
    refine List.nodup_append.mpr ⟨hhead.nodup, ih htail huniform' hapart, ?_⟩
    rintro o ho o' ho' rfl
    obtain ⟨q, hq, rfl⟩ := List.mem_map.mp ho
    obtain ⟨q', hq', heq⟩ := List.mem_map.mp ho'
    obtain ⟨p', hp', hq'⟩ := List.mem_flatMap.mp hq'
    have hhas := hhead.has (huniform p List.mem_cons_self) hq
    have hhas' := (htail p' hp').has (huniform' p' hp') hq'
    rw [heq] at hhas'
    obtain ⟨hge, hlt⟩ := hhas
    obtain ⟨hge', hlt'⟩ := hhas'
    -- One offset would lie in two extents.
    rcases haway _ (List.mem_map_of_mem hp') with hbefore | hbefore
    · omega
    · omega

/-- A packed function is as large as the pieces of its tree, wherever they stand. -/
theorem Packed.Relocates.size_eq {p : Packed} {f : Function ι} (h : p.Relocates place f) :
    p.block.size = piecesSize f.pieces := by
  have hlen : ∀ e ∈ f.pieces.map (Piece.extent place), 0 < e.len := by
    intro e he
    obtain ⟨piece, -, rfl⟩ := List.mem_map.mp he
    exact piece.extent_len_pos place
  rw [← h.tiles.totalLen_eq hlen, totalLen_extents]

/-- No two nodes of the tree stand at one offset of the block. -/
theorem Packed.Relocates.nodup {p : Packed} {f : Function ι} (h : p.Relocates place f) :
    ((idsOf f.pieces).map place).Nodup := nodup_places h.held f.uniform h.tiles.apart

end

variable [DecidableEq ι] [Hashable ι] {ledger : Ledger ι} {b : Block}

namespace Ledger

/-- Cells of one size stand at multiples of it. -/
theorem HasRow.resolve {pos stride : Nat} {cs : List (Leaf ι (Cell ι))} (hrow : ledger.HasRow pos cs)
    (hsize : ∀ c ∈ cs, c.val.size = stride) {i : Nat} {c : Leaf ι (Cell ι)} (hc : cs[i]? = some c) :
    ledger.resolve c.id = .ok (.ofNat (pos + i * stride)) := by
  induction cs generalizing pos i with
  | nil => cases hc
  | cons first cs ih =>
    cases i with
    | zero =>
      cases hc
      rw [Nat.zero_mul, Nat.add_zero]
      exact hrow.1
    | succ i =>
      have hfirst := hsize first List.mem_cons_self
      have h := ih hrow.2 (fun c hc => hsize c (List.mem_cons_of_mem _ hc)) hc
      rw [hfirst] at h
      -- The element behind the first is the one before it in the rest of the row.
      have hpos : pos + (i + 1) * stride = pos + stride + i * stride := by
        rw [Nat.succ_mul]
        omega
      rw [hpos]
      exact h

/-- Each identity of the pieces has an offset between their start and their end. -/
theorem HasRow.resolve_mem {pos : Nat} {cs : List (Leaf ι (Cell ι))} (hrow : ledger.HasRow pos cs) {q : ι}
    (hq : q ∈ cs.map (·.id)) :
    ∃ pos', ledger.resolve q = .ok (.ofNat pos') ∧ pos ≤ pos' ∧ pos' < pos + rowSize cs := by
  induction cs generalizing pos with
  | nil => cases hq
  | cons c cs ih =>
    have hsize := c.val.size_pos
    rw [rowSize_cons]
    rcases List.mem_cons.mp hq with rfl | hq
    · exact ⟨pos, hrow.1, Nat.le_refl _, by omega⟩
    · obtain ⟨pos', hresolve, hge, hlt⟩ := ih hrow.2 hq
      exact ⟨pos', hresolve, by omega, by omega⟩

/-- Every node of the pieces resolves to an offset inside them. -/
theorem HasPieces.resolve_mem {pos : Nat} {ps : List (Piece ι)} (hpieces : ledger.HasPieces pos ps) {q : ι}
    (hq : q ∈ idsOf ps) :
    ∃ pos', ledger.resolve q = .ok (.ofNat pos') ∧ pos ≤ pos' ∧ pos' < pos + piecesSize ps := by
  induction ps generalizing pos with
  | nil => cases hq
  | cons p ps ih =>
    have halign := le_alignUp p.size
    rw [piecesSize]
    rcases List.mem_append.mp hq with hq | hq
    · obtain ⟨pos', hresolve, hge, hlt⟩ := hpieces.1.resolve_mem hq
      rw [← Piece.size_eq] at hlt
      exact ⟨pos', hresolve, hge, by omega⟩
    · obtain ⟨pos', hresolve, hge, hlt⟩ := ih hpieces.2 hq
      exact ⟨pos', hresolve, by omega, by omega⟩

end Ledger

/-- The bytes of a row of cells of one size are the bytes of each cell at multiples of the size. -/
theorem get?_of_rowBytes {pos stride : Nat} {cs : List (Leaf ι (Cell ι))}
    (hbytes : b.get? pos (rowBytes ledger cs).length = some (rowBytes ledger cs))
    (hsize : ∀ c ∈ cs, c.val.size = stride) {i : Nat} {c : Leaf ι (Cell ι)} (hc : cs[i]? = some c) :
    b.get? (pos + i * stride) c.val.size = some (c.val.map ledger.offset).encode := by
  induction cs generalizing pos i with
  | nil => cases hc
  | cons first cs ih =>
    rw [rowBytes, List.flatMap_cons] at hbytes
    -- The bytes of the row split behind the first cell.
    obtain ⟨hfirst, hrest⟩ := Block.get?_append.mp hbytes
    rw [Cell.length_encode, Cell.size_map] at hfirst hrest
    cases i with
    | zero =>
      cases hc
      rw [Nat.zero_mul, Nat.add_zero]
      exact hfirst
    | succ i =>
      have hstride := hsize first List.mem_cons_self
      have h := ih hrest (fun c hc => hsize c (List.mem_cons_of_mem _ hc)) hc
      rw [hstride] at h
      have hpos : pos + (i + 1) * stride = pos + stride + i * stride := by
        rw [Nat.succ_mul]
        omega
      rw [hpos]
      exact h

theorem Cell.pointers_map {π ρ : Type} (g : π → ρ) (c : Cell π) :
    (c.map g).pointers = c.pointers.map g := by
  have hslots {n : Nat} (v : Vector (Option π) n) :
      (v.map (Option.map g)).toList.reduceOption = v.toList.reduceOption.map g := by
    rw [Vector.toList_map, List.reduceOption_map]
  have hptr (o : Option π) : (o.map g).toList = o.toList.map g := by cases o <;> rfl
  cases c <;> simp only [Cell.map, Cell.pointers, ScopeRecord.map, ScopeRecord.pointers, DeclRecord.map,
    DeclRecord.pointers, StmtRecord.map, StmtRecord.pointers, ExprRecord.map, ExprRecord.pointers, hslots,
    hptr, List.map_append, List.map_nil]

/-- A piece whose bytes stand where it was planned is held there. -/
theorem heldIn_of_planned {p : Piece ι} {pos : Nat} (hrow : ledger.HasRow pos p.cells)
    (huniform : p.Uniform) (haligned : pos % alignment = 0)
    (hbytes : b.get? pos (rowBytes ledger p.cells).length = some (rowBytes ledger p.cells))
    (hptrs : ∀ c ∈ p.cells, ∀ q ∈ c.val.pointers, (ledger.offset q).toNat < b.size) :
    p.HeldIn b ledger.offset := by
  have hlimit : b.size < sizeLimit := b.size_lt
  have hend := Block.le_of_get? hbytes
  rw [length_rowBytes, ← Piece.size_eq] at hend
  have hoffset : ∀ i c, p.cells[i]? = some c → pos + i * p.first.val.size + c.val.size ≤ b.size
      ∧ (ledger.offset c.id).toNat = pos + i * p.first.val.size := by
    intro i c hc
    have hle := Block.le_of_get? (get?_of_rowBytes hbytes huniform hc)
    refine ⟨hle, ?_⟩
    rw [Ledger.offset_of_resolve (hrow.resolve huniform hc)]
    apply Offset.toNat_ofNat
    unfold sizeLimit range64 at *
    omega
  have hbase := (hoffset 0 p.first rfl).2
  rw [Nat.zero_mul, Nat.add_zero] at hbase
  refine ⟨by rw [hbase]; exact haligned, fun i c hc => ?_, fun c hc => ?_⟩
  · rw [hbase, (hoffset i c hc).2]
  · obtain ⟨i, hi⟩ := List.mem_iff_getElem?.mp hc
    apply Block.holds_of_get?
    · intro o ho
      rw [Cell.pointers_map] at ho
      obtain ⟨q, hq, rfl⟩ := List.mem_map.mp ho
      -- The word for an absent pointer is no offset of any block.
      intro habsent
      have hlt := hptrs c hc q hq
      rw [Offset.toNat, habsent] at hlt
      have hmax : Offset.absent.toNat = range64 - 1 := rfl
      unfold sizeLimit range64 at *
      omega
    · rw [Cell.size_map, (hoffset i c hi).2]
      exact get?_of_rowBytes hbytes huniform hi

/-- Pieces whose bytes were written where the ledger has them are held there, if every pointer
resolves to an offset inside the block: no such offset is the one that stands for none. -/
theorem held_of_planned {ps : List (Piece ι)} {pos : Nat} (hpieces : ledger.HasPieces pos ps)
    (huniform : ∀ p ∈ ps, p.Uniform) (haligned : pos % alignment = 0) (hfilled : Filled ledger b pos ps)
    (hptrs : PointersIn ps fun q => (ledger.offset q).toNat < b.size) : Held b ledger.offset ps := by
  induction ps generalizing pos with
  | nil => exact held_nil
  | cons p ps ih =>
    obtain ⟨hhead, htail⟩ := (pointersIn_cons p ps).mp hptrs
    have hnext : (pos + alignUp p.size) % alignment = 0 := by
      have hmod := alignUp_mod p.size
      unfold alignment at *
      omega
    exact (held_cons p ps).mpr
      ⟨heldIn_of_planned hpieces.1 (huniform p List.mem_cons_self) haligned hfilled.1 hhead,
        ih hpieces.2 (fun q hq => huniform q (List.mem_cons_of_mem _ hq)) hnext hfilled.2 htail⟩

/-- Planned pieces follow each other. -/
theorem follow_of_planned {ps : List (Piece ι)} {pos : Nat} (hpieces : ledger.HasPieces pos ps)
    (hend : pos + piecesSize ps < range64) :
    Follow pos (ps.map (Piece.extent ledger.offset)) (pos + piecesSize ps) := by
  induction ps generalizing pos with
  | nil => rfl
  | cons p ps ih =>
    rw [piecesSize] at hend ⊢
    have hstart : (ledger.offset p.first.id).toNat = pos := by
      have hfirst : ledger.resolve p.first.id = .ok (.ofNat pos) := hpieces.1.1
      rw [Ledger.offset_of_resolve hfirst]
      exact Offset.toNat_ofNat (by omega)
    have hrest := ih hpieces.2 (by omega)
    rw [← hstart] at hrest ⊢
    rw [Nat.add_assoc] at hrest
    exact ⟨rfl, hrest⟩

namespace Planned

variable {f : Function ι} {size : Nat} {cx : Context ι} {start stop : Progress}

/-- Each identity of a planned function has an offset inside the plan. -/
theorem resolve (hplan : Planned f size cx) {q : ι} (hq : q ∈ idsOf f.pieces) :
    ∃ pos, cx.ledger.resolve q = .ok (.ofNat pos) ∧ pos < size := by
  obtain ⟨pos, hpos, -, hlt⟩ := hplan.pieces.resolve_mem hq
  have hsize := hplan.size_eq
  exact ⟨pos, hpos, by omega⟩

theorem size_reservations (hplan : Planned f size cx) : cx.reservations.size = f.pieces.length := by
  rw [← Array.length_toList, hplan.reservations, length_reservationsFrom]

/-- Every pointer of a planned function leads to one of its nodes, and every node has an offset. -/
theorem pointersIn (hplan : Planned f size cx) :
    PointersIn f.pieces fun q => ∃ o, cx.ledger.resolve q = .ok o := by
  intro p hp c hc q hq
  obtain ⟨pos, hpos, -⟩ := hplan.resolve (hplan.wellFormed.pointersIn p hp c hc q hq)
  exact ⟨_, hpos⟩

/-- The pieces of a planned function follow each other through the whole plan. -/
theorem follow (hplan : Planned f size cx) (hsize : size < range64) :
    Follow 0 (f.pieces.map (Piece.extent cx.ledger.offset)) size := by
  rw [hplan.size_eq] at hsize ⊢
  have hrange : 0 + piecesSize f.pieces < range64 := by omega
  have hfollow := follow_of_planned hplan.pieces hrange
  rw [Nat.zero_add] at hfollow
  exact hfollow

/-- What was written as it was planned is the function at its planned offsets. -/
theorem relocates (hplan : Planned f size cx) (hsize : start.block.size = size)
    (hrun : WriteRun cx.ledger f.visits 0 start stop) :
    Packed.Relocates ⟨stop.block, cx.ledger.offset f.scope.id, f.args.map fun t => cx.ledger.offset t.id⟩
      cx.ledger.offset f := by
  have hstop : stop.block.size = size := hrun.size.trans hsize
  have hlimit := stop.block.size_lt_range
  have hfilled := hrun.filled
  rw [placedPieces_visits] at hfilled
  have hinside : PointersIn f.pieces fun q => (cx.ledger.offset q).toNat < stop.block.size := by
    intro p hp c hc q hq
    obtain ⟨pos, hpos, hlt⟩ := hplan.resolve (hplan.wellFormed.pointersIn p hp c hc q hq)
    rw [Ledger.offset_of_resolve hpos, Offset.toNat_ofNat (by omega), hstop]
    exact hlt
  have hfollow := hplan.follow (hstop ▸ hlimit)
  rw [← hstop] at hfollow
  exact ⟨rfl, rfl, held_of_planned hplan.pieces f.uniform rfl hfilled hinside, hfollow.tiles⟩

end Planned

/-- Writing a planned function into a block of the planned size succeeds and relocates the function. -/
theorem Context.write_run {f : Function ι} {size : Nat} {cx : Context ι} (hplan : Planned f size cx)
    {block : Block} (hblock : cx.block = some block) (hsize : block.size = size) :
    ∃ p cx', Context.write f cx = .ok p cx' ∧ p.Relocates cx.ledger.offset f ∧ p.block.size = size
      ∧ cx'.stats = f.visits.foldl Stats.count cx.stats := by
  have hfit : piecesSize f.pieces ≤ block.size := Nat.le_of_eq (hplan.size_eq.symm.trans hsize.symm)
  obtain ⟨stop, hrun, hwrite⟩ :=
    Context.write_of_pieces hblock hplan.written hplan.pieces hplan.pointersIn hfit hplan.size_reservations
  exact ⟨_, _, hwrite, hplan.relocates hsize hrun, hrun.size.trans hsize, hrun.stats⟩

/-- What an allocation after a plan does is decided by the block that the allocator gives. -/
theorem Context.allocate_of_planned {allocator : Allocator ι} {f : Function ι} {size : Nat} {cx : Context ι}
    (hplan : Planned f size cx) :
    Context.allocate allocator cx = match allocator size with
      | .error e => .error e cx
      | .ok b =>
        if b.size = size then
          .ok () { cx with stats := { cx.stats with blockBytes := b.size }, block := some b }
        else .error (.shortBlock size b.size) cx := by
  obtain rfl := hplan.cursor
  rfl

/-- An allocation succeeds just if the allocator gives a block of the size at the cursor. It changes nothing but
the block and the count of its bytes. -/
theorem Context.allocate_eq_ok_iff {allocator : Allocator ι} {cx cx' : Context ι} :
    Context.allocate allocator cx = .ok () cx' ↔ ∃ block, allocator cx.cursor = .ok block
      ∧ block.size = cx.cursor
      ∧ cx' = { cx with stats := { cx.stats with blockBytes := block.size }, block := some block } := by
  unfold Context.allocate
  cases allocator cx.cursor with
  | error e => simp
  | ok block =>
    by_cases hsize : block.size = cx.cursor
    · simp [hsize, eq_comm]
    · simp [hsize]

/-- An allocation that succeeds gives a block of the planned size and changes nothing else of the plan. -/
theorem Context.allocate_run {allocator : Allocator ι} {f : Function ι} {size : Nat} {cx cx' : Context ι}
    (hplan : Planned f size cx) (h : Context.allocate allocator cx = .ok () cx') :
    Planned f size cx' ∧ ∃ block, allocator size = .ok block ∧ cx'.block = some block
      ∧ block.size = size := by
  obtain ⟨block, halloc, hsize, rfl⟩ := Context.allocate_eq_ok_iff.mp h
  rw [hplan.cursor] at halloc hsize
  exact ⟨⟨hplan.pieces, hplan.cursor, hplan.size_eq, hplan.reservations, hplan.written, hplan.wellFormed,
    hplan.known⟩, block, halloc, rfl, hsize⟩

/-- A function that was planned and for which a block was allocated is written and relocated. -/
theorem Context.write_relocates {allocator : Allocator ι} {f : Function ι} {size : Nat}
    {cx planned allocated : Context ι} (hplan : Context.plan f cx = .ok size planned)
    (halloc : Context.allocate allocator planned = .ok () allocated) :
    ∃ p cx', Context.write f allocated = .ok p cx' ∧ p.Relocates allocated.ledger.offset f
      ∧ f.WellFormed := by
  obtain ⟨hplanned, block, -, hblock, hsize⟩ := Context.allocate_run (Context.plan_run hplan) halloc
  obtain ⟨p, cx', hwrite, hrelocates, -⟩ := Context.write_run hplanned hblock hsize
  exact ⟨p, cx', hwrite, hrelocates, hplanned.wellFormed⟩

omit [DecidableEq ι] [Hashable ι] in
/-- The heap gives blocks of every size up to the largest one. -/
theorem Allocator.heap_ok {size : Nat} (h : size ≤ Block.maxSize) :
    ∃ block, (Allocator.heap : Allocator ι) size = .ok block ∧ block.size = size := by
  refine ⟨⟨Array.replicate size 0, ?_⟩, ?_, Array.size_replicate⟩
  · rw [Array.size_replicate]
    unfold Block.maxSize sizeLimit at *
    omega
  · rw [Allocator.heap, Block.zeroed?, dif_pos h]

omit [DecidableEq ι] [Hashable ι] in
/-- So does the allocator that writes one byte all over its blocks. -/
theorem Allocator.filled_ok (byte : UInt8) {size : Nat} (h : size ≤ Block.maxSize) :
    ∃ block, (Allocator.filled byte : Allocator ι) size = .ok block ∧ block.size = size := by
  have hlt : (Array.replicate size byte).size < sizeLimit := by
    rw [Array.size_replicate]
    unfold Block.maxSize sizeLimit at *
    omega
  refine ⟨⟨Array.replicate size byte, hlt⟩, ?_, Array.size_replicate⟩
  rw [Allocator.filled, Block.ofArray?, dif_pos hlt]

/-- A plan that the heap has room for gets a block from it. -/
theorem Context.exists_allocate {f : Function ι} {size : Nat} {cx : Context ι} (hplan : Planned f size cx)
    (hmax : size ≤ Block.maxSize) : ∃ cx', Context.allocate Allocator.heap cx = .ok () cx' := by
  obtain ⟨block, hheap, hsize⟩ := Allocator.heap_ok (ι := ι) hmax
  refine ⟨{ cx with stats := { cx.stats with blockBytes := block.size }, block := some block }, ?_⟩
  rw [Context.allocate_of_planned hplan, hheap]
  simp only [hsize, ↓reduceIte]

end TreePack
