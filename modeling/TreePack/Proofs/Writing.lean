import TreePack.Compact.Write
import TreePack.Proofs.BlockReads
import TreePack.Proofs.Planning
/-!
What writing does to a block.

Writing cannot fail once the ledger has every piece in its place and every pointer can be looked up:
`writePiece_run` is one piece, `writeVisits_run` a whole walk and `Context.write_of_pieces` a whole write.
`WriteRun` says what a run leaves behind: the bytes of each piece stand where it was planned, no other byte
has changed, and the counts are those of the steps (`Stats.count`).
-/

namespace TreePack

variable {ι : Type}

def Covers : Nat → List (Piece ι) → Nat → Prop
  | _, [], _ => False
  | pos, p :: ps, i => (pos ≤ i ∧ i < pos + p.size) ∨ Covers (pos + alignUp p.size) ps i

/-- Nothing in front of the first piece is covered. -/
theorem Covers.le {pos : Nat} {ps : List (Piece ι)} {i : Nat} (h : Covers pos ps i) : pos ≤ i := by
  induction ps generalizing pos with
  | nil => exact h.elim
  | cons p ps ih =>
    rcases h with h | h
    · exact h.1
    · have hle := ih h
      omega

def rowLookUps (cs : List (Leaf ι (Cell ι))) : Nat :=
  cs.foldr (fun c n => 1 + c.val.pointers.length + n) 0

/-- How often the ledger is asked when a piece is written. The labels of a switch are looked up once more than
other elements. -/
def Piece.lookUps (p : Piece ι) : Nat :=
  (if p.first.val.kind = .switchLabel then 1 else 0) + rowLookUps p.cells

def Stats.count (stats : Stats) : Visit ι → Stats
  | .enterLocal _ | .enterStmt _ => stats
  | .place p => { stats with resolutions := stats.resolutions + p.lookUps, writes := stats.writes + 1 }
  | .leave => { stats with released := stats.released + 1 }

variable [DecidableEq ι] [Hashable ι]

def rowBytes (ledger : Ledger ι) (cs : List (Leaf ι (Cell ι))) : List UInt8 :=
  cs.flatMap fun c => (c.val.map ledger.offset).encode

/-- The bytes of a row are as many as its cells say. -/
theorem length_rowBytes (ledger : Ledger ι) (cs : List (Leaf ι (Cell ι))) :
    (rowBytes ledger cs).length = rowSize cs := by
  induction cs with
  | nil => rfl
  | cons c cs ih =>
    rw [rowBytes, List.flatMap_cons, List.length_append, ← rowBytes, ih, Cell.length_encode,
      Cell.size_map, rowSize_cons]

def Filled (ledger : Ledger ι) (b : Block) : Nat → List (Piece ι) → Prop
  | _, [] => True
  | pos, p :: ps =>
    b.get? pos (rowBytes ledger p.cells).length = some (rowBytes ledger p.cells)
      ∧ Filled ledger b (pos + alignUp p.size) ps

/-- What stands in two blocks that are filled alike. -/
theorem bytes_of_filled {ledger : Ledger ι} {b b' : Block} {pos : Nat} {ps : List (Piece ι)} {i : Nat}
    (h : Filled ledger b pos ps) (h' : Filled ledger b' pos ps) (hcover : Covers pos ps i) :
    b.bytes[i]? = b'.bytes[i]? := by
  induction ps generalizing pos with
  | nil => exact hcover.elim
  | cons p ps ih =>
    rcases hcover with ⟨hge, hlt⟩ | hcover
    · obtain ⟨-, hbytes⟩ := Block.get?_eq_some_iff.mp h.1
      obtain ⟨-, hbytes'⟩ := Block.get?_eq_some_iff.mp h'.1
      have hi : i - pos < (rowBytes ledger p.cells).length := by
        rw [length_rowBytes, ← Piece.size_eq]
        omega
      have hplace : pos + (i - pos) = i := Nat.add_sub_cancel' hge
      rw [← hplace, hbytes _ hi, hbytes' _ hi]
    · exact ih h.2 h'.2 hcover

structure WriteRun (ledger : Ledger ι) (vs : List (Visit ι)) (pos : Nat) (s s' : Progress) : Prop where
  size : s'.block.size = s.block.size
  filled : Filled ledger s'.block pos (placedPieces vs)
  kept : ∀ i, ¬Covers pos (placedPieces vs) i → s'.block.bytes[i]? = s.block.bytes[i]?
  written : s'.written.size = s.written.size + (placedPieces vs).length
  stats : s'.stats = vs.foldl Stats.count s.stats

namespace Progress

/-- A look-up that succeeds changes nothing but the count of look-ups. -/
theorem lookUp_run {ledger : Ledger ι} {node : ι} {o : Offset} (h : ledger.resolve node = .ok o)
    (written : Std.HashSet Offset) (stats : Stats) (block : Block) :
    lookUp ledger node ⟨written, stats, block⟩
      = .ok o ⟨written, { stats with resolutions := stats.resolutions + 1 }, block⟩ := by
  simp only [lookUp, h]

/-- Looking up known nodes counts them and changes nothing else. -/
theorem lookUpAll_run {ledger : Ledger ι} {nodes : List ι}
    (h : ∀ node ∈ nodes, ∃ o, ledger.resolve node = .ok o) (written : Std.HashSet Offset) (stats : Stats)
    (block : Block) :
    lookUpAll ledger nodes ⟨written, stats, block⟩
      = .ok () ⟨written, { stats with resolutions := stats.resolutions + nodes.length }, block⟩ := by
  induction nodes generalizing stats with
  | nil => rfl
  | cons node nodes ih =>
    obtain ⟨o, ho⟩ := h node List.mem_cons_self
    rw [lookUpAll, bind_of_ok (lookUp_run ho written stats block),
      ih fun n hn => h n (List.mem_cons_of_mem _ hn)]
    simp only [List.length_cons]
    congr 3
    omega

/-- The bytes of cells that the ledger has side by side. -/
theorem relocate_run {ledger : Ledger ι} {pos : Nat} {cs : List (Leaf ι (Cell ι))}
    (hrow : ledger.HasRow pos cs)
    (hptrs : ∀ c ∈ cs, ∀ q ∈ c.val.pointers, ∃ o, ledger.resolve q = .ok o)
    (written : Std.HashSet Offset) (stats : Stats) (block : Block) :
    relocate ledger pos cs ⟨written, stats, block⟩
      = .ok (rowBytes ledger cs)
          ⟨written, { stats with resolutions := stats.resolutions + rowLookUps cs }, block⟩ := by
  induction cs generalizing pos stats with
  | nil => rfl
  | cons c cs ih =>
    obtain ⟨hself, hrest⟩ := hrow
    have hself' := lookUp_run hself written stats block
    have hall := lookUpAll_run (hptrs c List.mem_cons_self) written
      { stats with resolutions := stats.resolutions + 1 } block
    have hothers := ih hrest (fun c' hc' => hptrs c' (List.mem_cons_of_mem _ hc'))
      { stats with resolutions := stats.resolutions + 1 + c.val.pointers.length }
    -- One look-up for the cell itself and one for each pointer.
    have hcount : stats.resolutions + 1 + c.val.pointers.length + rowLookUps cs
        = stats.resolutions + rowLookUps (c :: cs) := by
      change _ = stats.resolutions + (1 + c.val.pointers.length + rowLookUps cs)
      omega
    rw [relocate, bind_of_ok hself']
    simp only [ne_eq, not_true_eq_false, ↓reduceIte]
    rw [bind_of_ok hall, bind_of_ok hothers, ← hcount]
    rfl

omit [DecidableEq ι] [Hashable ι] in
/-- Bytes that fit are written to an offset that was not written before. -/
theorem emit_run {pos : Nat} (hpos : pos < range64) {bytes : List UInt8} {s : Progress}
    (hfresh : s.written.contains (.ofNat pos) = false) (hfit : pos + bytes.length ≤ s.block.size) :
    ∃ block, s.block.write pos bytes = .ok block ∧ (emit (.ofNat pos) bytes : WriteM ι Unit) s
      = .ok () ⟨s.written.insert (.ofNat pos), { s.stats with writes := s.stats.writes + 1 }, block⟩ := by
  cases s with
  | mk written stats block =>
    obtain ⟨block', hwrite⟩ := Block.exists_write hfit
    have hfresh' : written.contains (.ofNat pos) = false := hfresh
    refine ⟨block', hwrite, ?_⟩
    simp [emit, hfresh', Offset.toNat_ofNat hpos, hwrite]

/-- A piece that is planned at a position is written there. -/
theorem writePiece_run {ledger : Ledger ι} {p : Piece ι} {pos : Nat} (hrow : ledger.HasRow pos p.cells)
    (hptrs : ∀ c ∈ p.cells, ∀ q ∈ c.val.pointers, ∃ o, ledger.resolve q = .ok o) (hpos : pos < range64)
    {s : Progress} (hfresh : s.written.contains (.ofNat pos) = false)
    (hfit : pos + p.size ≤ s.block.size) :
    ∃ s', writePiece ledger p s = .ok () s' ∧ s.block.write pos (rowBytes ledger p.cells) = .ok s'.block
      ∧ s'.written = s.written.insert (.ofNat pos) ∧ s'.stats = s.stats.count (.place p) := by
  cases s with
  | mk written stats block =>
    have hbase : ledger.resolve p.first.id = .ok (.ofNat pos) := hrow.1
    rw [Piece.size_eq, ← length_rowBytes ledger] at hfit
    -- A row of switch labels is looked up once more as a whole.
    let extra := if p.first.val.kind = .switchLabel then 1 else 0
    have hlook : writePiece ledger p ⟨written, stats, block⟩
        = (relocate ledger (ledger.offset p.first.id).toNat p.cells >>= emit (ledger.offset p.first.id))
          ⟨written, { stats with resolutions := stats.resolutions + extra }, block⟩ := by
      unfold writePiece
      by_cases hkind : p.first.val.kind = .switchLabel
      · simp only [extra, hkind, ↓reduceIte]
        exact bind_of_ok (lookUp_run hbase written stats block) _
      · simp only [extra, hkind, ↓reduceIte]
        rfl
    rw [Ledger.offset_of_resolve hbase, Offset.toNat_ofNat hpos, bind_of_ok (relocate_run hrow hptrs _ _ _)]
      at hlook
    obtain ⟨block', hwrite, hemit⟩ := emit_run (ι := ι) hpos
      (s := ⟨written, { stats with resolutions := stats.resolutions + extra + rowLookUps p.cells }, block⟩)
      hfresh hfit
    refine ⟨_, hlook.trans hemit, hwrite, rfl, ?_⟩
    rw [Stats.count, Piece.lookUps, ← Nat.add_assoc]

/-- A step that places nothing leaves the block alone. -/
theorem writeVisit_skip (ledger : Ledger ι) {v : Visit ι} (hv : v.piece? = none) (s : Progress) :
    ∃ s', writeVisit ledger v s = .ok () s' ∧ s'.block = s.block ∧ s'.written = s.written
      ∧ s'.stats = s.stats.count v := by
  cases v with
  | place p => cases hv
  | enterLocal _ | enterStmt _ => exact ⟨s, rfl, rfl, rfl, rfl⟩
  | leave => exact ⟨_, rfl, rfl, rfl, rfl⟩

end Progress

namespace WriteRun

variable {ledger : Ledger ι} {vs : List (Visit ι)} {pos : Nat} {s mid s' : Progress}

theorem cons_skip {v : Visit ι} (hv : v.piece? = none) (hblock : mid.block = s.block)
    (hwritten : mid.written = s.written) (hstats : mid.stats = s.stats.count v)
    (hrun : WriteRun ledger vs pos mid s') : WriteRun ledger (v :: vs) pos s s' := by
  refine ⟨?_, ?_, ?_, ?_, ?_⟩
  · rw [hrun.size, hblock]
  · rw [placedPieces_skip hv]
    exact hrun.filled
  · rw [placedPieces_skip hv, ← hblock]
    exact hrun.kept
  · rw [placedPieces_skip hv, hrun.written, hwritten]
  · rw [hrun.stats, hstats, List.foldl_cons]

/-- Writing a piece in front of a run: the bytes of the run do not reach back into it. -/
theorem cons_place {p : Piece ι} (hwrite : s.block.write pos (rowBytes ledger p.cells) = .ok mid.block)
    (hfresh : s.written.contains (.ofNat pos) = false)
    (hwritten : mid.written = s.written.insert (.ofNat pos))
    (hstats : mid.stats = s.stats.count (.place p))
    (hrun : WriteRun ledger vs (pos + alignUp p.size) mid s') :
    WriteRun ledger (.place p :: vs) pos s s' := by
  refine ⟨?_, ⟨?_, hrun.filled⟩, ?_, ?_, ?_⟩
  · rw [hrun.size, Block.size_write hwrite]
  · -- Later pieces begin behind this one, so its bytes stay.
    obtain ⟨hle, hbytes⟩ := Block.get?_eq_some_iff.mp (Block.get?_write hwrite)
    refine Block.get?_eq_some_iff.mpr ⟨by rw [hrun.size]; exact hle, fun i hi => ?_⟩
    have hnot : ¬Covers (pos + alignUp p.size) (placedPieces vs) (pos + i) := by
      intro hcover
      have hge := hcover.le
      have halign := le_alignUp p.size
      rw [length_rowBytes, ← Piece.size_eq] at hi
      omega
    rw [hrun.kept _ hnot, hbytes i hi]
  · intro i hi
    rw [placedPieces_place, Covers, not_or] at hi
    rw [hrun.kept i hi.2, Block.getElem?_write hwrite, length_rowBytes, ← Piece.size_eq, if_neg hi.1]
  · have hsize := Std.HashSet.size_insert (m := s.written) (k := Offset.ofNat pos)
    rw [if_neg (by rw [← Std.HashSet.contains_iff_mem, hfresh]; exact Bool.false_ne_true)] at hsize
    rw [hrun.written, hwritten, hsize, placedPieces_place, List.length_cons]
    omega
  · rw [hrun.stats, hstats, List.foldl_cons]

end WriteRun

namespace Progress

/-- A walk that is planned from a position on is written there, whatever stood in the block. -/
theorem writeVisits_run {ledger : Ledger ι} {vs : List (Visit ι)} {pos : Nat} {s : Progress}
    (hpieces : ledger.HasPieces pos (placedPieces vs))
    (hptrs : PointersIn (placedPieces vs) fun q => ∃ o, ledger.resolve q = .ok o)
    (hfit : pos + piecesSize (placedPieces vs) ≤ s.block.size)
    (hwritten : ∀ o, s.written.contains o → o.toNat < pos) :
    ∃ s', writeVisits ledger vs s = .ok () s' ∧ WriteRun ledger vs pos s s' := by
  induction vs generalizing pos s with
  | nil => exact ⟨s, rfl, rfl, trivial, fun _ _ => rfl, rfl, rfl⟩
  | cons v vs ih =>
    -- Only a step that places a piece touches the block.
    cases hv : v.piece? with
    | none =>
      rw [placedPieces_skip hv] at hpieces hptrs hfit
      obtain ⟨mid, hstep, hblock, hwrit, hstats⟩ := writeVisit_skip ledger hv s
      rw [← hblock] at hfit
      rw [← hwrit] at hwritten
      obtain ⟨s', hrest, hrun⟩ := ih hpieces hptrs hfit hwritten
      exact ⟨s', (bind_of_ok hstep _).trans hrest, hrun.cons_skip hv hblock hwrit hstats⟩
    | some p =>
      obtain rfl : v = .place p := Visit.eq_place_of_piece? hv
      rw [placedPieces_place] at hpieces hptrs hfit
      rw [piecesSize] at hfit
      obtain ⟨hhead, htail⟩ := (pointersIn_cons p _).mp hptrs
      have halign := le_alignUp p.size
      have hlimit := s.block.size_lt_range
      have hpos : pos < range64 := by omega
      -- Everything written so far begins in front of `pos`.
      have hfresh : s.written.contains (.ofNat pos) = false := by
        cases hcontains : s.written.contains (.ofNat pos) with
        | false => rfl
        | true =>
          have hlt := hwritten _ hcontains
          rw [Offset.toNat_ofNat hpos] at hlt
          omega
      obtain ⟨mid, hstep, hwrite, hwrit, hstats⟩ :=
        writePiece_run hpieces.1 hhead hpos hfresh (by omega)
      have hsize := Block.size_write hwrite
      have hwritten' : ∀ o, mid.written.contains o → o.toNat < pos + alignUp p.size := by
        intro o ho
        have hpos' := p.size_pos
        rw [hwrit, Std.HashSet.contains_insert, Bool.or_eq_true, beq_iff_eq] at ho
        rcases ho with rfl | ho
        · rw [Offset.toNat_ofNat hpos]
          omega
        · have hlt := hwritten o ho
          omega
      obtain ⟨s', hrest, hrun⟩ := ih hpieces.2 htail (by omega) hwritten'
      exact ⟨s', (bind_of_ok hstep _).trans hrest, hrun.cons_place hwrite hfresh hwrit hstats⟩

end Progress

namespace Context

section

variable {f : Function ι} {cx cx' : Context ι} {block : Block} {stop : Progress}

theorem write_of_none (hnone : cx.block = none) : write f cx = .error .unallocated cx := by
  cases cx
  cases hnone
  rfl

/-- A write that fails halfway gives the block away. -/
theorem write_of_error {e : CompactError ι} (hblock : cx.block = some block)
    (hvisits : Progress.writeVisits cx.ledger f.visits ⟨cx.written, cx.stats, block⟩ = .error e stop) :
    write f cx = .error e { cx with block := none, written := stop.written, stats := stop.stats } := by
  cases cx
  cases hblock
  simp only [write, hvisits]

/-- Once all steps are written, as many offsets must have been written as there are reservations. -/
theorem write_of_ok (hblock : cx.block = some block)
    (hvisits : Progress.writeVisits cx.ledger f.visits ⟨cx.written, cx.stats, block⟩ = .ok () stop) :
    write f cx = if cx.reservations.size = stop.written.size then
        .ok ⟨stop.block, cx.ledger.offset f.scope.id, f.args.map fun t => cx.ledger.offset t.id⟩
          { cx with block := none, written := stop.written, stats := stop.stats }
      else .error (.incompleteWrite cx.reservations.size stop.written.size)
        { cx with block := none, written := stop.written, stats := stop.stats } := by
  cases cx
  cases hblock
  simp only [write, hvisits, ne_eq, ite_not]

/-- A write succeeds just if there is a block, every step is written and as many offsets were written as there
are reservations. -/
theorem write_eq_ok_iff {p : Packed} :
    write f cx = .ok p cx' ↔ ∃ block stop, cx.block = some block
      ∧ Progress.writeVisits cx.ledger f.visits ⟨cx.written, cx.stats, block⟩ = .ok () stop
      ∧ cx.reservations.size = stop.written.size
      ∧ p = ⟨stop.block, cx.ledger.offset f.scope.id, f.args.map fun t => cx.ledger.offset t.id⟩
      ∧ cx' = { cx with block := none, written := stop.written, stats := stop.stats } := by
  constructor
  · intro h
    cases hblock : cx.block with
    | none => cases (write_of_none hblock).symm.trans h
    | some block =>
      cases hvisits : Progress.writeVisits cx.ledger f.visits ⟨cx.written, cx.stats, block⟩ with
      | error e stop => cases (write_of_error hblock hvisits).symm.trans h
      | ok u stop =>
        rw [write_of_ok hblock hvisits] at h
        split at h
        · rename_i hall
          cases h
          exact ⟨block, stop, rfl, hvisits, hall, rfl, rfl⟩
        · cases h
  · rintro ⟨block, stop, hblock, hvisits, hall, rfl, rfl⟩
    rw [write_of_ok hblock hvisits, if_pos hall]

/-- A write fails without a block, at one of the steps, or because too few or too many offsets were written. -/
theorem write_error {e : CompactError ι} (h : write f cx = .error e cx') :
    (e = .unallocated ∧ cx.block = none)
    ∨ ∃ block stop, cx.block = some block
      ∧ (Progress.writeVisits cx.ledger f.visits ⟨cx.written, cx.stats, block⟩ = .error e stop
        ∨ (Progress.writeVisits cx.ledger f.visits ⟨cx.written, cx.stats, block⟩ = .ok () stop
          ∧ cx.reservations.size ≠ stop.written.size
          ∧ e = .incompleteWrite cx.reservations.size stop.written.size)) := by
  cases hblock : cx.block with
  | none =>
    cases (write_of_none hblock).symm.trans h
    exact .inl ⟨rfl, rfl⟩
  | some block =>
    right
    cases hvisits : Progress.writeVisits cx.ledger f.visits ⟨cx.written, cx.stats, block⟩ with
    | error e' stop =>
      cases (write_of_error hblock hvisits).symm.trans h
      exact ⟨block, stop, rfl, .inl hvisits⟩
    | ok u stop =>
      rw [write_of_ok hblock hvisits] at h
      split at h
      · cases h
      · rename_i hall
        cases h
        exact ⟨block, stop, rfl, .inr ⟨hvisits, hall, rfl⟩⟩

end

end Context

/-- A tree is written if the ledger has its pieces one behind the other from the start of the block, whatever
else the ledger has, and if there are as many reservations as pieces. -/
theorem Context.write_of_pieces {f : Function ι} {cx : Context ι} {block : Block}
    (hblock : cx.block = some block) (hwritten : cx.written = ∅) (hpieces : cx.ledger.HasPieces 0 f.pieces)
    (hptrs : PointersIn f.pieces fun q => ∃ o, cx.ledger.resolve q = .ok o)
    (hfit : piecesSize f.pieces ≤ block.size) (hcount : cx.reservations.size = f.pieces.length) :
    ∃ stop, WriteRun cx.ledger f.visits 0 ⟨cx.written, cx.stats, block⟩ stop
      ∧ Context.write f cx
        = .ok ⟨stop.block, cx.ledger.offset f.scope.id, f.args.map fun t => cx.ledger.offset t.id⟩
            { cx with block := none, written := stop.written, stats := stop.stats } := by
  have hnone : ∀ o, cx.written.contains o → o.toNat < 0 := by
    intro o ho
    rw [hwritten, Std.HashSet.contains_empty] at ho
    cases ho
  rw [← placedPieces_visits] at hpieces hptrs hfit
  rw [← Nat.zero_add (piecesSize _)] at hfit
  obtain ⟨stop, hvisits, hrun⟩ :=
    Progress.writeVisits_run (s := ⟨cx.written, cx.stats, block⟩) hpieces hptrs hfit hnone
  -- As many offsets were written as were set aside, so the write is not refused as incomplete.
  have hall : cx.reservations.size = stop.written.size := by
    calc
      cx.reservations.size = f.pieces.length := hcount
      _ = cx.written.size + f.pieces.length := by rw [hwritten, Std.HashSet.size_empty, Nat.zero_add]
      _ = stop.written.size := by rw [hrun.written, placedPieces_visits]
  exact ⟨stop, hrun, Context.write_eq_ok_iff.mpr ⟨block, stop, hblock, hvisits, hall, rfl, rfl⟩⟩

end TreePack
