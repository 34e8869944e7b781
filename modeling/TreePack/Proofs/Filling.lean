import Mathlib.Data.List.Nodup
import Mathlib.Data.List.Pairwise
import Mathlib.Data.List.Perm.Subperm
import TreePack.Proofs.Runs
import TreePack.Proofs.Views

namespace TreePack

variable {ι : Type}

/-! ### Reservations follow each other -/

def Reservation.Before (r r' : Reservation) : Prop := r.offset.toNat + r.len ≤ r'.offset.toNat

def Reservation.extent (r : Reservation) : Extent := ⟨r.offset.toNat, r.len⟩

theorem Reservation.len_ofPiece_pos (pos : Nat) (p : Piece ι) : 0 < (Reservation.ofPiece pos p).len := by
  have hsize := p.size_pos
  have halign := le_alignUp p.size
  change 0 < alignUp p.size
  omega

theorem len_of_mem_reservationsFrom {pos : Nat} {ps : List (Piece ι)} {r : Reservation}
    (hr : r ∈ reservationsFrom pos ps) : 0 < r.len ∧ r.len % alignment = 0 := by
  induction ps generalizing pos with
  | nil => cases hr
  | cons p ps ih =>
    rcases List.mem_cons.mp hr with rfl | hr
    · exact ⟨Reservation.len_ofPiece_pos pos p, alignUp_mod p.size⟩
    · exact ih hr

/-- The reservations of a run follow each other without a gap. -/
theorem follow_reservationsFrom {pos : Nat} {ps : List (Piece ι)} (hend : pos + piecesSize ps < range64) :
    Follow pos ((reservationsFrom pos ps).map Reservation.extent) (pos + piecesSize ps) := by
  induction ps generalizing pos with
  | nil => rfl
  | cons p ps ih =>
    rw [piecesSize, ← Nat.add_assoc] at hend ⊢
    have hstart : (Reservation.ofPiece pos p).extent = ⟨pos, alignUp p.size⟩ :=
      congrArg (Extent.mk · (alignUp p.size)) (Offset.toNat_ofNat (by omega))
    rw [reservationsFrom, List.map_cons, hstart]
    exact ⟨rfl, ih hend⟩

/-- Reservations made one behind the other do not overlap, and stay in order. -/
theorem pairwise_reservationsFrom {pos : Nat} {ps : List (Piece ι)} (hend : pos + piecesSize ps < range64) :
    (reservationsFrom pos ps).Pairwise Reservation.Before := by
  have hextents := (follow_reservationsFrom hend).increasing
  rw [List.pairwise_map] at hextents
  exact hextents

/-- No two reservations start at one offset, as each has a positive length. -/
theorem nodup_offsets_reservationsFrom {pos : Nat} {ps : List (Piece ι)}
    (hend : pos + piecesSize ps < range64) : ((reservationsFrom pos ps).map (·.offset)).Nodup := by
  have hlen : ∀ e ∈ (reservationsFrom pos ps).map Reservation.extent, 0 < e.len :=
    List.forall_mem_map.mpr fun _ hr => (len_of_mem_reservationsFrom hr).1
  have hstarts := nodup_starts (follow_reservationsFrom hend).apart hlen
  rw [List.map_map] at hstarts
  apply List.Nodup.of_map Offset.toNat
  rw [List.map_map]
  exact hstarts

variable [DecidableEq ι] [Hashable ι]

/-! ### What a success tells -/

def Piece.base (ledger : Ledger ι) (p : Piece ι) : Offset := ledger.offset p.first.id

def Piece.Apart (ledger : Ledger ι) (p q : Piece ι) : Prop :=
  (p.base ledger).toNat + p.size ≤ (q.base ledger).toNat
    ∨ (q.base ledger).toNat + q.size ≤ (p.base ledger).toNat

def Piece.StandsIn (ledger : Ledger ι) (b : Block) (p : Piece ι) : Prop :=
  b.get? (p.base ledger).toNat (rowBytes ledger p.cells).length = some (rowBytes ledger p.cells)

structure Wrote (ledger : Ledger ι) (ps : List (Piece ι)) (s s' : Progress) : Prop where
  size : s'.block.size = s.block.size
  rows : ∀ p ∈ ps, ledger.HasRow (p.base ledger).toNat p.cells
  /-- No two pieces are written at one offset, and none at an offset that was written before. -/
  bases : (ps.map (Piece.base ledger)).Nodup
  fresh : ∀ p ∈ ps, s.written.contains (p.base ledger) = false
  written : s'.written.size = s.written.size + ps.length
  /-- Bytes stay that belong to no piece. -/
  kept : ∀ i, (∀ p ∈ ps, ¬((p.base ledger).toNat ≤ i ∧ i < (p.base ledger).toNat + p.size)) →
    s'.block.bytes[i]? = s.block.bytes[i]?
  stands : ps.Pairwise (Piece.Apart ledger) → ∀ p ∈ ps, p.StandsIn ledger s'.block

namespace Progress

variable {ledger : Ledger ι} {s s' : Progress}

/-- A look-up that succeeds gives the ledger's offset and changes nothing but the counts. -/
theorem lookUp_inv {node : ι} {o : Offset} (h : lookUp ledger node s = .ok o s') :
    ledger.resolve node = .ok o ∧ s'.block = s.block ∧ s'.written = s.written := by
  cases s with
  | mk written stats block =>
    simp only [lookUp] at h
    cases hresolve : ledger.resolve node with
    | error e =>
      rw [hresolve] at h
      cases h
    | ok found =>
      rw [hresolve] at h
      cases h
      exact ⟨rfl, rfl, rfl⟩

theorem lookUpAll_inv {nodes : List ι} (h : lookUpAll ledger nodes s = .ok () s') :
    s'.block = s.block ∧ s'.written = s.written := by
  induction nodes generalizing s with
  | nil =>
    cases h
    exact ⟨rfl, rfl⟩
  | cons node nodes ih =>
    obtain ⟨o, mid, hfirst, hrest⟩ := bind_eq_ok_iff.mp h
    obtain ⟨-, hblock, hwritten⟩ := lookUp_inv hfirst
    obtain ⟨hblock', hwritten'⟩ := ih hrest
    exact ⟨hblock'.trans hblock, hwritten'.trans hwritten⟩

/-- Cells are relocated only if the ledger has them side by side. -/
theorem relocate_inv {pos : Nat} {cs : List (Leaf ι (Cell ι))} {bytes : List UInt8}
    (h : relocate ledger pos cs s = .ok bytes s') :
    ledger.HasRow pos cs ∧ bytes = rowBytes ledger cs ∧ s'.block = s.block ∧ s'.written = s.written := by
  -- On the cells; the position moves on by the size of each.
  induction cs generalizing pos s bytes with
  | nil =>
    cases h
    exact ⟨trivial, rfl, rfl, rfl⟩
  | cons c cs ih =>
    obtain ⟨found, s₁, hfound, h⟩ := bind_eq_ok_iff.mp h
    obtain ⟨hresolve, hblock₁, hwritten₁⟩ := lookUp_inv hfound
    by_cases hplace : found = .ofNat pos
    · subst hplace
      simp only [ne_eq, not_true_eq_false, ↓reduceIte] at h
      obtain ⟨u, s₂, hall, h⟩ := bind_eq_ok_iff.mp h
      obtain ⟨hblock₂, hwritten₂⟩ := lookUpAll_inv hall
      obtain ⟨rest, s₃, hothers, h⟩ := bind_eq_ok_iff.mp h
      cases h
      obtain ⟨hrow, rfl, hblock₃, hwritten₃⟩ := ih hothers
      exact ⟨⟨hresolve, hrow⟩, rfl, hblock₃.trans (hblock₂.trans hblock₁),
        hwritten₃.trans (hwritten₂.trans hwritten₁)⟩
    · simp only [ne_eq, hplace, not_false_eq_true, ↓reduceIte] at h
      cases h

omit [DecidableEq ι] [Hashable ι] in
/-- Bytes are written once to an offset, inside the block, and the offset is noted as written. -/
theorem emit_inv {o : Offset} {bytes : List UInt8} (h : (emit o bytes : WriteM ι Unit) s = .ok () s') :
    s.written.contains o = false ∧ s.block.write o.toNat bytes = .ok s'.block
      ∧ s'.written = s.written.insert o := by
  cases s with
  | mk written stats block =>
    simp only [emit] at h
    by_cases hcontains : written.contains o
    · rw [if_pos hcontains] at h
      cases h
    · rw [if_neg hcontains] at h
      cases hwrite : block.write o.toNat bytes with
      | error e =>
        rw [hwrite] at h
        cases h
      | ok block' =>
        rw [hwrite] at h
        cases h
        exact ⟨Bool.eq_false_iff.mpr hcontains, rfl, rfl⟩

/-- A piece that is written is planned side by side, at an offset where nothing was written. -/
theorem writePiece_inv {p : Piece ι} (h : writePiece ledger p s = .ok () s') :
    ledger.HasRow (p.base ledger).toNat p.cells ∧ s.written.contains (p.base ledger) = false
      ∧ s.block.write (p.base ledger).toNat (rowBytes ledger p.cells) = .ok s'.block
      ∧ s'.written = s.written.insert (p.base ledger) := by
  -- The labels of a switch are looked up once more than other elements.
  have hlook : ∃ mid : Progress, mid.block = s.block ∧ mid.written = s.written
      ∧ (relocate ledger (p.base ledger).toNat p.cells >>= emit (p.base ledger)) mid = .ok () s' := by
    unfold writePiece at h
    by_cases hkind : p.first.val.kind = .switchLabel
    · rw [if_pos hkind] at h
      obtain ⟨o, mid, hfirst, hrest⟩ := bind_eq_ok_iff.mp h
      obtain ⟨-, hblock, hwritten⟩ := lookUp_inv hfirst
      exact ⟨mid, hblock, hwritten, hrest⟩
    · rw [if_neg hkind] at h
      exact ⟨s, rfl, rfl, h⟩
  obtain ⟨mid, hblock, hwritten, h⟩ := hlook
  obtain ⟨bytes, mid', hrelocate, hemit⟩ := bind_eq_ok_iff.mp h
  obtain ⟨hrow, rfl, hblock', hwritten'⟩ := relocate_inv hrelocate
  obtain ⟨hfresh, hwrite, hinsert⟩ := emit_inv hemit
  rw [hwritten', hwritten] at hfresh hinsert
  rw [hblock', hblock] at hwrite
  exact ⟨hrow, hfresh, hwrite, hinsert⟩

end Progress

namespace Wrote

variable {ledger : Ledger ι} {ps : List (Piece ι)} {s mid s' : Progress}

theorem nil (s : Progress) : Wrote ledger [] s s where
  size := rfl
  rows _ h := (List.not_mem_nil h).elim
  bases := List.nodup_nil
  fresh _ h := (List.not_mem_nil h).elim
  written := rfl
  kept _ _ := rfl
  stands _ _ h := (List.not_mem_nil h).elim

/-- Of the start only the block and the offsets that were written count. -/
theorem of_start (hblock : mid.block = s.block) (hwritten : mid.written = s.written)
    (h : Wrote ledger ps mid s') : Wrote ledger ps s s' := by
  obtain ⟨hsize, hrows, hbases, hfresh, hcount, hkept, hstands⟩ := h
  rw [hblock] at hsize hkept
  rw [hwritten] at hfresh hcount
  exact ⟨hsize, hrows, hbases, hfresh, hcount, hkept, hstands⟩

/-- One piece more in front. -/
theorem cons {p : Piece ι} (hrow : ledger.HasRow (p.base ledger).toNat p.cells)
    (hfresh : s.written.contains (p.base ledger) = false)
    (hwrite : s.block.write (p.base ledger).toNat (rowBytes ledger p.cells) = .ok mid.block)
    (hwritten : mid.written = s.written.insert (p.base ledger)) (h : Wrote ledger ps mid s') :
    Wrote ledger (p :: ps) s s' := by
  have hlater : ∀ q ∈ ps, p.base ledger ≠ q.base ledger ∧ s.written.contains (q.base ledger) = false := by
    intro q hq
    have hq' := h.fresh q hq
    rw [hwritten, Std.HashSet.contains_insert, Bool.or_eq_false_iff] at hq'
    exact ⟨beq_eq_false_iff_ne.mp hq'.1, hq'.2⟩
  have hlength : (rowBytes ledger p.cells).length = p.size := length_rowBytes ledger p.cells
  constructor
  case size => rw [h.size, Block.size_write hwrite]
  case rows => exact List.forall_mem_cons.mpr ⟨hrow, h.rows⟩
  case bases =>
    refine List.nodup_cons.mpr ⟨fun hmem => ?_, h.bases⟩
    obtain ⟨q, hq, heq⟩ := List.mem_map.mp hmem
    exact (hlater q hq).1 heq.symm
  case fresh => exact List.forall_mem_cons.mpr ⟨hfresh, fun q hq => (hlater q hq).2⟩
  case written =>
    have hnew : p.base ledger ∉ s.written := by
      rw [← Std.HashSet.contains_iff_mem, hfresh]
      exact Bool.false_ne_true
    have hsize := Std.HashSet.size_insert (m := s.written) (k := p.base ledger)
    rw [if_neg hnew] at hsize
    calc
      s'.written.size = mid.written.size + ps.length := h.written
      _ = s.written.size + 1 + ps.length := by rw [hwritten, hsize]
      _ = s.written.size + (p :: ps).length := by rw [List.length_cons, Nat.add_assoc, Nat.add_comm 1]
  case kept =>
    intro i hi
    obtain ⟨hself, hothers⟩ := List.forall_mem_cons.mp hi
    rw [h.kept i hothers, Block.getElem?_write hwrite, hlength, if_neg hself]
  case stands =>
    intro hapart
    obtain ⟨haway, hapart⟩ := List.pairwise_cons.mp hapart
    refine List.forall_mem_cons.mpr ⟨?_, h.stands hapart⟩
    -- The other pieces do not reach into this one, so its bytes stay.
    obtain ⟨hle, hbytes⟩ := Block.get?_eq_some_iff.mp (Block.get?_write hwrite)
    refine Block.get?_eq_some_iff.mpr ⟨by rw [h.size]; exact hle, fun i hi => ?_⟩
    rw [hlength] at hi
    have hothers : ∀ q ∈ ps, ¬((q.base ledger).toNat ≤ (p.base ledger).toNat + i
        ∧ (p.base ledger).toNat + i < (q.base ledger).toNat + q.size) := by
      intro q hq hinside
      rcases haway q hq with hbefore | hbefore
      · omega
      · omega
    rw [h.kept _ hothers, hbytes i (by rw [hlength]; exact hi)]

end Wrote

/-- A write that succeeds wrote every piece of the walk, each to its own base. -/
theorem Progress.writeVisits_inv {ledger : Ledger ι} {vs : List (Visit ι)} {s s' : Progress}
    (h : Progress.writeVisits ledger vs s = .ok () s') : Wrote ledger (placedPieces vs) s s' := by
  -- On the steps, from the last one: what is written first is put in front of what the others have written.
  induction vs generalizing s with
  | nil =>
    cases h
    exact Wrote.nil s'
  | cons v vs ih =>
    obtain ⟨u, mid, hstep, hrest⟩ := bind_eq_ok_iff.mp h
    have hrun := ih hrest
    cases hv : v.piece? with
    | none =>
      obtain ⟨mid', hskip, hblock, hwritten, -⟩ := Progress.writeVisit_skip ledger hv s
      rw [hskip] at hstep
      cases hstep
      rw [placedPieces_skip hv]
      exact hrun.of_start hblock hwritten
    | some p =>
      obtain rfl : v = .place p := Visit.eq_place_of_piece? hv
      obtain ⟨hrow, hfresh, hwrite, hwritten⟩ := Progress.writePiece_inv hstep
      exact hrun.cons hrow hfresh hwrite hwritten

/-! ### Filling every reservation -/

/-- A function fills a reservation in a block: one of its pieces has the kind, the length and the count of the
reservation, each of its cells is planned at its place in it, and the bytes of all of them stand there. -/
def Reservation.FilledBy (r : Reservation) (ledger : Ledger ι) (f : Function ι) (b : Block) : Prop :=
  ∃ p ∈ f.pieces, r = .ofPiece r.offset.toNat p ∧ ledger.HasRow r.offset.toNat p.cells
    ∧ b.get? r.offset.toNat (rowBytes ledger p.cells).length = some (rowBytes ledger p.cells)

def Piece.Fits (p : Piece ι) (ledger : Ledger ι) (rs : List Reservation) : Prop :=
  .ofPiece (p.base ledger).toNat p ∈ rs

theorem Offset.ofNat_toNat (o : Offset) : Offset.ofNat o.toNat = o :=
  Offset.toNat_inj.mp (Offset.toNat_ofNat o.toNat_lt)

/-- The base of a row is where its first cell stands. -/
theorem Ledger.HasRow.base_eq {ledger : Ledger ι} {p : Piece ι} {o : Offset}
    (h : ledger.HasRow o.toNat p.cells) : p.base ledger = o := by
  have hfirst : ledger.resolve p.first.id = .ok (.ofNat o.toNat) := h.1
  rw [Offset.ofNat_toNat] at hfirst
  exact Ledger.offset_of_resolve hfirst

section

variable {ledger : Ledger ι} {f : Function ι} {s s' : Progress} {rs : List Reservation}
  (hwrote : Wrote ledger f.pieces s s') (hnodup : (rs.map (·.offset)).Nodup)
  (hcount : rs.length = s.written.size + f.pieces.length)

include hwrote hnodup hcount

/-- If every reservation is filled, there are no more pieces than reservations, so each of them fits. -/
theorem Wrote.fits_of_filled (hfilled : ∀ r ∈ rs, r.FilledBy ledger f s'.block) :
    s.written.size = 0 ∧ ∀ p ∈ f.pieces, p.Fits ledger rs := by
  have hsub : rs.map (·.offset) ⊆ f.pieces.map (Piece.base ledger) := by
    intro o ho
    obtain ⟨r, hr, rfl⟩ := List.mem_map.mp ho
    obtain ⟨p, hp, -, hrow, -⟩ := hfilled r hr
    exact List.mem_map.mpr ⟨p, hp, hrow.base_eq⟩
  have hsubperm := List.subperm_of_subset hnodup hsub
  have hle : rs.length ≤ f.pieces.length := by
    calc
      rs.length = (rs.map (·.offset)).length := (List.length_map _).symm
      _ ≤ (f.pieces.map (Piece.base ledger)).length := hsubperm.length_le
      _ = f.pieces.length := List.length_map _
  -- There are at least as many reservations as pieces, so each piece is at one of them.
  have hperm : (rs.map (·.offset)).Perm (f.pieces.map (Piece.base ledger)) := by
    apply hsubperm.perm_of_length_le
    rw [List.length_map, List.length_map]
    omega
  refine ⟨by omega, fun p hp => ?_⟩
  obtain ⟨r, hr, hoffset⟩ := List.mem_map.mp (hperm.mem_iff.mpr (List.mem_map_of_mem hp))
  obtain ⟨q, hq, hpiece, hrow, -⟩ := hfilled r hr
  -- The piece that fills the reservation at this offset is this one.
  have hbase : q.base ledger = p.base ledger := hrow.base_eq.trans hoffset
  obtain rfl : q = p := List.inj_on_of_nodup_map hwrote.bases hq hp hbase
  rw [Piece.Fits, hrow.base_eq, ← hpiece]
  exact hr

/-- If nothing was written before and every piece fits, there are as many pieces as reservations, so each of
these is filled. -/
theorem Wrote.filled_of_fits (hapart : rs.Pairwise Reservation.Before) (hempty : s.written.size = 0)
    (hfits : ∀ p ∈ f.pieces, p.Fits ledger rs) : ∀ r ∈ rs, r.FilledBy ledger f s'.block := by
  have hoffset (p : Piece ι) : (Reservation.ofPiece (p.base ledger).toNat p).offset = p.base ledger :=
    Offset.ofNat_toNat _
  have hsub : f.pieces.map (Piece.base ledger) ⊆ rs.map (·.offset) := by
    intro o ho
    obtain ⟨p, hp, rfl⟩ := List.mem_map.mp ho
    exact List.mem_map.mpr ⟨_, hfits p hp, hoffset p⟩
  have hperm : (f.pieces.map (Piece.base ledger)).Perm (rs.map (·.offset)) := by
    apply (List.subperm_of_subset hwrote.bases hsub).perm_of_length_le
    rw [List.length_map, List.length_map]
    omega
  -- Pieces lie in their reservations, and those lie apart.
  have hpieces : f.pieces.Pairwise (Piece.Apart ledger) := by
    apply (List.Nodup.of_map _ hwrote.bases).pairwise_of_forall_ne
    intro p hp q hq hne
    have hsizeP := le_alignUp p.size
    have hsizeQ := le_alignUp q.size
    let rp := Reservation.ofPiece (p.base ledger).toNat p
    let rq := Reservation.ofPiece (q.base ledger).toNat q
    have hpq : rp ≠ rq := by
      intro heq
      have hbase : p.base ledger = q.base ledger := by
        rw [← hoffset p, ← hoffset q]
        exact congrArg Reservation.offset heq
      exact hne (List.inj_on_of_nodup_map hwrote.bases hp hq hbase)
    have hsymm : rs.Pairwise fun r r' => r.Before r' ∨ r'.Before r := hapart.imp .inl
    have : Std.Symm fun r r' : Reservation => r.Before r' ∨ r'.Before r := ⟨fun _ _ => Or.symm⟩
    rcases hsymm.forall (hfits p hp) (hfits q hq) hpq with hbefore | hbefore
    · rw [Reservation.Before, hoffset, hoffset] at hbefore
      exact .inl (Nat.le_trans (Nat.add_le_add_left hsizeP _) hbefore)
    · rw [Reservation.Before, hoffset, hoffset] at hbefore
      exact .inr (Nat.le_trans (Nat.add_le_add_left hsizeQ _) hbefore)
  intro r hr
  obtain ⟨p, hp, hbase⟩ := List.mem_map.mp (hperm.mem_iff.mpr (List.mem_map_of_mem hr))
  have heq : Reservation.ofPiece (p.base ledger).toNat p = r :=
    List.inj_on_of_nodup_map hnodup (hfits p hp) hr ((hoffset p).trans hbase)
  refine ⟨p, hp, ?_, ?_, ?_⟩
  · rw [← hbase]
    exact heq.symm
  · rw [← hbase]
    exact hwrote.rows p hp
  · rw [← hbase]
    exact hwrote.stands hpieces p hp

end

/-- A write that succeeds has filled every reservation exactly if nothing was written since the plan before it
and every piece of the tree still fits a reservation. -/
theorem Context.write_fills_iff {f : Function ι} {cx cx' : Context ι} {p : Packed} (hcx : cx.Reached)
    (h : Context.write f cx = .ok p cx') :
    (∀ r ∈ cx.reservations.toList, r.FilledBy cx.ledger f p.block)
      ↔ cx.written.isEmpty ∧ ∀ q ∈ f.pieces, q.Fits cx.ledger cx.reservations.toList := by
  obtain ⟨ps, hlaid⟩ := hcx.laid
  obtain ⟨block, stop, hblock, hvisits, hall, rfl, -⟩ := Context.write_eq_ok_iff.mp h
  have hwrote := Progress.writeVisits_inv hvisits
  rw [placedPieces_visits] at hwrote
  -- A reached context has a block of the planned size, so no offset in it wraps around.
  have hend : 0 + piecesSize ps < range64 := by
    have hsize := hlaid.block block hblock
    have hcursor := hlaid.cursor
    have hlimit : block.size < sizeLimit := block.size_lt
    unfold sizeLimit range64 at *
    omega
  have hnodup := nodup_offsets_reservationsFrom hend
  have hapart := pairwise_reservationsFrom hend
  rw [← hlaid.reservations] at hnodup hapart
  -- The write ended well, so as many offsets were written as reserved, those of before included.
  have hcount : cx.reservations.toList.length = cx.written.size + f.pieces.length := by
    rw [Array.length_toList, hall, hwrote.written]
  rw [Std.HashSet.isEmpty_eq_size_eq_zero, beq_iff_eq]
  constructor
  · exact hwrote.fits_of_filled hnodup hcount
  · rintro ⟨hempty, hfits⟩
    exact hwrote.filled_of_fits hnodup hcount hapart hempty hfits

/-- A break in a loop, planned, allocated and written. -/
theorem write_fills_iff_breakInLoop :
    ∃ size planned allocated p cx', Context.plan breakInLoop Context.empty = .ok size planned
      ∧ Context.allocate Allocator.heap planned = .ok () allocated
      ∧ allocated.Reached ∧ Context.write breakInLoop allocated = .ok p cx'
      ∧ ((∀ r ∈ allocated.reservations.toList, r.FilledBy allocated.ledger breakInLoop p.block)
        ↔ allocated.written.isEmpty
          ∧ ∀ q ∈ breakInLoop.pieces, q.Fits allocated.ledger allocated.reservations.toList) := by
  obtain ⟨size, planned, allocated, hplan, halloc⟩ :=
    Context.exists_allocated (by decide) breakInLoop_wellFormed (by decide) Context.empty
  obtain ⟨p, cx', hwrite, -⟩ := Context.write_relocates hplan halloc
  have hreached := Context.Reached.allocated hplan halloc
  exact ⟨size, planned, allocated, p, cx', hplan, halloc, hreached, hwrite,
    Context.write_fills_iff hreached hwrite⟩

def nops (n : Nat) : Function Nat :=
  { scope := ⟨0, [], (List.range' 1 n).map fun i => ⟨⟨i, .nop, none, none, none, []⟩, none, []⟩⟩
    args := [] }

/-- Two statements are planned and the second is taken away. The write of what is left succeeds, and no piece
fills the reservation of two statements. -/
theorem unfilled_nops :
    ∃ size planned allocated p cx' r, Context.plan (nops 2) Context.empty = .ok size planned
      ∧ Context.allocate Allocator.heap planned = .ok () allocated
      ∧ allocated.Reached ∧ Context.write (nops 1) allocated = .ok p cx'
      ∧ r ∈ allocated.reservations.toList ∧ ¬r.FilledBy allocated.ledger (nops 1) p.block := by
  obtain ⟨size, planned, allocated, hplan, halloc⟩ :=
    Context.exists_allocated (f := nops 2) (by decide) ⟨by decide, by decide, by decide⟩ (by decide)
      Context.empty
  obtain ⟨hplanned, block, -, hblock, hsize⟩ := Context.allocate_run (Context.plan_run hplan) halloc
  -- What is left of the array begins where the array was planned.
  have hpieces : allocated.ledger.HasPieces 0 (nops 1).pieces :=
    ⟨hplanned.pieces.1, ⟨hplanned.pieces.2.1.1, trivial⟩, trivial⟩
  have hptrs : PointersIn (nops 1).pieces fun q => ∃ o, allocated.ledger.resolve q = .ok o := by
    have hfirst : PointersIn (nops 1).pieces (· = 1) := by
      unfold PointersIn
      decide
    intro p hp c hc q hq
    obtain rfl : q = 1 := hfirst p hp c hc q hq
    exact ⟨_, hplanned.pieces.2.1.1⟩
  have hfit : piecesSize (nops 1).pieces ≤ block.size := by
    rw [hsize, hplanned.size_eq]
    decide
  have hcount : allocated.reservations.size = (nops 1).pieces.length := hplanned.size_reservations
  obtain ⟨stop, -, hwrite⟩ := Context.write_of_pieces hblock hplanned.written hpieces hptrs hfit hcount
  let array : Reservation := ⟨.ofNat 32, 176, .stmt, 2⟩
  have harray : array ∈ allocated.reservations.toList := by
    rw [hplanned.reservations]
    decide
  refine ⟨size, planned, allocated, _, _, array, hplan, halloc, Context.Reached.allocated hplan halloc, hwrite,
    harray, ?_⟩
  rintro ⟨p, hp, hpiece, -⟩
  have hcount : ∀ p ∈ (nops 1).pieces, p.cells.length = 1 := by decide
  have htwo : 2 = p.cells.length := congrArg Reservation.count hpiece
  rw [hcount p hp] at htwo
  cases htwo

end TreePack
