import Mathlib.Data.List.Induction
import TreePack.Proofs.Filling
import TreePack.Proofs.Histories

namespace TreePack

variable {ι : Type} [DecidableEq ι] [Hashable ι]

/-! ### Why a piece is not written -/

namespace Ledger

def InLine (l : Ledger ι) (pos stride : Nat) (cs : List (Leaf ι (Cell ι))) : Prop :=
  ∀ i c o, cs[i]? = some c → l.resolve c.id = .ok o → o = .ofNat (pos + i * stride)

/-- The rest of a row stands one stride further on. -/
theorem InLine.tail {l : Ledger ι} {pos stride : Nat} {c : Leaf ι (Cell ι)} {cs : List (Leaf ι (Cell ι))}
    (h : l.InLine pos stride (c :: cs)) : l.InLine (pos + stride) stride cs := by
  intro i d o hd ho
  have hplace := h (i + 1) d o hd ho
  rw [Nat.succ_mul, ← Nat.add_assoc, Nat.add_right_comm] at hplace
  exact hplace

def Lacks (l : Ledger ι) (cs : List (Leaf ι (Cell ι))) (e : CompactError ι) : Prop :=
  ∃ node, (∃ c ∈ cs, node = c.id ∨ node ∈ c.val.pointers) ∧ l.entry? node = none ∧ e = .ledgerMiss node

/-- A missing entry stays missing when more cells are asked for. -/
theorem Lacks.mono {l : Ledger ι} {cs ds : List (Leaf ι (Cell ι))} {e : CompactError ι} (h : l.Lacks cs e)
    (hsub : cs ⊆ ds) : l.Lacks ds e := by
  obtain ⟨node, ⟨c, hc, hnode⟩, hnone, he⟩ := h
  exact ⟨node, ⟨c, hsub hc, hnode⟩, hnone, he⟩

end Ledger

namespace Progress

variable {ledger : Ledger ι} {s s' : Progress} {e : CompactError ι}

/-- A look-up fails only for a node without entry, and nothing is written by it. -/
theorem lookUp_error {node : ι} (h : lookUp ledger node s = .error e s') :
    ledger.entry? node = none ∧ e = .ledgerMiss node ∧ s'.written = s.written := by
  cases s with
  | mk written stats block =>
    simp only [lookUp, Ledger.resolve] at h
    cases hentry : ledger.entry? node with
    | some entry =>
      rw [hentry] at h
      cases h
    | none =>
      rw [hentry] at h
      cases h
      exact ⟨rfl, rfl, rfl⟩

theorem lookUpAll_error {nodes : List ι} (h : lookUpAll ledger nodes s = .error e s') :
    ∃ node ∈ nodes, ledger.entry? node = none ∧ e = .ledgerMiss node ∧ s'.written = s.written := by
  induction nodes generalizing s with
  | nil => cases h
  | cons node nodes ih =>
    rcases bind_eq_error_iff.mp h with hfirst | ⟨o, mid, hfirst, hrest⟩
    · exact ⟨node, List.mem_cons_self, lookUp_error hfirst⟩
    · obtain ⟨-, -, hwritten⟩ := lookUp_inv hfirst
      obtain ⟨other, hother, hnone, he, hwritten'⟩ := ih hrest
      exact ⟨other, List.mem_cons_of_mem _ hother, hnone, he, hwritten'.trans hwritten⟩

/-- Cells in line are relocated unless the ledger lacks a node. -/
theorem relocate_error {pos stride : Nat} {cs : List (Leaf ι (Cell ι))} (hline : ledger.InLine pos stride cs)
    (hsize : ∀ c ∈ cs, c.val.size = stride) (h : relocate ledger pos cs s = .error e s') :
    ledger.Lacks cs e ∧ s'.written = s.written := by
  induction cs generalizing pos s with
  | nil => cases h
  | cons c cs ih =>
    -- The cell is looked up, compared with its place, and then all that it points to is looked up.
    rcases bind_eq_error_iff.mp h with hself | ⟨found, s₁, hfound, h⟩
    · obtain ⟨hnone, he, hwritten⟩ := lookUp_error hself
      exact ⟨⟨c.id, ⟨c, List.mem_cons_self, .inl rfl⟩, hnone, he⟩, hwritten⟩
    obtain ⟨hresolve, -, hwritten₁⟩ := lookUp_inv hfound
    have hplace : found = .ofNat pos := by
      have hfirst := hline 0 c found rfl hresolve
      rw [Nat.zero_mul, Nat.add_zero] at hfirst
      exact hfirst
    simp only [hplace, ne_eq, not_true_eq_false, ↓reduceIte] at h
    rcases bind_eq_error_iff.mp h with hall | ⟨u, s₂, hall, h⟩
    · obtain ⟨node, hnode, hnone, he, hwritten⟩ := lookUpAll_error hall
      exact ⟨⟨node, ⟨c, List.mem_cons_self, .inr hnode⟩, hnone, he⟩, hwritten.trans hwritten₁⟩
    obtain ⟨-, hwritten₂⟩ := lookUpAll_inv hall
    rcases bind_eq_error_iff.mp h with hothers | ⟨rest, s₃, -, h⟩
    · rw [hsize c List.mem_cons_self] at hothers
      obtain ⟨hlacks, hwritten₃⟩ := ih hline.tail (fun d hd => hsize d (List.mem_cons_of_mem _ hd)) hothers
      exact ⟨hlacks.mono (List.subset_cons_self _ _), hwritten₃.trans (hwritten₂.trans hwritten₁)⟩
    · cases h

omit [DecidableEq ι] [Hashable ι] in
/-- Writing a node's bytes fails for one of two reasons: its offset was written before, or the
bytes pass the end of the block. -/
theorem emit_error {o : Offset} {bytes : List UInt8} (h : (emit o bytes : WriteM ι Unit) s = .error e s') :
    s.written.contains o ∨ s.block.size < o.toNat + bytes.length := by
  by_cases hcontains : s.written.contains o
  · exact .inl hcontains
  · right
    by_contra hfit
    cases s with
    | mk written stats block =>
      obtain ⟨block', hwrite⟩ := Block.exists_write (Nat.not_lt.mp hfit)
      have hwritten : written.contains o = false := Bool.eq_false_iff.mpr hcontains
      simp only [emit, hwritten, Bool.false_eq_true, ↓reduceIte, hwrite] at h
      cases h

/-- A piece in line is written unless the ledger lacks a node, if there is room for it. -/
theorem writePiece_error {p : Piece ι}
    (hline : ledger.InLine (p.base ledger).toNat p.first.val.size p.cells) (huniform : p.Uniform)
    (hroom : ledger.HasRow (p.base ledger).toNat p.cells →
      s.written.contains (p.base ledger) = false ∧ (p.base ledger).toNat + p.size ≤ s.block.size)
    (h : writePiece ledger p s = .error e s') : ledger.Lacks p.cells e ∧ s'.written = s.written := by
  -- Once all cells are found in line the bytes fit, so only a look-up can have failed.
  have hrow {mid : Progress} (hblock : mid.block = s.block) (hwritten : mid.written = s.written)
      (h : (relocate ledger (p.base ledger).toNat p.cells >>= emit (p.base ledger)) mid = .error e s') :
      ledger.Lacks p.cells e ∧ s'.written = s.written := by
    rcases bind_eq_error_iff.mp h with hrelocate | ⟨bytes, mid', hrelocate, hemit⟩
    · obtain ⟨hlacks, hwritten'⟩ := relocate_error hline huniform hrelocate
      exact ⟨hlacks, hwritten'.trans hwritten⟩
    · exfalso
      obtain ⟨hhas, rfl, hblock', hwritten'⟩ := relocate_inv hrelocate
      obtain ⟨hfresh, hfit⟩ := hroom hhas
      rcases emit_error hemit with htwice | hshort
      · rw [hwritten', hwritten, hfresh] at htwice
        cases htwice
      · rw [hblock', hblock, length_rowBytes, ← Piece.size_eq] at hshort
        omega
  unfold writePiece at h
  by_cases hkind : p.first.val.kind = .switchLabel
  · rw [if_pos hkind] at h
    rcases bind_eq_error_iff.mp h with hfirst | ⟨o, mid, hfirst, hrest⟩
    · obtain ⟨hnone, he, hwritten⟩ := lookUp_error hfirst
      exact ⟨⟨p.first.id, ⟨p.first, List.mem_cons_self, .inl rfl⟩, hnone, he⟩, hwritten⟩
    · obtain ⟨-, hblock, hwritten⟩ := lookUp_inv hfirst
      exact hrow hblock hwritten hrest
  · rw [if_neg hkind] at h
    exact hrow rfl rfl h

end Progress

/-! ### Pieces of a consistent history -/

namespace Context.Kept

variable {calls : List (Call ι)} {cx : Context ι} {ps refused : List (Piece ι)}

/-- A cell of a piece that the ledger has is planned: the piece of the plan begins where this one does, has cells
of the same size, and is long enough. -/
theorem exists_planned (hkept : Kept calls cx ps refused) (hcalls : Consistent calls) (hrange : cx.cursor < range64)
    {p : Piece ι} (hp : HistoryPiece calls p) {i : Nat} {c : Leaf ι (Cell ι)} {o : Offset}
    (hc : p.cells[i]? = some c) (ho : cx.ledger.resolve c.id = .ok o) :
    (p.base cx.ledger).toNat + (i + 1) * p.first.val.size ≤ cx.cursor
      ∧ o = .ofNat ((p.base cx.ledger).toNat + i * p.first.val.size) := by
  obtain ⟨entry, hentry, -⟩ := (Ledger.resolve_eq_ok_iff _ _ _).mp ho
  have hmem := hkept.known hrange c.id (by rw [hentry]; rfl)
  obtain ⟨q, hq, j, d, hj, hid⟩ := exists_cell_of_mem_idsOf hmem
  have hq' := hkept.pieces q hq
  -- The planned piece that has the node agrees with this one: same first node, same index.
  obtain ⟨hfirst, rfl, hnode⟩ := (hcalls.agrees hp hq').of_getElem? hc hj hid.symm
  have hend := hkept.piecesSize_le
  obtain ⟨start, hrow, -, hstop⟩ := hkept.entered.exists_row hq
  have hstride : q.first.val.size = p.first.val.size := by
    calc
      q.first.val.size = d.val.size := (hq'.uniform d (List.mem_of_getElem? hj)).symm
      _ = c.val.size := hnode.size_eq.symm
      _ = p.first.val.size := hp.uniform c (List.mem_of_getElem? hc)
  -- So both start where the ledger has their first node.
  have hbase : (p.base cx.ledger).toNat = start := by
    have hstart : cx.ledger.resolve q.first.id = .ok (.ofNat start) := hrow.1
    rw [Piece.base, hfirst, Ledger.offset_of_resolve hstart]
    exact Offset.toNat_ofNat (by omega)
  have hlong : (i + 1) * p.first.val.size ≤ q.size := by
    have hlength := (List.getElem?_eq_some_iff.mp hj).1
    rw [Piece.size_eq, rowSize_of_uniform hq'.uniform, hstride]
    exact Nat.mul_le_mul_right _ hlength
  have hat := hrow.resolve hq'.uniform hj
  rw [hid, hstride] at hat
  rw [hbase]
  exact ⟨by omega, Except.ok.inj (ho.symm.trans hat)⟩

/-- Whatever piece the planned tree has, its cells stand in line from the base the ledger gives. -/
theorem inLine (hkept : Kept calls cx ps refused) (hcalls : Consistent calls) (hrange : cx.cursor < range64)
    {p : Piece ι} (hp : HistoryPiece calls p) :
    cx.ledger.InLine (p.base cx.ledger).toNat p.first.val.size p.cells :=
  fun _ _ _ hc ho => (hkept.exists_planned hcalls hrange hp hc ho).2

/-- A piece whose cells are all planned ends in front of the end of the plan. -/
theorem room (hkept : Kept calls cx ps refused) (hcalls : Consistent calls) (hrange : cx.cursor < range64)
    {p : Piece ι} (hp : HistoryPiece calls p)
    (hrow : cx.ledger.HasRow (p.base cx.ledger).toNat p.cells) :
    (p.base cx.ledger).toNat + p.size ≤ cx.cursor := by
  -- The last cell is in its place too, so the row is as long as the planned one at most.
  let last := p.cells.length - 1
  have hlength : last + 1 = p.cells.length := Nat.sub_add_cancel (Nat.succ_le_succ (Nat.zero_le _))
  have hlt : last < p.cells.length := by omega
  have hlast := List.getElem?_eq_getElem hlt
  have hend := (hkept.exists_planned hcalls hrange hp hlast (hrow.resolve hp.uniform hlast)).1
  rw [hlength] at hend
  rw [Piece.size_eq, rowSize_of_uniform hp.uniform]
  exact hend

/-- A planned node that was not used up has an offset at which nothing was written. -/
theorem fresh (hkept : Kept calls cx ps refused) (hrange : cx.cursor < range64) {written : Std.HashSet Offset}
    {used : List ι} (hwritten : cx.ledger.PlacesOf written used) {node : ι} {o : Offset}
    (ho : cx.ledger.resolve node = .ok o) (hnew : node ∉ used) : written.contains o = false := by
  have hmem {x : ι} (hx : cx.ledger.resolve x = .ok o) : x ∈ idsOf ps := by
    obtain ⟨entry, hentry, -⟩ := (Ledger.resolve_eq_ok_iff _ _ _).mp hx
    exact hkept.known hrange x (by rw [hentry]; rfl)
  by_contra hcontains
  obtain ⟨other, hother, ho'⟩ := hwritten o (Bool.not_eq_false _ ▸ hcontains)
  have hend : piecesSize ps < range64 := Nat.lt_of_le_of_lt hkept.piecesSize_le hrange
  have hsame : other = node := hkept.entered.resolve_inj hend (hmem ho') (hmem ho) ho' ho
  rw [hsame] at hother
  exact hnew hother

end Context.Kept

/-! ### One write -/

section

variable {calls : List (Call ι)} {cx : Context ι} {ps refused : List (Piece ι)} (hkept : cx.Kept calls ps refused)
  (hcalls : Consistent calls) (hrange : cx.cursor < range64)

include hkept hcalls hrange

/-- A piece of a consistent history that was not used up is written in its planned place, or the ledger lacks one
of its nodes. -/
theorem Progress.writePiece_altered {p : Piece ι} {used : List ι} {s : Progress} (hp : HistoryPiece calls p)
    (hunused : p.first.id ∉ used) (hblock : s.block.size = cx.cursor)
    (hwritten : cx.ledger.PlacesOf s.written used) :
    (∀ s', writePiece cx.ledger p s = .ok () s' →
        s'.block.size = cx.cursor ∧ cx.ledger.PlacesOf s'.written (used ++ p.cells.map (·.id)))
      ∧ ∀ e s', writePiece cx.ledger p s = .error e s' →
        s'.written = s.written ∧ cx.ledger.Lacks p.cells e := by
  have hat (hrow : cx.ledger.HasRow (p.base cx.ledger).toNat p.cells) :
      cx.ledger.resolve p.first.id = .ok (p.base cx.ledger) := by
    rw [← Offset.ofNat_toNat (p.base cx.ledger)]
    exact hrow.1
  constructor
  · intro s' hwrite
    obtain ⟨hrow, -, hbytes, hinsert⟩ := writePiece_inv hwrite
    refine ⟨(Block.size_write hbytes).trans hblock, fun o ho => ?_⟩
    rw [hinsert, Std.HashSet.contains_insert, Bool.or_eq_true, beq_iff_eq] at ho
    rcases ho with rfl | ho
    · exact ⟨p.first.id, List.mem_append_right _ List.mem_cons_self, hat hrow⟩
    · exact hwritten.mono (List.subset_append_left _ _) o ho
  · intro e s' hwrite
    -- There is room for the piece and nothing in its place, so only a node can be lacking.
    have hroom (hrow : cx.ledger.HasRow (p.base cx.ledger).toNat p.cells) :
        s.written.contains (p.base cx.ledger) = false
          ∧ (p.base cx.ledger).toNat + p.size ≤ s.block.size := by
      rw [hblock]
      exact ⟨hkept.fresh hrange hwritten (hat hrow) hunused, hkept.room hcalls hrange hp hrow⟩
    obtain ⟨hlacks, hsame⟩ := writePiece_error (hkept.inLine hcalls hrange hp) hp.uniform hroom hwrite
    exact ⟨hsame, hlacks⟩

/-- A walk over pieces of a consistent history, none of which was used up, is written unless the ledger lacks a
node. Either way it writes only where its nodes are planned. -/
theorem Progress.writeVisits_altered {vs : List (Visit ι)} {used : List ι} {s : Progress}
    (hpieces : ∀ p ∈ placedPieces vs, HistoryPiece calls p) (hnew : (used ++ idsOf (placedPieces vs)).Nodup)
    (hblock : s.block.size = cx.cursor) (hwritten : cx.ledger.PlacesOf s.written used) :
    (∀ s', writeVisits cx.ledger vs s = .ok () s' →
        cx.ledger.PlacesOf s'.written (used ++ idsOf (placedPieces vs)))
      ∧ ∀ e s', writeVisits cx.ledger vs s = .error e s' →
        cx.ledger.PlacesOf s'.written (used ++ idsOf (placedPieces vs))
          ∧ cx.ledger.Lacks (cellsOf (placedPieces vs)) e := by
  -- On the steps; what was used up grows by each piece that is written.
  induction vs generalizing used s with
  | nil =>
    refine ⟨fun s' h => ?_, fun e s' h => ?_⟩
    · cases h
      exact hwritten.mono (List.subset_append_left _ _)
    · cases h
  | cons v vs ih =>
    cases hv : v.piece? with
    | none =>
      obtain ⟨mid, hstep, hblock', hwritten', -⟩ := writeVisit_skip cx.ledger hv s
      rw [placedPieces_skip hv] at hpieces hnew ⊢
      rw [← hblock'] at hblock
      rw [← hwritten'] at hwritten
      rw [writeVisits, bind_of_ok hstep]
      exact ih hpieces hnew hblock hwritten
    | some p =>
      obtain rfl : v = .place p := Visit.eq_place_of_piece? hv
      rw [placedPieces_place] at hpieces hnew ⊢
      obtain ⟨hp, hpieces⟩ := List.forall_mem_cons.mp hpieces
      rw [idsOf_cons, ← List.append_assoc] at hnew ⊢
      have hunused : p.first.id ∉ used := fun hused =>
        (List.nodup_append.mp (List.nodup_append.mp hnew).1).2.2 _ hused _ List.mem_cons_self rfl
      obtain ⟨hstepOk, hstepError⟩ := writePiece_altered hkept hcalls hrange hp hunused hblock hwritten
      cases hstep : writeVisit cx.ledger (.place p) s with
      | error e mid =>
        obtain ⟨hsame, hlacks⟩ := hstepError e mid hstep
        rw [writeVisits, bind_of_error hstep]
        refine ⟨nofun, fun e' s' h => ?_⟩
        cases h
        rw [hsame, List.append_assoc]
        exact ⟨hwritten.mono (List.subset_append_left _ _), hlacks.mono (List.subset_append_left _ _)⟩
      | ok u mid =>
        obtain ⟨hmidBlock, hmid⟩ := hstepOk mid hstep
        obtain ⟨hok, herror⟩ := ih hpieces hnew hmidBlock hmid
        rw [writeVisits, bind_of_ok hstep]
        refine ⟨hok, fun e s' h => ?_⟩
        obtain ⟨hplaces, hlacks⟩ := herror e s' h
        exact ⟨hplaces, hlacks.mono (List.subset_append_right _ _)⟩

end

/-! ### Calls of a history -/

namespace Context

namespace Kept

variable {calls : List (Call ι)} {cx : Context ι} {ps refused : List (Piece ι)}

/-- A block of the size of the plan is not longer than there are offsets. -/
theorem range (hkept : Kept calls cx ps refused) {block : Block} (hblock : cx.block = some block) :
    block.size = cx.cursor ∧ cx.cursor < range64 := by
  have hsize := hkept.laid.block block hblock
  refine ⟨hsize, ?_⟩
  rw [← hsize]
  exact block.size_lt_range

/-- The steps of a write, in a history of which it is the last call. -/
theorem writeVisits (hkept : Kept calls cx ps refused) {f : Function ι} (h : Consistent (calls ++ [.write f]))
    {block : Block} (hblock : cx.block = some block) :
    (∀ stop, Progress.writeVisits cx.ledger f.visits ⟨cx.written, cx.stats, block⟩ = .ok () stop →
        cx.ledger.PlacesOf stop.written (consumedBy (calls ++ [.write f])))
      ∧ ∀ e stop, Progress.writeVisits cx.ledger f.visits ⟨cx.written, cx.stats, block⟩ = .error e stop →
        cx.ledger.PlacesOf stop.written (consumedBy (calls ++ [.write f]))
          ∧ cx.ledger.Lacks (cellsOf f.pieces) e := by
  obtain ⟨hsize, hrange⟩ := hkept.range hblock
  have hpieces : ∀ p ∈ placedPieces f.visits, HistoryPiece (calls ++ [.write f]) p := by
    rw [placedPieces_visits]
    exact fun p hp => historyPiece_concat calls rfl hp
  have hnew := h.once
  rw [consumedBy_write, ← placedPieces_visits] at hnew
  have hwrite := Progress.writeVisits_altered (hkept.append [.write f]) h hrange
    (s := ⟨cx.written, cx.stats, block⟩) hpieces hnew hsize hkept.written
  rw [placedPieces_visits, ← consumedBy_write] at hwrite
  exact hwrite

/-- A write leaves the ledger and the reservations alone, whatever it answers. -/
theorem write (hkept : Kept calls cx ps refused) {f : Function ι} (h : Consistent (calls ++ [.write f])) :
    Kept (calls ++ [.write f]) ((Context.write f).after cx) ps refused := by
  have hlaid := hkept.laid.write f
  have hold := hkept.append [.write f]
  rcases after_write f cx with ⟨-, hafter⟩ | ⟨block, stop, hblock, hvisits, hafter⟩
  · rw [hafter]
    exact hold
  · rw [hafter] at hlaid ⊢
    refine ⟨hlaid, hold.entered, hold.pieces, hold.known, ?_⟩
    obtain ⟨hok, herror⟩ := hkept.writeVisits h hblock
    rcases hvisits with hvisits | ⟨e, hvisits⟩
    · exact hok stop hvisits
    · exact (herror e stop hvisits).1

/-- Between plans the planned pieces stay what they are. -/
theorem after (hkept : Kept calls cx ps refused) {c : Call ι} (hc : c.isPlan = false)
    (h : Consistent (calls ++ [c])) : Kept (calls ++ [c]) (c.after cx) ps refused := by
  cases c with
  | plan f => cases hc
  | allocate allocator => exact hkept.allocate allocator
  | write f => exact hkept.write h

end Kept

/-- Every history keeps the ledger and the written offsets to what it has planned. -/
theorem kept_afterCalls {calls : List (Call ι)} (h : Consistent calls) :
    ∃ ps refused, Kept calls (afterCalls calls) ps refused := by
  induction calls using List.reverseRecOn with
  | nil => exact ⟨[], [], kept_empty⟩
  | append_singleton calls c ih =>
    rw [afterCalls_concat]
    cases c with
    | plan f => exact kept_plan h _
    | allocate allocator =>
      obtain ⟨ps, refused, hkept⟩ := ih h.of_append
      exact ⟨ps, refused, hkept.after rfl h⟩
    | write f =>
      obtain ⟨ps, refused, hkept⟩ := ih h.of_append
      exact ⟨ps, refused, hkept.after rfl h⟩

/-- After a plan that succeeded and calls that plan nothing, the pieces of its tree are the planned ones. -/
theorem kept_afterCalls_of_plan {before between : List (Call ι)} {a : Function ι} {size : Nat}
    {cx : Context ι} (hplan : Context.plan a (afterCalls before) = .ok size cx)
    (hbetween : ∀ c ∈ between, c.isPlan = false) (h : Consistent (before ++ [.plan a] ++ between)) :
    Kept (before ++ [.plan a] ++ between) (afterCalls (before ++ [.plan a] ++ between)) a.pieces [] := by
  induction between using List.reverseRecOn with
  | nil =>
    have hafter : (Context.plan a).after (afterCalls before) = cx := CompactM.after_of_ok hplan
    rw [List.append_nil, afterCalls_concat, Call.after, hafter]
    exact kept_plan_of_ok hplan before
  | append_singleton between c ih =>
    rw [← List.append_assoc] at h ⊢
    rw [afterCalls_concat]
    have hkept := ih (fun d hd => hbetween d (List.mem_append_left _ hd)) h.of_append
    exact hkept.after (hbetween c (List.mem_append_right _ List.mem_cons_self)) h

end Context

/-! ### The write of an altered tree -/

/-- The tree has just the nodes of another one, each perhaps in another place, and its loop references lead to
them. -/
structure Function.Rearranges (f a : Function ι) : Prop where
  nodes : ∀ node, node ∈ idsOf f.pieces ↔ node ∈ idsOf a.pieces
  loops : ∀ s ∈ f.scope.allStmts, ∀ target ∈ s.head.loop, target ∈ idsOf f.pieces

omit [DecidableEq ι] [Hashable ι] in
theorem map_first_sublist_idsOf (ps : List (Piece ι)) : (ps.map fun p => p.first.id).Sublist (idsOf ps) := by
  induction ps with
  | nil => exact List.Sublist.slnil
  | cons p ps ih => exact (ih.trans (List.sublist_append_right _ _)).cons_cons p.first.id

omit [DecidableEq ι] [Hashable ι] in
/-- Arrays with the same elements in the same places are the same arrays, so there are as many of them. -/
theorem Function.Agrees.length_pieces {f a : Function ι} (h : f.Agrees a) (h' : a.Agrees f)
    (hf : (idsOf f.pieces).Nodup) (ha : (idsOf a.pieces).Nodup)
    (hnodes : ∀ node, node ∈ idsOf f.pieces ↔ node ∈ idsOf a.pieces) :
    f.pieces.length = a.pieces.length := by
  -- Pieces that share a node share their first one, so first nodes of one tree are those of the other.
  have hsub {g g' : Function ι} (hagrees : g.Agrees g')
      (hnodes : ∀ node, node ∈ idsOf g.pieces → node ∈ idsOf g'.pieces) :
      (g.pieces.map fun p => p.first.id) ⊆ g'.pieces.map fun p => p.first.id := by
    intro node hnode
    obtain ⟨p, hp, rfl⟩ := List.mem_map.mp hnode
    have hmem : p.first.id ∈ idsOf g.pieces := (map_first_sublist_idsOf _).subset hnode
    obtain ⟨q, hq, j, d, hj, hid⟩ := exists_cell_of_mem_idsOf (hnodes _ hmem)
    have hfirst : p.cells[0]? = some p.first := rfl
    obtain ⟨hsame, -, -⟩ := (hagrees p hp q hq).of_getElem? hfirst hj hid.symm
    exact List.mem_map.mpr ⟨q, hq, hsame.symm⟩
  have hle := List.subperm_of_subset (hf.sublist (map_first_sublist_idsOf _))
    (hsub h fun node hnode => (hnodes node).mp hnode)
  have hge := List.subperm_of_subset (ha.sublist (map_first_sublist_idsOf _))
    (hsub h' fun node hnode => (hnodes node).mpr hnode)
  have hlength := Nat.le_antisymm hle.length_le hge.length_le
  rw [List.length_map, List.length_map] at hlength
  exact hlength

namespace Context

section

variable {calls : List (Call ι)} {cx : Context ι} {f a : Function ι}
  (hkept : Kept calls cx a.pieces []) (h : Consistent (calls ++ [.write f])) (hrearranges : f.Rearranges a)

include hkept

/-- Every node of the planned tree has its entry. -/
theorem Kept.isSome_entry? {node : ι} (hnode : node ∈ idsOf a.pieces) :
    (cx.ledger.entry? node).isSome := by
  obtain ⟨pos, hpos, -⟩ := hkept.entered.resolve_mem hnode
  obtain ⟨entry, hentry, -⟩ := (Ledger.resolve_eq_ok_iff _ _ _).mp hpos
  rw [hentry]
  rfl

include hrearranges

/-- The ledger lacks no node that a rearranged tree asks for. -/
theorem Kept.not_lacks (e : CompactError ι) : ¬cx.ledger.Lacks (cellsOf f.pieces) e := by
  rintro ⟨node, ⟨c, hc, hnode⟩, hnone, -⟩
  obtain ⟨p, hp, hcp⟩ := List.mem_flatMap.mp hc
  have hpointers := f.pointersIn (S := fun q => q ∈ idsOf f.pieces) (fun q hq => hq) hrearranges.loops
  have hmem : node ∈ idsOf f.pieces := by
    rcases hnode with rfl | hnode
    · exact List.mem_flatMap.mpr ⟨p, hp, List.mem_map_of_mem hcp⟩
    · exact hpointers p hp c hcp node hnode
  have hentry := hkept.isSome_entry? ((hrearranges.nodes node).mp hmem)
  rw [hnone] at hentry
  cases hentry

include h

/-- As long as the planned nodes are not used up, nothing was written. -/
theorem Kept.written_size_eq_zero (hrange : cx.cursor < range64) : cx.written.size = 0 := by
  have hempty : cx.written.isEmpty = true := by
    apply Std.HashSet.isEmpty_iff_forall_contains.mpr
    intro o
    by_contra hcontains
    obtain ⟨node, hused, hresolve⟩ := hkept.written o (Bool.not_eq_false _ ▸ hcontains)
    obtain ⟨entry, hentry, -⟩ := (Ledger.resolve_eq_ok_iff _ _ _).mp hresolve
    have hplanned := hkept.known hrange node (by rw [hentry]; rfl)
    have honce := h.once
    rw [consumedBy_write] at honce
    -- What was written before the last plan is of no node of the tree, as each is written once.
    have hagain : node ∈ idsOf f.pieces := (hrearranges.nodes node).mpr hplanned
    exact (List.nodup_append.mp honce).2.2 node hused node hagain rfl
  rw [Std.HashSet.isEmpty_eq_size_eq_zero, beq_iff_eq] at hempty
  exact hempty

/-- A rearranged tree has as many pieces as the planned one. -/
theorem Kept.length_pieces (hrange : cx.cursor < range64) : f.pieces.length = a.pieces.length := by
  have hhistory (p : Piece ι) (hp : p ∈ f.pieces) : HistoryPiece (calls ++ [.write f]) p :=
    historyPiece_concat calls rfl hp
  have hplanned := (hkept.append [.write f]).pieces
  -- The one tree is written only once, and the nodes of the other have offsets of their own.
  have honce := h.once
  rw [consumedBy_write] at honce
  have hf : (idsOf f.pieces).Nodup := (List.nodup_append.mp honce).2.1
  have hend : piecesSize a.pieces < range64 := Nat.lt_of_le_of_lt hkept.piecesSize_le hrange
  have ha : (idsOf a.pieces).Nodup := List.Nodup.of_map _ (hkept.entered.nodup_offsets hend)
  apply Function.Agrees.length_pieces _ _ hf ha hrearranges.nodes
  · exact fun p hp q hq => h.agrees (hhistory p hp) (hplanned q hq)
  · exact fun q hq p hp => h.agrees (hplanned q hq) (hhistory p hp)

/-- While the pieces of a tree are planned and a block is there, a rearranged tree is written. -/
theorem Kept.exists_write (hsome : cx.block.isSome) : ∃ p cx', Context.write f cx = .ok p cx' := by
  obtain ⟨block, hblock⟩ := Option.isSome_iff_exists.mp hsome
  obtain ⟨-, hrange⟩ := hkept.range hblock
  cases hvisits : Progress.writeVisits cx.ledger f.visits ⟨cx.written, cx.stats, block⟩ with
  | error e stop =>
    have hlacks := ((hkept.writeVisits h hblock).2 e stop hvisits).2
    exact (hkept.not_lacks hrearranges e hlacks).elim
  | ok u stop =>
    have hwrote := Progress.writeVisits_inv hvisits
    rw [placedPieces_visits] at hwrote
    -- All offsets were written in this walk, one for each piece.
    have hall : cx.reservations.size = stop.written.size := by
      calc
        cx.reservations.size = (reservationsFrom 0 a.pieces).length := by
          rw [← Array.length_toList, hkept.laid.reservations, List.append_nil]
        _ = a.pieces.length := length_reservationsFrom 0 a.pieces
        _ = cx.written.size + f.pieces.length := by
          rw [hkept.written_size_eq_zero h hrearranges hrange, Nat.zero_add,
            hkept.length_pieces h hrearranges hrange]
        _ = stop.written.size := hwrote.written.symm
    exact ⟨_, _, write_eq_ok_iff.mpr ⟨block, stop, hblock, hvisits, hall, rfl, rfl⟩⟩

end

/-- In a consistent history a write fails only for want of a block, of a place in the plan, or of planned nodes.
If a plan succeeded, a block was allocated, and the tree has just the planned nodes, it does not fail. -/
theorem write_altered {calls : List (Call ι)} {f : Function ι} (h : Consistent (calls ++ [.write f])) :
    (∀ e cx', write f (afterCalls calls) = .error e cx' →
        (e = .unallocated ∧ (afterCalls calls).block = none)
        ∨ (∃ node, e = .ledgerMiss node ∧ (afterCalls calls).ledger.entry? node = none)
        ∨ ∃ planned written, e = .incompleteWrite planned written ∧ planned ≠ written)
      ∧ ∀ before a between, calls = before ++ [.plan a] ++ between → (∀ c ∈ between, c.isPlan = false) →
        (∃ size cx, plan a (afterCalls before) = .ok size cx) → (afterCalls calls).block.isSome →
        f.Rearranges a → ∃ p cx', write f (afterCalls calls) = .ok p cx' := by
  constructor
  · intro e cx' herror
    obtain ⟨ps, refused, hkept⟩ := kept_afterCalls h.of_append
    rcases write_error herror with hnone | ⟨block, stop, hblock, hvisits | ⟨-, hcount, he⟩⟩
    · exact .inl hnone
    · obtain ⟨node, -, hnone, he⟩ := ((hkept.writeVisits h hblock).2 e stop hvisits).2
      exact .inr (.inl ⟨node, he, hnone⟩)
    · exact .inr (.inr ⟨_, _, he, hcount⟩)
  · -- The planned pieces are still in the ledger, since nothing in between plans.
    intro before a between hsplit hbetween hplan hsome hrearranges
    obtain ⟨size, cx, hplan⟩ := hplan
    subst hsplit
    have hkept := kept_afterCalls_of_plan hplan hbetween h.of_append
    exact hkept.exists_write h hrearranges hsome

end Context

theorem zero_notMem_letter : (0 : UInt8) ∉ [105] := by decide

def alteredBreakInLoop : Function Nat :=
  let name : Text := ⟨[105], zero_notMem_letter⟩
  { scope :=
      ⟨0, [⟨1, ⟨7, name⟩, .scalar .i32, false⟩],
        [⟨⟨3, .forLoop, some ⟨1, 1⟩, none, none, []⟩,
          some ⟨4, [], [⟨⟨5, .breakLoop, none, some 3, none, []⟩, none,
            [.node ⟨6, .ident, 0, .scalar .i32, some ⟨2, name⟩, none⟩ (.none maxChildren)]⟩]⟩, []⟩]⟩
    args := [⟨8, .scalar .u8⟩] }

theorem write_altered_breakInLoop :
    Consistent [.plan breakInLoop, .allocate Allocator.heap, .write alteredBreakInLoop]
      ∧ ∃ p cx', Context.write alteredBreakInLoop
        (Context.afterCalls [.plan breakInLoop, .allocate Allocator.heap]) = .ok p cx' := by
  have hcalls : Consistent ([.plan breakInLoop, .allocate Allocator.heap] ++ [.write alteredBreakInLoop]) :=
    ⟨by decide, by decide⟩
  have hrearranges : alteredBreakInLoop.Rearranges breakInLoop := by
    refine ⟨fun node => List.Perm.mem_iff ?_, ?_⟩
    · decide
    · decide
  obtain ⟨size, planned, allocated, hplan, halloc⟩ :=
    Context.exists_allocated (by decide) breakInLoop_wellFormed (by decide) Context.empty
  obtain ⟨-, block, -, hblock, -⟩ := Context.allocate_run (Context.plan_run hplan) halloc
  have hsome : (Context.afterCalls [.plan breakInLoop, .allocate Allocator.heap]).block.isSome := by
    change ((Context.allocate Allocator.heap).after ((Context.plan breakInLoop).after Context.empty)).block.isSome
    rw [CompactM.after_of_ok hplan, CompactM.after_of_ok halloc, hblock]
    rfl
  exact ⟨hcalls, (Context.write_altered hcalls).2 [] breakInLoop [.allocate Allocator.heap] rfl (by decide)
    ⟨size, planned, hplan⟩ hsome hrearranges⟩

end TreePack
