import Mathlib.Data.List.Nodup
import TreePack.Proofs.Relocation
import TreePack.Proofs.Runs
/-!
Histories of a context.

A history is a list of calls: trees are planned, blocks are allocated, trees are written. Between its plan and its
write a tree may be altered, but an identity stands for one node all the while, and a write uses its nodes up
(`Consistent`). `Context.Kept` says what such a history leaves in a context: the pieces that were planned, a node
that was refused when its bytes had been set aside, and that the ledger and the written offsets have nothing
besides the planned pieces. Here it is established by a plan; a write keeps
it too, for reasons that belong to writing.
-/

namespace TreePack

variable {ι : Type}

/-! ### One node for each identity -/

def Cell.text? {π : Type} : Cell π → Option Text
  | text t => some t
  | _ => none

/-- What the cells of one node have in common, however its tree was altered: the kind, and a text as a whole. -/
def Cell.SameNode (c d : Cell ι) : Prop := c.kind = d.kind ∧ c.text? = d.text?

instance (c d : Cell ι) : Decidable (c.SameNode d) := inferInstanceAs (Decidable (_ ∧ _))

/-- Cells of one node are of one size, for a text is never altered. -/
theorem Cell.SameNode.size_eq {c d : Cell ι} (h : c.SameNode d) : c.size = d.size := by
  obtain ⟨hkind, htext⟩ := h
  cases c with
  | text t =>
    cases d with
    | text u =>
      cases htext
      rfl
    | scope _ | decl _ | stmt _ | expr _ | switchLabel _ | type _ => cases hkind
  | scope _ | decl _ | stmt _ | expr _ | switchLabel _ | type _ =>
    cases d with
    | scope _ | decl _ | stmt _ | expr _ | text _ | switchLabel _ | type _ => first | rfl | cases hkind

/-- An identity that both pieces have is the same node, at the same place of the same array. -/
def Piece.Agrees (p q : Piece ι) : Prop :=
  ∀ x ∈ p.cells.zipIdx, ∀ y ∈ q.cells.zipIdx, x.1.id = y.1.id →
    p.first.id = q.first.id ∧ x.2 = y.2 ∧ x.1.val.SameNode y.1.val

instance [DecidableEq ι] (p q : Piece ι) : Decidable (p.Agrees q) :=
  inferInstanceAs (Decidable (∀ x ∈ p.cells.zipIdx, ∀ y ∈ q.cells.zipIdx, _))

/-- A node shared by two pieces stands in the same place of both, and both start with one node. -/
theorem Piece.Agrees.of_getElem? {p q : Piece ι} (h : p.Agrees q) {i j : Nat} {c d : Leaf ι (Cell ι)}
    (hc : p.cells[i]? = some c) (hd : q.cells[j]? = some d) (hid : c.id = d.id) :
    p.first.id = q.first.id ∧ i = j ∧ c.val.SameNode d.val :=
  h (c, i) (List.mem_zipIdx_iff_getElem?.mpr hc) (d, j) (List.mem_zipIdx_iff_getElem?.mpr hd) hid

def Function.Agrees (f g : Function ι) : Prop := ∀ p ∈ f.pieces, ∀ q ∈ g.pieces, p.Agrees q

instance [DecidableEq ι] (f g : Function ι) : Decidable (f.Agrees g) :=
  inferInstanceAs (Decidable (∀ p ∈ f.pieces, ∀ q ∈ g.pieces, p.Agrees q))

/-! ### Calls -/

inductive Call (ι : Type) where
  | plan (f : Function ι)
  | allocate (allocator : Allocator ι)
  | write (f : Function ι)

namespace Call

def tree? : Call ι → Option (Function ι)
  | plan f | write f => some f
  | allocate _ => none

def consumed : Call ι → List ι
  | write f => idsOf f.pieces
  | plan _ | allocate _ => []

def isPlan : Call ι → Bool
  | plan _ => true
  | allocate _ | write _ => false

def after [DecidableEq ι] [Hashable ι] (c : Call ι) (cx : Context ι) : Context ι :=
  match c with
  | plan f => (Context.plan f).after cx
  | allocate allocator => (Context.allocate allocator).after cx
  | write f => (Context.write f).after cx

end Call

def treesOf (calls : List (Call ι)) : List (Function ι) := calls.filterMap Call.tree?

def consumedBy (calls : List (Call ι)) : List ι := calls.flatMap Call.consumed

/-- Trees may be altered between calls, but an identity always stands for one node, and no node is written
twice. -/
structure Consistent (calls : List (Call ι)) : Prop where
  agree : ∀ f ∈ treesOf calls, ∀ g ∈ treesOf calls, f.Agrees g
  once : (consumedBy calls).Nodup

theorem treesOf_append (calls calls' : List (Call ι)) :
    treesOf (calls ++ calls') = treesOf calls ++ treesOf calls' := List.filterMap_append

theorem consumedBy_append (calls calls' : List (Call ι)) :
    consumedBy (calls ++ calls') = consumedBy calls ++ consumedBy calls' := List.flatMap_append

theorem consumedBy_write (calls : List (Call ι)) (f : Function ι) :
    consumedBy (calls ++ [.write f]) = consumedBy calls ++ idsOf f.pieces := by
  rw [consumedBy_append]
  exact congrArg _ (List.append_nil _)

/-- What holds of a history holds of its beginning. -/
theorem Consistent.of_append {calls calls' : List (Call ι)} (h : Consistent (calls ++ calls')) :
    Consistent calls := by
  have hagree := h.agree
  have honce := h.once
  rw [treesOf_append] at hagree
  rw [consumedBy_append] at honce
  exact ⟨fun f hf g hg => hagree f (List.mem_append_left _ hf) g (List.mem_append_left _ hg),
    (List.nodup_append.mp honce).1⟩

def HistoryPiece (calls : List (Call ι)) (p : Piece ι) : Prop := ∃ f ∈ treesOf calls, p ∈ f.pieces

theorem HistoryPiece.append {calls : List (Call ι)} {p : Piece ι} (h : HistoryPiece calls p)
    (calls' : List (Call ι)) : HistoryPiece (calls ++ calls') p := by
  obtain ⟨f, hf, hp⟩ := h
  refine ⟨f, ?_, hp⟩
  rw [treesOf_append]
  exact List.mem_append_left _ hf

/-- The pieces of the tree of the last call. -/
theorem historyPiece_concat (calls : List (Call ι)) {c : Call ι} {f : Function ι} (hc : c.tree? = some f)
    {p : Piece ι} (hp : p ∈ f.pieces) : HistoryPiece (calls ++ [c]) p := by
  have hlast : f ∈ treesOf [c] := List.mem_filterMap.mpr ⟨c, List.mem_singleton.mpr rfl, hc⟩
  refine ⟨f, ?_, hp⟩
  rw [treesOf_append]
  exact List.mem_append_right _ hlast

/-- Any two pieces of a consistent history agree about the nodes they share. -/
theorem Consistent.agrees {calls : List (Call ι)} (h : Consistent calls) {p q : Piece ι}
    (hp : HistoryPiece calls p) (hq : HistoryPiece calls q) : p.Agrees q := by
  obtain ⟨f, hf, hp⟩ := hp
  obtain ⟨g, hg, hq⟩ := hq
  exact h.agree f hf g hg p hp q hq

theorem HistoryPiece.uniform {calls : List (Call ι)} {p : Piece ι} (h : HistoryPiece calls p) : p.Uniform := by
  obtain ⟨f, -, hp⟩ := h
  exact f.uniform p hp

variable [DecidableEq ι] [Hashable ι]

def Context.afterCalls (calls : List (Call ι)) : Context ι :=
  calls.foldl (fun cx c => c.after cx) Context.empty

theorem Context.afterCalls_concat (calls : List (Call ι)) (c : Call ι) :
    afterCalls (calls ++ [c]) = c.after (afterCalls calls) := List.foldl_append

/-! ### Each planned node has its own offset -/

namespace Ledger

variable {l : Ledger ι}

/-- Each planned piece has its row of offsets in front of the end of the plan. -/
theorem HasPieces.exists_row {pos : Nat} {ps : List (Piece ι)} (h : l.HasPieces pos ps) {q : Piece ι}
    (hq : q ∈ ps) : ∃ start, l.HasRow start q.cells ∧ pos ≤ start ∧ start + q.size ≤ pos + piecesSize ps := by
  induction ps generalizing pos with
  | nil => cases hq
  | cons p ps ih =>
    have halign := le_alignUp p.size
    rw [piecesSize]
    rcases List.mem_cons.mp hq with rfl | hq
    · exact ⟨pos, h.1, Nat.le_refl _, by omega⟩
    · obtain ⟨start, hrow, hle, hend⟩ := ih h.2 hq
      exact ⟨start, hrow, by omega, by omega⟩

theorem HasRow.increasing {pos : Nat} {cs : List (Leaf ι (Cell ι))} (h : l.HasRow pos cs)
    (hend : pos + rowSize cs < range64) :
    (cs.map (·.id)).Pairwise fun x y => (l.offset x).toNat < (l.offset y).toNat := by
  induction cs generalizing pos with
  | nil => exact List.Pairwise.nil
  | cons c cs ih =>
    have hsize := c.val.size_pos
    rw [rowSize_cons] at hend
    apply List.Pairwise.cons
    · intro y hy
      obtain ⟨pos', hpos', hge, hlt⟩ := h.2.resolve_mem hy
      rw [offset_of_resolve h.1, offset_of_resolve hpos', Offset.toNat_ofNat (by omega),
        Offset.toNat_ofNat (by omega)]
      omega
    · exact ih h.2 (by omega)

/-- Offsets increase along the pieces, in the order in which they were planned. -/
theorem HasPieces.increasing {pos : Nat} {ps : List (Piece ι)} (h : l.HasPieces pos ps)
    (hend : pos + piecesSize ps < range64) :
    (idsOf ps).Pairwise fun x y => (l.offset x).toNat < (l.offset y).toNat := by
  induction ps generalizing pos with
  | nil => exact List.Pairwise.nil
  | cons p ps ih =>
    have halign := le_alignUp p.size
    rw [piecesSize] at hend
    have hrow := h.1.increasing (by rw [← Piece.size_eq]; omega)
    rw [idsOf_cons, List.pairwise_append]
    refine ⟨hrow, ih h.2 (by omega), fun x hx y hy => ?_⟩
    obtain ⟨posX, hposX, -, hltX⟩ := h.1.resolve_mem hx
    obtain ⟨posY, hposY, hgeY, hltY⟩ := h.2.resolve_mem hy
    rw [← Piece.size_eq] at hltX
    rw [offset_of_resolve hposX, offset_of_resolve hposY, Offset.toNat_ofNat (by omega),
      Offset.toNat_ofNat (by omega)]
    omega

/-- No two nodes of the pieces stand at one offset. -/
theorem HasPieces.nodup_offsets {ps : List (Piece ι)} (h : l.HasPieces 0 ps)
    (hend : piecesSize ps < range64) : ((idsOf ps).map l.offset).Nodup := by
  apply List.pairwise_map.mpr
  apply (h.increasing (by omega)).imp
  intro x y hlt hsame
  rw [hsame] at hlt
  exact Nat.lt_irrefl _ hlt

/-- No two planned nodes have one offset. -/
theorem HasPieces.resolve_inj {ps : List (Piece ι)} (h : l.HasPieces 0 ps) (hend : piecesSize ps < range64)
    {x y : ι} (hx : x ∈ idsOf ps) (hy : y ∈ idsOf ps) {o : Offset} (hox : l.resolve x = .ok o)
    (hoy : l.resolve y = .ok o) : x = y := by
  have heq : l.offset x = l.offset y := (offset_of_resolve hox).trans (offset_of_resolve hoy).symm
  exact List.inj_on_of_nodup_map (h.nodup_offsets hend) hx hy heq

/-! ### A registration that is refused -/

/-- The cell that is refused has an entry at another offset, and the cells before it are entered. -/
theorem registerCells_refused {pos : Nat} {cs : List (Leaf ι (Cell ι))} {l l' : Ledger ι} {e : CompactError ι}
    (h : registerCells pos cs l = .error e l') :
    ∃ before c after, cs = before ++ c :: after ∧ registerCells pos before l = .ok () l'
      ∧ (l'.entry? c.id).isSome := by
  induction cs generalizing pos l with
  | nil => cases h
  | cons c cs ih =>
    rcases bind_eq_error_iff.mp h with hfirst | ⟨_, mid, hfirst, hrest⟩
    · unfold register at hfirst
      split at hfirst
      · cases hfirst
      · rename_i first hentry
        split at hfirst
        · cases hfirst
        · cases hfirst
          exact ⟨[], c, cs, rfl, rfl, by rw [hentry]; rfl⟩
    · obtain ⟨before, d, after, rfl, hbefore, hentry⟩ := ih hrest
      exact ⟨c :: before, d, after, rfl, (bind_of_ok hfirst _).trans hbefore, hentry⟩

/-- If a cell of a piece was planned before, so was the first one. -/
theorem HasPieces.first_of_agrees {ps : List (Piece ι)} {p : Piece ι} {l : Ledger ι} (h : l.HasPieces 0 ps)
    (hagrees : ∀ q ∈ ps, p.Agrees q) {i : Nat} {c : Leaf ι (Cell ι)} (hc : p.cells[i]? = some c)
    (hmem : c.id ∈ idsOf ps) : ∃ start, l.resolve p.first.id = .ok (.ofNat start) ∧ start < piecesSize ps := by
  obtain ⟨q, hq, j, d, hj, hid⟩ := exists_cell_of_mem_idsOf hmem
  obtain ⟨hfirst, -, -⟩ := (hagrees q hq).of_getElem? hc hj hid.symm
  obtain ⟨start, hrow, -, hstop⟩ := h.exists_row hq
  have hsize := q.size_pos
  rw [hfirst]
  exact ⟨start, hrow.1, by omega⟩

/-- Where an identity stands for one node, a piece is refused at its first cell, so nothing of it is entered. -/
theorem registerCells_refused_first {ps : List (Piece ι)} {p : Piece ι} {l l' : Ledger ι} {e : CompactError ι}
    (hpieces : l.HasPieces 0 ps) (hend : piecesSize ps < range64)
    (hknown : ∀ node, (l.entry? node).isSome → node ∈ idsOf ps) (hself : p.Agrees p)
    (hagrees : ∀ q ∈ ps, p.Agrees q) (h : registerCells (piecesSize ps) p.cells l = .error e l') : l' = l := by
  obtain ⟨before, c, after, hcells, hbefore, hentry⟩ := registerCells_refused h
  cases before with
  | nil =>
    cases hbefore
    rfl
  | cons first before =>
    exfalso
    obtain ⟨hrow, hle, hothers⟩ := registerCells_run hbefore
    have hc : p.cells[(first :: before).length]? = some c := by
      rw [hcells, List.getElem?_append_right (Nat.le_refl _), Nat.sub_self]
      rfl
    by_cases hmem : c.id ∈ (first :: before).map (·.id)
    · -- The piece would have one identity at two places.
      obtain ⟨d, hd, hid⟩ := List.mem_map.mp hmem
      obtain ⟨j, hj, hget⟩ := List.mem_iff_getElem.mp hd
      have hd' : p.cells[j]? = some d := by
        rw [hcells, List.getElem?_append_left hj, List.getElem?_eq_getElem hj, hget]
      obtain ⟨-, hplace, -⟩ := hself.of_getElem? hc hd' hid.symm
      omega
    · -- Then it was planned before, and so was the first element of its array, which was not refused.
      rw [hothers _ hmem] at hentry
      obtain ⟨start, hstart, hlt⟩ := hpieces.first_of_agrees hagrees hc (hknown _ hentry)
      have hp : p.first = first := (List.cons.inj hcells).1
      have hat : l'.resolve p.first.id = .ok (.ofNat (piecesSize ps)) := by
        rw [hp]
        exact hrow.1
      have heq : (Offset.ofNat (piecesSize ps)).toNat = (Offset.ofNat start).toNat :=
        congrArg Offset.toNat (Except.ok.inj (hat.symm.trans (hle.resolve hstart)))
      rw [Offset.toNat_ofNat hend, Offset.toNat_ofNat (Nat.lt_trans hlt hend)] at heq
      omega

end Ledger

/-! ### What a history leaves in a context -/

def Ledger.PlacesOf (l : Ledger ι) (offsets : Std.HashSet Offset) (nodes : List ι) : Prop :=
  ∀ o, offsets.contains o → ∃ node ∈ nodes, l.resolve node = .ok o

theorem Ledger.placesOf_empty (l : Ledger ι) (nodes : List ι) : l.PlacesOf ∅ nodes := by
  intro o ho
  rw [Std.HashSet.contains_empty] at ho
  cases ho

theorem Ledger.PlacesOf.mono {l : Ledger ι} {offsets : Std.HashSet Offset} {nodes nodes' : List ι}
    (h : l.PlacesOf offsets nodes) (hsub : nodes ⊆ nodes') : l.PlacesOf offsets nodes' := by
  intro o ho
  obtain ⟨node, hnode, hresolve⟩ := h o ho
  exact ⟨node, hsub hnode, hresolve⟩

namespace Context

/-- After a history, the ledger has some pieces, and behind them bytes may be set aside for a node that was refused.
Each offset at which something was written since then belongs to a node that was used up. -/
structure Kept (calls : List (Call ι)) (cx : Context ι) (ps refused : List (Piece ι)) : Prop where
  laid : cx.Laid (ps ++ refused)
  entered : cx.ledger.HasPieces 0 ps
  pieces : ∀ p ∈ ps, HistoryPiece calls p
  /-- A plan of more positions than there are offsets is never written, so it does not matter. -/
  known : cx.cursor < range64 → ∀ node, (cx.ledger.entry? node).isSome → node ∈ idsOf ps
  written : cx.ledger.PlacesOf cx.written (consumedBy calls)

/-- The cursor is behind all the pieces entered, and also behind a refused one that was reserved. -/
theorem Kept.piecesSize_le {calls : List (Call ι)} {cx : Context ι} {ps refused : List (Piece ι)}
    (h : Kept calls cx ps refused) : piecesSize ps ≤ cx.cursor := by
  rw [h.laid.cursor, piecesSize_append]
  exact Nat.le_add_right _ _

/-- Nothing was called yet. -/
theorem kept_empty : Kept [] (Context.empty : Context ι) [] [] := by
  refine ⟨laid_empty, trivial, fun _ hp => (List.not_mem_nil hp).elim, fun _ node hnode => ?_,
    Ledger.placesOf_empty _ _⟩
  have hnone : (Context.empty : Context ι).ledger.entry? node = none := Std.HashMap.getElem?_empty
  rw [hnone] at hnode
  cases hnode

structure Midway (f : Function ι) (cx : Context ι) (ps refused : List (Piece ι)) : Prop where
  laid : cx.Laid (ps ++ refused)
  block : cx.block = none
  written : cx.written = ∅
  entered : cx.ledger.HasPieces 0 ps
  pieces : ∀ p ∈ ps, p ∈ f.pieces
  known : cx.cursor < range64 → ∀ node, (cx.ledger.entry? node).isSome → node ∈ idsOf ps

theorem midway_empty (f : Function ι) : Midway f Context.empty [] [] :=
  ⟨laid_empty, rfl, rfl, trivial, fun _ hp => (List.not_mem_nil hp).elim, kept_empty.known⟩

/-- A piece that is planned is reserved and entered, in whichever order. -/
theorem Midway.planPiece_ok {f : Function ι} {cx cx' : Context ι} {ps : List (Piece ι)} {p : Piece ι}
    (h : Midway f cx ps []) (hp : p ∈ f.pieces) (hplan : planPiece p cx = .ok () cx') :
    Midway f cx' (ps ++ [p]) [] := by
  obtain ⟨ledger, hregister, rfl⟩ := planPiece_eq_ok_iff.mp hplan
  obtain ⟨hrow, hle, hothers⟩ := Ledger.registerCells_run hregister
  have hlaid := h.laid
  rw [List.append_nil] at hlaid
  rw [hlaid.cursor, ← Nat.zero_add (piecesSize ps)] at hrow
  refine ⟨?_, h.block, h.written, (h.entered.mono hle).concat hrow, ?_, fun hcursor node hnode => ?_⟩
  · rw [List.append_nil]
    exact hlaid.push h.block p ledger
  · intro q hq
    rcases List.mem_append.mp hq with hq | hq
    · exact h.pieces q hq
    · rw [List.mem_singleton.mp hq]
      exact hp
  · have hfits : cx.cursor < range64 := Nat.lt_of_le_of_lt (Nat.le_add_right _ _) hcursor
    rw [idsOf_append, List.mem_append]
    -- A node with an entry is one of this piece, or had its entry before.
    by_cases hmem : node ∈ p.cells.map (·.id)
    · exact .inr (List.mem_append_left _ hmem)
    · have hold : (cx.ledger.entry? node).isSome := by
        rw [← hothers node hmem]
        exact hnode
      exact .inl (h.known hfits node hold)

/-- A piece that is refused is not entered, but if it is a single node its bytes are set aside. -/
theorem Midway.planPiece_error {f : Function ι} {cx cx' : Context ι} {ps : List (Piece ι)} {p : Piece ι}
    {e : CompactError ι} (h : Midway f cx ps []) (hagrees : ∀ p ∈ f.pieces, ∀ q ∈ f.pieces, p.Agrees q)
    (hp : p ∈ f.pieces) (hplan : planPiece p cx = .error e cx') : ∃ refused, Midway f cx' ps refused := by
  obtain ⟨ledger, hregister, rfl⟩ := planPiece_eq_error_iff.mp hplan
  have hle := Ledger.registerCells_le hregister
  have hlaid := h.laid
  rw [List.append_nil] at hlaid
  rw [hlaid.cursor] at hregister
  -- The plan ends here, and the ledger is what it was before the piece.
  have hknown (hfits : cx.cursor < range64) (node : ι) (hnode : (ledger.entry? node).isSome) :
      node ∈ idsOf ps := by
    have hend : piecesSize ps < range64 := by
      rw [← hlaid.cursor]
      exact hfits
    have hsame : ledger = cx.ledger := Ledger.registerCells_refused_first h.entered hend (h.known hfits)
      (hagrees p hp p hp) (fun q hq => hagrees p hp q (h.pieces q hq)) hregister
    rw [hsame] at hnode
    exact h.known hfits node hnode
  by_cases harray : p.first.val.kind.inArray
  · rw [if_pos harray]
    refine ⟨[], ?_, h.block, h.written, h.entered.mono hle, h.pieces, hknown⟩
    exact ⟨h.laid.cursor, h.laid.reservations, h.laid.block⟩
  · rw [if_neg harray]
    refine ⟨[p], hlaid.push h.block p ledger, h.block, h.written, h.entered.mono hle, h.pieces, fun hcursor => ?_⟩
    exact hknown (Nat.lt_of_le_of_lt (Nat.le_add_right _ _) hcursor)

/-- A plan enters some pieces of its tree in the ledger, also if it is refused half-way. -/
theorem kept_plan {calls : List (Call ι)} {f : Function ι} (h : Consistent (calls ++ [.plan f]))
    (cx : Context ι) : ∃ ps refused, Kept (calls ++ [.plan f]) ((Context.plan f).after cx) ps refused := by
  have hnew (p : Piece ι) (hp : p ∈ f.pieces) : HistoryPiece (calls ++ [.plan f]) p :=
    historyPiece_concat calls rfl hp
  have hagrees (p : Piece ι) (hp : p ∈ f.pieces) (q : Piece ι) (hq : q ∈ f.pieces) : p.Agrees q :=
    h.agrees (hnew p hp) (hnew q hq)
  -- What the steps of the plan keep, up to one that may be refused, and the counts at the end.
  have hmidway : ∃ ps refused, Midway f ((Context.plan f).after cx) ps refused := by
    apply after_plan (P := fun cx => ∃ ps, Midway f cx ps []) (Q := fun cx => ∃ ps refused, Midway f cx ps refused)
    · exact ⟨[], midway_empty f⟩
    · intro p hp cx cx' hcx hplan
      obtain ⟨ps, hps⟩ := hcx
      exact ⟨_, hps.planPiece_ok hp hplan⟩
    · intro p hp cx e cx' hcx hplan
      obtain ⟨ps, hps⟩ := hcx
      exact ⟨ps, hps.planPiece_error hagrees hp hplan⟩
    · intro cx hcx
      obtain ⟨ps, hps⟩ := hcx
      exact ⟨ps, [], hps⟩
    · intro cx stats hcx
      obtain ⟨ps, refused, hps⟩ := hcx
      have hlaid : Laid { cx with stats := stats } (ps ++ refused) :=
        ⟨hps.laid.cursor, hps.laid.reservations, hps.laid.block⟩
      exact ⟨ps, refused, hlaid, hps.block, hps.written, hps.entered, hps.pieces, hps.known⟩
  obtain ⟨ps, refused, hps⟩ := hmidway
  refine ⟨ps, refused, hps.laid, hps.entered, fun p hp => hnew p (hps.pieces p hp), hps.known, ?_⟩
  rw [hps.written]
  exact Ledger.placesOf_empty _ _

/-- A plan that succeeds enters all pieces of its tree, and sets nothing else aside. -/
theorem kept_plan_of_ok {f : Function ι} {size : Nat} {cx cx' : Context ι}
    (h : Context.plan f cx = .ok size cx') (calls : List (Call ι)) :
    Kept (calls ++ [.plan f]) cx' f.pieces [] := by
  have hplanned := plan_run h
  have hcursor : cx'.cursor = piecesSize f.pieces := hplanned.cursor.trans hplanned.size_eq
  have hlaid : cx'.Laid f.pieces := .of_no_block hcursor hplanned.reservations (stats_of_plan h).1
  rw [← List.append_nil f.pieces] at hlaid
  refine ⟨hlaid, hplanned.pieces, fun p hp => historyPiece_concat calls rfl hp, fun _ => hplanned.known, ?_⟩
  rw [hplanned.written]
  exact Ledger.placesOf_empty _ _

section

variable {calls : List (Call ι)} {cx : Context ι} {ps refused : List (Piece ι)}

theorem Kept.append (h : Kept calls cx ps refused) (calls' : List (Call ι)) :
    Kept (calls ++ calls') cx ps refused := by
  refine ⟨h.laid, h.entered, fun p hp => (h.pieces p hp).append calls', h.known, h.written.mono ?_⟩
  rw [consumedBy_append]
  exact List.subset_append_left _ _

/-- Allocating leaves the ledger and the reservations alone. -/
theorem Kept.allocate (h : Kept calls cx ps refused) (allocator : Allocator ι) :
    Kept (calls ++ [.allocate allocator]) ((Context.allocate allocator).after cx) ps refused := by
  obtain ⟨hlaid, hentered, hpieces, hknown, hwritten⟩ := h.append [.allocate allocator]
  have hlaid' := hlaid.allocate allocator
  -- An allocation changes the block and a count, if anything.
  have hsame : ((Context.allocate allocator).after cx).ledger = cx.ledger
      ∧ ((Context.allocate allocator).after cx).cursor = cx.cursor
      ∧ ((Context.allocate allocator).after cx).written = cx.written := by
    simp only [CompactM.after, Context.allocate]
    cases allocator cx.cursor with
    | error e => exact ⟨rfl, rfl, rfl⟩
    | ok b =>
      by_cases hsize : b.size = cx.cursor
      · simp only [hsize, ↓reduceIte, and_self]
      · simp only [hsize, ↓reduceIte, and_self]
  refine ⟨hlaid', ?_, hpieces, ?_, ?_⟩
  · rw [hsame.1]
    exact hentered
  · rw [hsame.1, hsame.2.1]
    exact hknown
  · rw [hsame.1, hsame.2.2]
    exact hwritten

end

end Context

end TreePack
