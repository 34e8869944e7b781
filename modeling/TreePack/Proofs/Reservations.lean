import Mathlib.Data.List.Perm.Basic
import TreePack.Proofs.Counting
import TreePack.Proofs.Filling
import TreePack.Proofs.Histories
import TreePack.Proofs.Subtrees

namespace TreePack

variable {ι : Type}

/-! ### Nodes with the bytes that they take -/

structure Item (ι : Type) where
  id : ι
  kind : NodeKind
  len : Nat

def Item.extent (place : ι → Offset) (x : Item ι) : Extent := ⟨(place x.id).toNat, x.len⟩

def cellItem (c : Leaf ι (Cell ι)) : Item ι := ⟨c.id, c.val.kind, c.val.size⟩

namespace Function

def items (f : Function ι) : List (Item ι) :=
  f.scopes.map (fun s => ⟨s.id, .scope, 32⟩) ++ f.locals.map (fun l => ⟨l.id, .decl, 48⟩)
    ++ f.scope.allStmts.map (fun s => ⟨s.id, .stmt, 88⟩) ++ f.exprs.map (fun e => ⟨e.id, .expr, 112⟩)
    ++ f.texts.map (fun t => ⟨t.id, .text, t.val.bytes.length + 1⟩)
    ++ f.switchLabels.map (fun n => ⟨n.id, .switchLabel, 8⟩) ++ f.args.map fun t => ⟨t.id, .argType, 16⟩

/-- How many bytes a function takes. A text ends with a zero byte and is padded. -/
def byteSize (f : Function ι) : Nat :=
  32 * f.scopes.length + 48 * f.locals.length + 88 * f.scope.allStmts.length + 112 * f.exprs.length
    + f.texts.foldr (fun t n => alignUp (t.val.bytes.length + 1) + n) 0
    + 8 * f.switchLabels.length + 16 * f.args.length

/-- The nodes are those that the pieces have cells for. -/
theorem items_perm (f : Function ι) : ((cellsOf f.pieces).map cellItem).Perm f.items := by
  have htexts : f.texts.map (fun t => cellItem (textCell t))
      = f.texts.map fun t => ⟨t.id, .text, t.val.bytes.length + 1⟩ :=
    List.map_congr_left fun t _ => congrArg (Item.mk t.id .text) t.val.length_stored
  have hperm := f.cells_perm.map cellItem
  simp only [List.map_append, List.map_map, localCells, stmtCells, switchCells] at hperm
  rw [items, ← htexts]
  exact hperm

end Function

/-! ### The size of a plan -/

def itemsSize (xs : List (Item ι)) : Nat := xs.foldr (fun x n => alignUp x.len + n) 0

theorem itemsSize_cons (x : Item ι) (xs : List (Item ι)) :
    itemsSize (x :: xs) = alignUp x.len + itemsSize xs := rfl

@[simp] theorem itemsSize_append (xs ys : List (Item ι)) :
    itemsSize (xs ++ ys) = itemsSize xs + itemsSize ys := by
  induction xs with
  | nil => exact (Nat.zero_add _).symm
  | cons x xs ih => rw [List.cons_append, itemsSize_cons, ih, itemsSize_cons, Nat.add_assoc]

/-- The size of items does not depend on their order. -/
theorem itemsSize_perm {xs ys : List (Item ι)} (h : xs.Perm ys) : itemsSize xs = itemsSize ys := by
  apply h.foldr_eq'
  intro x _ y _ n
  exact Nat.add_left_comm _ _ _

/-- Nodes of one kind that all take one aligned number of bytes. -/
theorem itemsSize_map {α : Type} (id : α → ι) (kind : NodeKind) {len : Nat} (haligned : len % alignment = 0)
    (xs : List α) : itemsSize (xs.map fun x => ⟨id x, kind, len⟩) = len * xs.length := by
  induction xs with
  | nil => rfl
  | cons x xs ih =>
    rw [List.map_cons, itemsSize_cons, alignUp_of_mod_eq_zero haligned, ih, List.length_cons, Nat.mul_succ,
      Nat.add_comm]

theorem itemsSize_texts (ts : List (Leaf ι Text)) :
    itemsSize (ts.map fun t => (⟨t.id, .text, t.val.bytes.length + 1⟩ : Item ι))
      = ts.foldr (fun t n => alignUp (t.val.bytes.length + 1) + n) 0 := List.foldr_map

/-- The items of a tree, each padded, take the bytes counted for it. -/
theorem Function.itemsSize_items (f : Function ι) : itemsSize f.items = f.byteSize := by
  have hscopes := itemsSize_map Scope.id .scope (rfl : 32 % alignment = 0) f.scopes
  have hlocals := itemsSize_map Local.id .decl (rfl : 48 % alignment = 0) f.locals
  have hstmts := itemsSize_map Stmt.id .stmt (rfl : 88 % alignment = 0) f.scope.allStmts
  have hexprs := itemsSize_map Expr.id .expr (rfl : 112 % alignment = 0) f.exprs
  have hswitch := itemsSize_map Leaf.id .switchLabel (rfl : 8 % alignment = 0) f.switchLabels
  have hargs := itemsSize_map Leaf.id .argType (rfl : 16 % alignment = 0) f.args
  rw [items, itemsSize_append, itemsSize_append, itemsSize_append, itemsSize_append, itemsSize_append,
    itemsSize_append, hscopes, hlocals, hstmts, hexprs, itemsSize_texts, hswitch, hargs, byteSize]

def Piece.Padded (p : Piece ι) : Prop := p.others = [] ∨ ∀ c ∈ p.cells, c.val.size % alignment = 0

theorem padded_of_mem_arrayPieces {cells : List (Leaf ι (Cell ι))} {stride : Nat}
    (hsize : ∀ c ∈ cells, c.val.size = stride) (haligned : stride % alignment = 0) :
    ∀ p ∈ arrayPieces cells, p.Padded := by
  cases cells with
  | nil => exact fun _ h => (List.not_mem_nil h).elim
  | cons first others =>
    intro p hp
    rw [List.mem_singleton.mp hp]
    refine .inr fun c hc => ?_
    rw [hsize c hc]
    exact haligned

/-- Every piece is a node alone or a row of records that need no padding. -/
theorem Function.padded (f : Function ι) : ∀ p ∈ f.pieces, p.Padded := by
  refine f.forall_pieces (fun _ _ => .inl rfl) (fun _ => ?_) (fun _ => ?_) fun _ => ?_
  · exact padded_of_mem_arrayPieces size_of_mem_localCells rfl
  · exact padded_of_mem_arrayPieces size_of_mem_stmtCells rfl
  · exact padded_of_mem_arrayPieces size_of_mem_switchCells rfl

theorem rowSize_of_aligned {cs : List (Leaf ι (Cell ι))} (h : ∀ c ∈ cs, c.val.size % alignment = 0) :
    rowSize cs % alignment = 0 ∧ itemsSize (cs.map cellItem) = rowSize cs := by
  induction cs with
  | nil => exact ⟨rfl, rfl⟩
  | cons c cs ih =>
    obtain ⟨hself, hothers⟩ := List.forall_mem_cons.mp h
    obtain ⟨haligned, hsize⟩ := ih hothers
    rw [List.map_cons, itemsSize_cons, hsize, rowSize_cons]
    refine ⟨?_, congrArg (· + rowSize cs) (alignUp_of_mod_eq_zero hself)⟩
    unfold alignment at *
    omega

/-- A piece takes the padded sizes of its cells: only a node alone can need padding. -/
theorem Piece.Padded.alignUp_size {p : Piece ι} (h : p.Padded) :
    alignUp p.size = itemsSize (p.cells.map cellItem) := by
  rcases h with hsingle | haligned
  · have hcells : p.cells = [p.first] := by rw [Piece.cells, hsingle]
    rw [Piece.size_eq, hcells]
    rfl
  · obtain ⟨hrow, hsize⟩ := rowSize_of_aligned haligned
    rw [hsize, Piece.size_eq, alignUp_of_mod_eq_zero hrow]

theorem piecesSize_of_padded {ps : List (Piece ι)} (h : ∀ p ∈ ps, p.Padded) :
    piecesSize ps = itemsSize ((cellsOf ps).map cellItem) := by
  induction ps with
  | nil => rfl
  | cons p ps ih =>
    obtain ⟨hself, hothers⟩ := List.forall_mem_cons.mp h
    rw [piecesSize, hself.alignUp_size, ih hothers, cellsOf_cons, List.map_append, itemsSize_append]

/-- The pieces of a function take as many bytes as its nodes. -/
theorem Function.piecesSize_eq (f : Function ι) : piecesSize f.pieces = f.byteSize := by
  rw [piecesSize_of_padded f.padded, itemsSize_perm f.items_perm, f.itemsSize_items]

variable [DecidableEq ι] [Hashable ι]

/-! ### Entries apart from each other -/

namespace Ledger

variable {l : Ledger ι}

/-- Cells in a row follow each other. -/
theorem HasRow.follow {pos : Nat} {cs : List (Leaf ι (Cell ι))} (h : l.HasRow pos cs)
    (hend : pos + rowSize cs < range64) :
    Follow pos ((cs.map cellItem).map (Item.extent l.offset)) (pos + rowSize cs) := by
  induction cs generalizing pos with
  | nil => rfl
  | cons c cs ih =>
    rw [rowSize_cons, ← Nat.add_assoc] at hend ⊢
    have hstart : (cellItem c).extent l.offset = ⟨pos, c.val.size⟩ := by
      have htoNat : (l.offset c.id).toNat = pos := by
        rw [offset_of_resolve h.1]
        exact Offset.toNat_ofNat (by omega)
      exact congrArg (Extent.mk · c.val.size) htoNat
    rw [List.map_cons, List.map_cons, hstart]
    exact ⟨rfl, ih h.2 hend⟩

/-- The cells of planned pieces are apart from each other and inside the plan. -/
theorem HasPieces.apart {pos : Nat} {ps : List (Piece ι)} (h : l.HasPieces pos ps)
    (hend : pos + piecesSize ps < range64) :
    (((cellsOf ps).map cellItem).map (Item.extent l.offset)).Pairwise Extent.Apart
      ∧ ∀ e ∈ ((cellsOf ps).map cellItem).map (Item.extent l.offset),
        pos ≤ e.start ∧ e.stop ≤ pos + piecesSize ps := by
  induction ps generalizing pos with
  | nil => exact ⟨List.Pairwise.nil, fun _ h => (List.not_mem_nil h).elim⟩
  | cons p ps ih =>
    have halign := le_alignUp p.size
    rw [piecesSize, ← Nat.add_assoc] at hend ⊢
    obtain ⟨hapart, hinside⟩ := ih h.2 hend
    have hrow := h.1.follow (by rw [← Piece.size_eq]; omega)
    have hwithin := hrow.within
    rw [← Piece.size_eq] at hwithin
    rw [cellsOf_cons, List.map_append, List.map_append]
    constructor
    · refine List.pairwise_append.mpr ⟨hrow.apart, hapart, fun e he e' he' => .inl ?_⟩
      -- The row ends before the padding, the others begin behind it.
      have hstop := (hwithin e he).2
      have hstart := (hinside e' he').1
      omega
    · intro e he
      rcases List.mem_append.mp he with he | he
      · obtain ⟨hstart, hstop⟩ := hwithin e he
        exact ⟨hstart, by omega⟩
      · obtain ⟨hstart, hstop⟩ := hinside e he
        exact ⟨by omega, hstop⟩

/-- Cells of one size in a row stand at multiples of it. -/
theorem HasRow.inRow {pos stride : Nat} {cs : List (Leaf ι (Cell ι))} (h : l.HasRow pos cs)
    (haligned : pos % alignment = 0) (hsize : ∀ c ∈ cs, c.val.size = stride)
    (hend : pos + rowSize cs < range64) : InRow l.offset stride (cs.map (·.id)) := by
  -- No offset of the row wraps around, so each is its own number.
  have hplace : ∀ i id, (cs.map (·.id))[i]? = some id → (l.offset id).toNat = pos + i * stride := by
    intro i id hid
    rw [List.getElem?_map] at hid
    obtain ⟨c, hc, rfl⟩ := Option.map_eq_some_iff.mp hid
    have hlt : (i + 1) * stride ≤ cs.length * stride :=
      Nat.mul_le_mul_right _ (List.getElem?_eq_some_iff.mp hc).1
    rw [rowSize_of_uniform hsize] at hend
    rw [Nat.succ_mul] at hlt
    rw [offset_of_resolve (h.resolve hsize hc)]
    exact Offset.toNat_ofNat (by omega)
  have hfirst : ∀ first ∈ (cs.map (·.id)).head?, (l.offset first).toNat = pos := by
    intro first hmem
    rw [List.head?_eq_getElem?] at hmem
    rw [hplace 0 first hmem, Nat.zero_mul, Nat.add_zero]
  constructor
  · intro first hmem
    rw [hfirst first hmem]
    exact haligned
  · intro first hmem i id hid
    rw [hfirst first hmem]
    exact hplace i id hid

/-- An array that was planned stands in a row. -/
theorem HasPieces.inRow {pos stride : Nat} {ps : List (Piece ι)} (h : l.HasPieces pos ps)
    (haligned : pos % alignment = 0) (hend : pos + piecesSize ps < range64) {cells : List (Leaf ι (Cell ι))}
    (hsub : arrayPieces cells ⊆ ps) (hsize : ∀ c ∈ cells, c.val.size = stride) :
    InRow l.offset stride (cells.map (·.id)) := by
  cases cells with
  | nil => exact ⟨fun _ h => (Option.not_mem_none _ h).elim, fun _ h => (Option.not_mem_none _ h).elim⟩
  | cons first others =>
    have hmem : ⟨first, others⟩ ∈ ps := hsub List.mem_cons_self
    clear hsub
    -- On the pieces in front of the array.
    induction ps generalizing pos with
    | nil => cases hmem
    | cons p ps ih =>
      have halign := le_alignUp p.size
      have hmod := alignUp_mod p.size
      rw [piecesSize, ← Nat.add_assoc] at hend
      rcases List.mem_cons.mp hmem with rfl | hmem
      · have hrow : rowSize (Piece.cells ⟨first, others⟩) = Piece.size ⟨first, others⟩ := rfl
        exact h.1.inRow haligned hsize (by omega)
      · refine ih h.2 ?_ hend hmem
        unfold alignment at *
        omega

end Ledger

/-- The ledger is a chart of a function in a block of some size: an entry for each node, none for anything else,
and no byte for two of them. -/
structure Ledger.Charts (l : Ledger ι) (f : Function ι) (size : Nat) : Prop where
  entries : ∀ x ∈ f.items, ∃ o, l.entry? x.id = some ⟨o, x.kind⟩
  known : ∀ node, (l.entry? node).isSome → node ∈ f.items.map (·.id)
  count : l.size = f.items.length
  duplicates : l.duplicates = 0
  localRows : ∀ s ∈ f.scopes, InRow l.offset 48 (s.locals.map (·.id))
  stmtRows : ∀ s ∈ f.scopes, InRow l.offset 88 (s.stmts.map Stmt.id)
  switchRows : ∀ s ∈ f.scope.allStmts, InRow l.offset 8 (s.head.switch.map (·.id))
  apart : (f.items.map (Item.extent l.offset)).Pairwise Extent.Apart
  inside : ∀ x ∈ f.items, (x.extent l.offset).stop ≤ size

/-- The reservations of a context follow each other from the start to the cursor, and each of them is padded. -/
structure Context.Tiled (cx : Context ι) : Prop where
  follow : Follow 0 (cx.reservations.toList.map Reservation.extent) cx.cursor
  lengths : ∀ r ∈ cx.reservations.toList, 0 < r.len ∧ r.len % alignment = 0

namespace Context

/-- Whatever was laid tiles the bytes in front of the cursor. -/
theorem Laid.tiled {cx : Context ι} {ps : List (Piece ι)} (h : cx.Laid ps) (hend : cx.cursor < range64) :
    cx.Tiled := by
  rw [h.cursor] at hend
  have hend' : 0 + piecesSize ps < range64 := by omega
  have hfollow := follow_reservationsFrom hend'
  rw [Nat.zero_add, ← h.cursor, ← h.reservations] at hfollow
  refine ⟨hfollow, fun r hr => ?_⟩
  rw [h.reservations] at hr
  exact len_of_mem_reservationsFrom hr

/-- A plan never gets further than its tree is large, whether it succeeds or fails. -/
theorem cursor_after_plan_le (f : Function ι) (cx : Context ι) : ((plan f).after cx).cursor ≤ f.byteSize := by
  obtain ⟨ps, ⟨rest, hpieces⟩, hlaid⟩ := laid_after_plan f cx
  rw [hlaid.cursor, ← f.piecesSize_eq, ← hpieces, piecesSize_append]
  exact Nat.le_add_right _ _

end Context

/-- A plan that succeeds charts its tree: each node has its entry, no other node has one, rows
stand in line, and no two nodes overlap or pass the end. -/
theorem Planned.charts {f : Function ι} {size : Nat} {cx cx' : Context ι}
    (hplan : Context.plan f cx = .ok size cx') (hend : size < range64) : cx'.ledger.Charts f size := by
  have hplanned := Context.plan_run hplan
  have hsize : piecesSize f.pieces < range64 := by
    rw [← hplanned.size_eq]
    exact hend
  have hend' : 0 + piecesSize f.pieces < range64 := by omega
  have hnodup : (idsOf f.pieces).Nodup := List.Nodup.of_map _ (hplanned.pieces.nodup_offsets hsize)
  obtain ⟨hcount, hduplicates⟩ := Context.entries_of_plan hnodup hplan
  obtain ⟨hapart, hinside⟩ := hplanned.pieces.apart hend'
  -- Items and cells are the same up to their order, so what holds of cells holds of items.
  have hextents := f.items_perm.map (Item.extent cx'.ledger.offset)
  have hrow {cells : List (Leaf ι (Cell ι))} {stride : Nat} (hsub : arrayPieces cells ⊆ f.pieces)
      (hlen : ∀ c ∈ cells, c.val.size = stride) : InRow cx'.ledger.offset stride (cells.map (·.id)) :=
    hplanned.pieces.inRow rfl hend' hsub hlen
  constructor
  case entries =>
    intro x hx
    obtain ⟨c, hc, rfl⟩ := List.mem_map.mp (f.items_perm.mem_iff.mpr hx)
    exact (Context.entered_of_plan hnodup hplan).cells c hc
  case known =>
    intro node hnode
    have hids := (f.items_perm.map (·.id)).mem_iff (a := node)
    rw [← hids, List.map_map]
    have hmem := hplanned.known node hnode
    rw [← map_id_cellsOf] at hmem
    exact hmem
  case count => rw [hcount, ← f.items_perm.length_eq, List.length_map]
  case duplicates => exact hduplicates
  case localRows =>
    intro s hs
    have h := hrow (f.localArray_subset hs) size_of_mem_localCells
    rw [localCells, List.map_map] at h
    exact h
  case stmtRows =>
    intro s hs
    have h := hrow (f.stmtArray_subset hs) size_of_mem_stmtCells
    rw [stmtCells, List.map_map] at h
    exact h
  case switchRows =>
    intro s hs
    have h := hrow (f.switchArray_subset hs) size_of_mem_switchCells
    rw [switchCells, List.map_map] at h
    exact h
  case apart => exact hextents.pairwise hapart fun h => h.symm
  case inside =>
    intro x hx
    have hmem := hextents.mem_iff.mpr (List.mem_map_of_mem hx)
    have hstop := (hinside _ hmem).2
    rw [Nat.zero_add, ← hplanned.size_eq] at hstop
    exact hstop

/-- What a plan of fewer positions than there are offsets sets aside tiles those positions, whether it succeeds or
fails. If it succeeds, its size is that of the function and the ledger is a chart of it. -/
theorem Context.plan_tiles (f : Function ι) (cx : Context ι)
    (hend : ((Context.plan f).after cx).cursor < range64) :
    ((Context.plan f).after cx).Tiled ∧ ∀ size cx', Context.plan f cx = .ok size cx' →
      size = cx'.cursor ∧ size = f.byteSize ∧ cx'.ledger.Charts f size := by
  obtain ⟨ps, -, hlaid⟩ := Context.laid_after_plan f cx
  refine ⟨hlaid.tiled hend, fun size cx' hplan => ?_⟩
  have hplanned := Context.plan_run hplan
  rw [CompactM.after_of_ok hplan, hplanned.cursor] at hend
  exact ⟨hplanned.cursor.symm, hplanned.size_eq.trans f.piecesSize_eq, Planned.charts hplan hend⟩

/-- A break in a loop, planned. -/
theorem plan_tiles_breakInLoop :
    ((Context.plan breakInLoop).after Context.empty).cursor < range64
      ∧ ((Context.plan breakInLoop).after Context.empty).Tiled
      ∧ ∃ size cx', Context.plan breakInLoop Context.empty = .ok size cx' ∧ size = cx'.cursor
        ∧ size = breakInLoop.byteSize ∧ cx'.ledger.Charts breakInLoop size := by
  have hend : ((Context.plan breakInLoop).after Context.empty).cursor < range64 :=
    Nat.lt_of_le_of_lt (Context.cursor_after_plan_le breakInLoop _) (by decide)
  obtain ⟨htiled, hok⟩ := Context.plan_tiles breakInLoop Context.empty hend
  obtain ⟨size, cx', hplan, -⟩ := exists_plan_breakInLoop Context.empty
  exact ⟨hend, htiled, size, cx', hplan, hok size cx' hplan⟩

/-- A loop with a break takes two scopes, a local, two statements, an expression, two padded texts and an
argument. -/
example : breakInLoop.byteSize = 2 * 32 + 48 + 2 * 88 + 112 + 2 * 8 + 16 := by decide

end TreePack
