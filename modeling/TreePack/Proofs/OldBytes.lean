import TreePack.Proofs.Accounts
import TreePack.Proofs.Safety

namespace TreePack

variable {ι : Type}

/-! ### Padding -/

def Pads : Nat → List (Piece ι) → Nat → Prop
  | _, [], _ => False
  | pos, p :: ps, i => (pos + p.size ≤ i ∧ i < pos + alignUp p.size) ∨ Pads (pos + alignUp p.size) ps i

/-- Padding stands behind the first position. -/
theorem Pads.le {pos : Nat} {ps : List (Piece ι)} {i : Nat} (h : Pads pos ps i) : pos ≤ i := by
  induction ps generalizing pos with
  | nil => exact h.elim
  | cons p ps ih =>
    rcases h with h | h
    · omega
    · have hle := ih h
      omega

/-- Of the bytes that are set aside, those of no piece are padding. -/
theorem not_covers_iff {pos : Nat} {ps : List (Piece ι)} {i : Nat} (hpos : pos ≤ i)
    (hend : i < pos + piecesSize ps) : ¬Covers pos ps i ↔ Pads pos ps i := by
  induction ps generalizing pos with
  | nil =>
    rw [piecesSize] at hend
    omega
  | cons p ps ih =>
    have halign := le_alignUp p.size
    rw [piecesSize] at hend
    by_cases hbehind : pos + alignUp p.size ≤ i
    · -- The byte is behind the first piece and its padding.
      have hrest := ih hbehind (by omega)
      rw [Covers, Pads, ← hrest]
      constructor
      · exact fun h => .inr fun hcover => h (.inr hcover)
      · rintro (h | h) (hcover | hcover)
        · omega
        · omega
        · omega
        · exact h hcover
    · constructor
      · intro h
        have hnot : ¬(pos ≤ i ∧ i < pos + p.size) := fun hin => h (.inl hin)
        exact .inl ⟨by omega, by omega⟩
      · rintro (h | h) (hcover | hcover)
        · omega
        · have hle := hcover.le
          omega
        · have hle := h.le
          omega
        · have hle := h.le
          omega

structure Piece.Padless (p : Piece ι) : Prop where
  size : alignUp p.size = p.size
  noText : ∀ c ∈ p.cells, c.val.kind ≠ .text

/-- Records and labels fill their place, so only texts leave bytes behind them. -/
theorem padless_of_mem_arrayPieces {cells : List (Leaf ι (Cell ι))} {stride : Nat}
    (hsize : ∀ c ∈ cells, c.val.size = stride) (hstride : stride % alignment = 0)
    (hkind : ∀ c ∈ cells, c.val.kind ≠ .text) : ∀ p ∈ arrayPieces cells, p.Padless := by
  intro p hp
  obtain rfl : p.cells = cells := by
    cases cells with
    | nil => cases hp
    | cons first others => rw [List.mem_singleton.mp hp]; rfl
  have hmod : p.size % alignment = 0 := by
    rw [Piece.size_eq, rowSize_of_uniform hsize, Nat.mul_mod, hstride]
    exact congrArg (· % alignment) (Nat.mul_zero _)
  exact ⟨alignUp_of_mod_eq_zero hmod, hkind⟩

/-- The pieces of a function are texts or need no padding. -/
theorem Function.text_or_padless (f : Function ι) :
    ∀ p ∈ f.pieces, (∃ t, p = textPiece t) ∨ p.Padless := by
  refine f.forall_pieces (Q := fun p => (∃ t, p = textPiece t) ∨ p.Padless) ?single ?locals ?stmts ?switch
  case single =>
    intro id cell
    -- A single node of another kind is a row of one record.
    have hother (hsize : cell.size % alignment = 0) (hkind : cell.kind ≠ .text) :
        (Piece.single id cell).Padless := by
      have hone (c : Leaf ι (Cell ι)) (hc : c ∈ [⟨id, cell⟩]) : c.val = cell := by
        rw [List.mem_singleton.mp hc]
      have hpadless : ∀ p ∈ arrayPieces [⟨id, cell⟩], p.Padless := by
        apply padless_of_mem_arrayPieces (fun c hc => ?_) hsize (fun c hc => ?_)
        · rw [hone c hc]
        · rw [hone c hc]
          exact hkind
      exact hpadless _ List.mem_cons_self
    cases cell with
    | text t => exact .inl ⟨⟨id, t⟩, rfl⟩
    | scope _ | decl _ | stmt _ | expr _ | switchLabel _ | type _ =>
      refine .inr (hother ?_ ?_)
      · simp [Cell.size, Stored.size, alignment]
      · simp [Cell.kind]
  case locals =>
    intro locals p hp
    refine .inr (padless_of_mem_arrayPieces size_of_mem_localCells rfl (fun c hc => ?_) p hp)
    obtain ⟨l, -, rfl⟩ := List.mem_map.mp hc
    change NodeKind.decl ≠ .text
    decide
  case stmts =>
    intro stmts p hp
    refine .inr (padless_of_mem_arrayPieces size_of_mem_stmtCells rfl (fun c hc => ?_) p hp)
    obtain ⟨s, -, rfl⟩ := List.mem_map.mp hc
    change NodeKind.stmt ≠ .text
    decide
  case switch =>
    intro labels p hp
    refine .inr (padless_of_mem_arrayPieces size_of_mem_switchCells rfl (fun c hc => ?_) p hp)
    obtain ⟨n, -, rfl⟩ := List.mem_map.mp hc
    change NodeKind.switchLabel ≠ .text
    decide

/-- The texts of a function are its pieces with a text. -/
theorem Function.mem_texts_iff (f : Function ι) (t : Leaf ι Text) : t ∈ f.texts ↔ textPiece t ∈ f.pieces := by
  -- Among the cells of the tree, only those of texts are text cells.
  have hcell : textCell t ∈ cellsOf f.pieces ↔ t ∈ f.texts := by
    rw [f.cells_perm.mem_iff]
    simp only [List.mem_append, List.mem_map, localCells, stmtCells, switchCells, scopeCell, exprCell, argCell,
      textCell, Leaf.mk.injEq, Scope.cell, Local.cell, Stmt.cell, Expr.cell, Cell.text.injEq, reduceCtorEq,
      and_false, exists_false, false_or, or_false]
    constructor
    · rintro ⟨⟨id, val⟩, hu, rfl, rfl⟩
      exact hu
    · exact fun h => ⟨t, h, rfl, rfl⟩
  rw [← hcell]
  constructor
  · intro h
    obtain ⟨p, hp, hmem⟩ := List.mem_flatMap.mp h
    rcases f.text_or_padless p hp with ⟨u, rfl⟩ | hpadless
    · rw [cells_textPiece, List.mem_singleton] at hmem
      cases u
      cases t
      cases hmem
      exact hp
    · exact absurd rfl (hpadless.noText _ hmem)
  · intro h
    exact List.mem_flatMap.mpr ⟨_, h, List.mem_singleton.mpr rfl⟩

/-- The bytes between the end of a text and the next aligned position, at the offsets of `place`. -/
def Function.Padding (f : Function ι) (place : ι → Offset) (i : Nat) : Prop :=
  ∃ t ∈ f.texts, (place t.id).toNat + t.val.stored.length ≤ i
    ∧ i < (place t.id).toNat + alignUp t.val.stored.length

/-! ### Views that read the same -/

structure ScopeView.Alike (v w : ScopeView) : Prop where
  offset : v.offset = w.offset
  record : v.record = w.record
  locals : v.locals = w.locals
  stmts : v.stmts = w.stmts

structure DeclView.Alike (v w : DeclView) : Prop where
  offset : v.offset = w.offset
  record : v.record = w.record
  name : v.name = w.name
  ty : v.ty = w.ty

structure StmtView.Alike (v w : StmtView) : Prop where
  offset : v.offset = w.offset
  record : v.record = w.record
  kind : v.kind = w.kind
  loc : v.loc = w.loc
  label : v.label = w.label
  switch : v.switch = w.switch

structure ExprView.Alike (v w : ExprView) : Prop where
  offset : v.offset = w.offset
  record : v.record = w.record
  kind : v.kind = w.kind
  value : v.value = w.value
  ty : v.ty = w.ty
  symbol : v.symbol = w.symbol
  method : v.method = w.method

/-- Two views stand at one offset and answer alike. To which views they lead on is said by walks. -/
def View.Alike : View → View → Prop
  | .scope v, .scope w => v.Alike w
  | .decl v, .decl w => v.Alike w
  | .stmt v, .stmt w => v.Alike w
  | .expr v, .expr w => v.Alike w
  | _, _ => False

/-- Two packed functions read the same, whatever stands in the bytes of the padding. -/
structure Packed.Alike (p q : Packed) (padding : Nat → Prop) : Prop where
  scope : p.scope = q.scope
  args : p.args = q.args
  size : p.block.size = q.block.size
  bytes : ∀ i, ¬padding i → p.block.bytes[i]? = q.block.bytes[i]?
  verify : ∃ report, p.verify = .ok report ∧ q.verify = .ok report
  /-- Each walk leads nowhere in both or to views that answer alike. -/
  walk : ∀ ts, (p.walk ts = .ok none ∧ q.walk ts = .ok none)
    ∨ ∃ v w, p.walk ts = .ok (some v) ∧ q.walk ts = .ok (some w) ∧ v.Alike w
  argTypes : ∃ types, p.argTypes = .ok types ∧ q.argTypes = .ok types
  read : ∃ s, p.readScope = .ok s ∧ q.readScope = .ok s

/-! ### Nodes that are walked to -/

/-- Only a scope leads to a local. -/
theorem Node.exists_of_follow_decl {n : Node ι} {t : Turn} {l : Local ι} (h : n.follow t = some (.decl l)) :
    ∃ s, n = .scope s ∧ l ∈ s.locals := by
  cases n with
  | scope s =>
    cases t with
    | toLocal i =>
      obtain ⟨l', hl', heq⟩ := Option.map_eq_some_iff.mp h
      cases heq
      exact ⟨s, rfl, List.mem_of_getElem? hl'⟩
    | toStmt _ | toNested | toExpr _ | toChild _ | toLoop => simp [Node.follow] at h
  | decl _ | stmt _ | expr _ => cases t <;> simp [Node.follow] at h

/-- Only a statement leads to a scope. -/
theorem Node.exists_of_follow_scope {n : Node ι} {t : Turn} {s : Scope ι} (h : n.follow t = some (.scope s)) :
    ∃ u, n = .stmt u ∧ u.scope = some s := by
  cases n with
  | stmt u =>
    cases t with
    | toNested =>
      obtain ⟨s', hs', heq⟩ := Option.map_eq_some_iff.mp h
      cases heq
      exact ⟨u, rfl, hs'⟩
    | toLocal _ | toStmt _ | toExpr _ | toChild _ | toLoop => simp [Node.follow] at h
  | scope _ | decl _ | expr _ => cases t <;> simp [Node.follow] at h

namespace Function.Has

variable {f : Function ι}

/-- A node of a function is the outermost scope, or the last turn of a walk leads to it. -/
theorem root_or_follow {n : Node ι} (h : f.Has n) :
    n = .scope f.scope ∨ ∃ m t, f.Has m ∧ m.follow t = some n := by
  obtain ⟨ts, hwalk⟩ := h
  rcases List.eq_nil_or_concat ts with rfl | ⟨us, t, rfl⟩
  · cases hwalk
    exact .inl rfl
  · rw [List.concat_eq_append, Node.walk_concat] at hwalk
    obtain ⟨m, hm, hturn⟩ := Option.bind_eq_some_iff.mp hwalk
    exact .inr ⟨m, t, ⟨us, hm⟩, hturn⟩

/-- A scope that can be walked to is among the scopes of the tree. -/
theorem mem_scopes {s : Scope ι} (h : f.Has (.scope s)) : s ∈ f.scopes := by
  rcases h.root_or_follow with heq | ⟨m, t, ⟨us, hwalk⟩, hturn⟩
  · cases heq
    exact List.mem_cons_self
  · obtain ⟨u, rfl, hscope⟩ := Node.exists_of_follow_scope hturn
    have hu : u ∈ f.scope.allStmts := Node.allStmts_of_walk hwalk u u.mem_allStmts_self
    exact List.mem_cons_of_mem _ (List.mem_flatMap.mpr ⟨u, hu, Option.mem_toList.mpr hscope⟩)

/-- A declaration that can be walked to is among the declarations of the tree. -/
theorem mem_locals {l : Local ι} (h : f.Has (.decl l)) : l ∈ f.locals := by
  rcases h.root_or_follow with heq | ⟨m, t, hm, hturn⟩
  · cases heq
  · obtain ⟨s, rfl, hl⟩ := Node.exists_of_follow_decl hturn
    exact List.mem_flatMap.mpr ⟨s, hm.mem_scopes, hl⟩

end Function.Has

variable [DecidableEq ι] [Hashable ι]

/-- Padding is what stands between the end of a piece and the next aligned position. -/
theorem pads_iff {ledger : Ledger ι} {pos : Nat} {ps : List (Piece ι)} {i : Nat}
    (hpieces : ledger.HasPieces pos ps) (hend : pos + piecesSize ps < range64) :
    Pads pos ps i ↔ ∃ p ∈ ps, (ledger.offset p.first.id).toNat + p.size ≤ i
      ∧ i < (ledger.offset p.first.id).toNat + alignUp p.size := by
  induction ps generalizing pos with
  | nil => exact ⟨fun h => h.elim, fun ⟨_, hp, _⟩ => (List.not_mem_nil hp).elim⟩
  | cons p ps ih =>
    rw [piecesSize] at hend
    have hfirst : ledger.resolve p.first.id = .ok (.ofNat pos) := hpieces.1.1
    have hstart : (ledger.offset p.first.id).toNat = pos := by
      rw [Ledger.offset_of_resolve hfirst]
      exact Offset.toNat_ofNat (by omega)
    rw [Pads, ih hpieces.2 (by omega), List.exists_mem_cons_iff, hstart]

/-- In a plan, the bytes of no piece are the padding behind the texts. -/
theorem Planned.not_covers_iff {f : Function ι} {size : Nat} {cx : Context ι} (hplan : Planned f size cx)
    (hsize : size < range64) {i : Nat} (hi : i < size) :
    ¬Covers 0 f.pieces i ↔ f.Padding cx.ledger.offset i := by
  have hend : 0 + piecesSize f.pieces = size := (Nat.zero_add _).trans hplan.size_eq.symm
  rw [TreePack.not_covers_iff (Nat.zero_le i) (by omega), pads_iff hplan.pieces (by omega)]
  constructor
  · rintro ⟨p, hp, hbehind, hfront⟩
    -- Records and rows end at aligned positions, so the piece is a text.
    rcases f.text_or_padless p hp with ⟨t, rfl⟩ | hpadless
    · exact ⟨t, (f.mem_texts_iff t).mpr hp, hbehind, hfront⟩
    · rw [hpadless.size] at hfront
      omega
  · rintro ⟨t, ht, hbehind, hfront⟩
    exact ⟨textPiece t, (f.mem_texts_iff t).mp ht, hbehind, hfront⟩

/-! ### Two blocks with one plan -/

/-- Each cell of pieces that were planned and filled stands at its offset. -/
theorem get?_of_filled {ledger : Ledger ι} {b : Block} {pos : Nat} {ps : List (Piece ι)}
    (hpieces : ledger.HasPieces pos ps) (huniform : ∀ p ∈ ps, p.Uniform) (h : Filled ledger b pos ps) :
    ∀ c ∈ cellsOf ps,
      b.get? (ledger.offset c.id).toNat c.val.size = some (c.val.map ledger.offset).encode := by
  induction ps generalizing pos with
  | nil => exact fun _ hc => (List.not_mem_nil hc).elim
  | cons p ps ih =>
    obtain ⟨hself, huniform⟩ := List.forall_mem_cons.mp huniform
    intro c hc
    rw [cellsOf_cons, List.mem_append] at hc
    rcases hc with hc | hc
    · obtain ⟨i, hi⟩ := List.mem_iff_getElem?.mp hc
      have hbytes := get?_of_rowBytes h.1 hself hi
      have hle := Block.le_of_get? hbytes
      have hrange := b.size_lt_range
      have hplace : (ledger.offset c.id).toNat = pos + i * p.first.val.size := by
        rw [Ledger.offset_of_resolve (hpieces.1.resolve hself hi)]
        apply Offset.toNat_ofNat
        omega
      rw [hplace]
      exact hbytes
    · exact ih hpieces.2 huniform h.2 c hc

/-- The record of a local that was planned and filled. -/
theorem DeclView.record_of_filled {ledger : Ledger ι} {b : Block} {f : Function ι}
    (hpieces : ledger.HasPieces 0 f.pieces) (h : Filled ledger b 0 f.pieces) {l : Local ι} (hl : l ∈ f.locals) :
    DeclView.record ⟨b, ledger.offset l.id⟩
      = .ok (Stored.decode (l.cell.map ledger.offset).encode) := by
  have hcell : (⟨l.id, l.cell⟩ : Leaf ι (Cell ι)) ∈ cellsOf f.pieces := by
    rw [f.cells_perm.mem_iff]
    simp only [List.mem_append]
    exact .inl (.inl (.inl (.inl (.inl (.inr (List.mem_map_of_mem hl))))))
  have hget := get?_of_filled hpieces f.uniform h _ hcell
  exact Stored.readAt_eq_ok_iff.mpr ⟨_, hget, rfl⟩

omit [DecidableEq ι] [Hashable ι] in
/-- The views of a node in two blocks that hold the function at the same offsets answer alike. The record of a
local is asked for separately, since what it says about arguments is no part of the tree. -/
theorem Function.Has.view_alike {f : Function ι} {n : Node ι} {place : ι → Offset} {p q : Packed}
    (hn : f.Has n) (hwell : f.WellFormed) (hp : p.Relocates place f) (hq : q.Relocates place f)
    (hlocals : ∀ l ∈ f.locals,
      DeclView.record ⟨p.block, place l.id⟩ = DeclView.record ⟨q.block, place l.id⟩) :
    (n.view p.block place).Alike (n.view q.block place) := by
  -- Both blocks hold the node at the same offset, so all that is read of it is the same.
  have hpheld := (hn.heldIn hp hwell).held
  have hqheld := (hn.heldIn hq hwell).held
  cases n with
  | scope s =>
    have hrecord : ScopeView.record ⟨p.block, place s.id⟩ = ScopeView.record ⟨q.block, place s.id⟩ := by
      cases s with
      | mk id locals stmts =>
        have hread := ((Scope.held_iff id locals stmts).mp hpheld).1.2
        have hread' := ((Scope.held_iff id locals stmts).mp hqheld).1.2
        exact hread.trans hread'.symm
    refine ⟨rfl, hrecord, ?_, ?_⟩
    · rw [ScopeView.locals, ScopeView.locals, hrecord]
    · rw [ScopeView.stmts, ScopeView.stmts, hrecord]
  | decl l =>
    have hshows := DeclView.shows_of_held hpheld
    have hshows' := DeclView.shows_of_held hqheld
    exact ⟨rfl, hlocals l hn.mem_locals, hshows.name.trans hshows'.name.symm, hshows.ty.trans hshows'.ty.symm⟩
  | stmt s =>
    have hshows {b : Block} (h : (Node.stmt s).Held b place) : StmtView.ShowsHead place ⟨b, place s.id⟩ s.head := by
      cases s with
      | mk head scope exprs =>
        obtain ⟨-, -, hlabel, hrow, hswitch⟩ := (Stmt.held_iff head scope exprs).mp h.2
        exact StmtView.showsHead_of_held h.1 hlabel hrow hswitch
    have hp' := hshows hpheld
    have hq' := hshows hqheld
    exact ⟨rfl, hpheld.1.trans hqheld.1.symm, hp'.kind.trans hq'.kind.symm, hp'.loc.trans hq'.loc.symm,
      hp'.label.trans hq'.label.symm, hp'.switch.trans hq'.switch.symm⟩
  | expr e =>
    cases e with
    | node head children =>
      obtain ⟨⟨-, hread⟩, hsymbol, hmethod, -⟩ := (Expr.held_iff head children).mp hpheld
      obtain ⟨⟨-, hread'⟩, hsymbol', hmethod', -⟩ := (Expr.held_iff head children).mp hqheld
      have hp' := ExprView.showsHead_of_held (e := .node head children) hread hsymbol hmethod
      have hq' := ExprView.showsHead_of_held (e := .node head children) hread' hsymbol' hmethod'
      exact ⟨rfl, hread.trans hread'.symm, hp'.kind.trans hq'.kind.symm, hp'.value.trans hq'.value.symm,
        hp'.ty.trans hq'.ty.symm, hp'.symbol.trans hq'.symbol.symm, hp'.method.trans hq'.method.symm⟩

namespace Planned

variable {f : Function ι} {size : Nat} {cx : Context ι} (hplan : Planned f size cx)

include hplan

/-- The padding keeps the bytes that the block had. -/
theorem padding_kept {start stop : Progress} (hsize : start.block.size = size)
    (hrun : WriteRun cx.ledger f.visits 0 start stop) {i : Nat} (hi : f.Padding cx.ledger.offset i) :
    stop.block.bytes[i]? = start.block.bytes[i]? := by
  by_cases hlt : i < size
  · have hrange := start.block.size_lt_range
    rw [hsize] at hrange
    have hcover := (hplan.not_covers_iff hrange hlt).mpr hi
    rw [← placedPieces_visits] at hcover
    exact hrun.kept i hcover
  · rw [Block.getElem?_outside (hrun.size.trans hsize) hlt, Block.getElem?_outside hsize hlt]

/-- All other bytes are those of the pieces, whatever the block had there. -/
theorem bytes_eq {start stop start' stop' : Progress} (hsize : start.block.size = size)
    (hsize' : start'.block.size = size) (hrun : WriteRun cx.ledger f.visits 0 start stop)
    (hrun' : WriteRun cx.ledger f.visits 0 start' stop') {i : Nat} (hi : ¬f.Padding cx.ledger.offset i) :
    stop.block.bytes[i]? = stop'.block.bytes[i]? := by
  by_cases hlt : i < size
  · have hrange := start.block.size_lt_range
    rw [hsize] at hrange
    have hcover : Covers 0 f.pieces i := by
      by_contra hnot
      exact hi ((hplan.not_covers_iff hrange hlt).mp hnot)
    rw [← placedPieces_visits] at hcover
    exact bytes_of_filled hrun.filled hrun'.filled hcover
  · rw [Block.getElem?_outside (hrun.size.trans hsize) hlt, Block.getElem?_outside (hrun'.size.trans hsize') hlt]

/-- A function that is written into two blocks of the planned size reads the same from both. -/
theorem alike {start stop start' stop' : Progress} (hsize : start.block.size = size)
    (hsize' : start'.block.size = size) (hrun : WriteRun cx.ledger f.visits 0 start stop)
    (hrun' : WriteRun cx.ledger f.visits 0 start' stop') :
    let args := f.args.map fun t => cx.ledger.offset t.id
    Packed.Alike ⟨stop.block, cx.ledger.offset f.scope.id, args⟩
      ⟨stop'.block, cx.ledger.offset f.scope.id, args⟩ (f.Padding cx.ledger.offset) := by
  have hp := hplan.relocates hsize hrun
  have hq := hplan.relocates hsize' hrun'
  have hwell := hplan.wellFormed
  have hfilled := hrun.filled
  have hfilled' := hrun'.filled
  rw [placedPieces_visits] at hfilled hfilled'
  constructor
  case scope => rfl
  case args => rfl
  case size =>
    calc
      stop.block.size = start.block.size := hrun.size
      _ = start'.block.size := hsize.trans hsize'.symm
      _ = stop'.block.size := hrun'.size.symm
  case bytes => exact fun i hi => hplan.bytes_eq hsize hsize' hrun hrun' hi
  case verify => exact ⟨_, hp.verify_eq hwell, hq.verify_eq hwell⟩
  case walk =>
    intro ts
    -- Both walks follow the one through the tree.
    obtain ⟨m, hm, hwalk⟩ := f.exists_walk cx.ledger.offset hwell ts
    cases m with
    | none => exact .inl ⟨hwalk _ hp, hwalk _ hq⟩
    | some n =>
      refine .inr ⟨_, _, hwalk _ hp, hwalk _ hq, (hm n rfl).view_alike hwell hp hq fun l hl => ?_⟩
      rw [DeclView.record_of_filled hplan.pieces hfilled hl, DeclView.record_of_filled hplan.pieces hfilled' hl]
  case argTypes => exact ⟨_, (hp.shows hwell).argTypes, (hq.shows hwell).argTypes⟩
  case read => exact ⟨_, hp.readScope hwell, hq.readScope hwell⟩

end Planned

/-- Old bytes of the block never become part of the program. Two allocators that give blocks of the planned size
make a function the same program, which is dumped and counted alike; only in the padding behind the texts does
each block keep its own bytes. -/
theorem Decl.compact_into_two {options : Options} {allocator allocator' : Allocator ι} {f : Function ι}
    {d : Decl ι} {size : Nat} {cx : Context ι} {block block' : Block} (hbody : d.body = some (.tree f))
    (hplan : Context.plan f Context.empty = .ok size cx) (hlimit : size ≤ options.maxBlockBytes)
    (halloc : allocator size = .ok block) (hsize : block.size = size)
    (halloc' : allocator' size = .ok block') (hsize' : block'.size = size) :
    ∃ stats p p', compact options allocator d = (.ok (.compacted stats), { d with body := some (.packed p) })
      ∧ compact options allocator' d = (.ok (.compacted stats), { d with body := some (.packed p') })
      ∧ p.Alike p' (f.Padding cx.ledger.offset)
      ∧ (∀ i, f.Padding cx.ledger.offset i →
        p.block.bytes[i]? = block.bytes[i]? ∧ p'.block.bytes[i]? = block'.bytes[i]?)
      ∧ ∃ text, ({ d with body := some (.packed p) } : Decl ι).dump = .ok text
        ∧ ({ d with body := some (.packed p') } : Decl ι).dump = .ok text := by
  have hplanned := Context.plan_run hplan
  have hwell := hplanned.wellFormed
  obtain ⟨stop, hrun, hcompact⟩ := compactTree_of_plan hplan hlimit halloc hsize
  obtain ⟨stop', hrun', hcompact'⟩ := compactTree_of_plan hplan hlimit halloc' hsize'
  -- The counts depend on the walk alone.
  have hstats : stop'.stats = stop.stats := hrun'.stats.trans hrun.stats.symm
  rw [hstats] at hcompact'
  have halike := hplanned.alike hsize hsize' hrun hrun'
  have hown (i : Nat) (hi : f.Padding cx.ledger.offset i) :
      stop.block.bytes[i]? = block.bytes[i]? ∧ stop'.block.bytes[i]? = block'.bytes[i]? :=
    ⟨hplanned.padding_kept hsize hrun hi, hplanned.padding_kept hsize' hrun' hi⟩
  have hdump := dump_of_relocates (d := { d with body := some (.packed ⟨stop.block, _, _⟩) }) rfl
    (hplanned.relocates hsize hrun) hwell
  have hdump' := dump_of_relocates (d := { d with body := some (.packed ⟨stop'.block, _, _⟩) }) rfl
    (hplanned.relocates hsize' hrun') hwell
  exact ⟨stop.stats, _, _, compact_of_tree hbody hcompact, compact_of_tree hbody hcompact', halike,
    hown, _, hdump, hdump'⟩

/-- A break in a loop, compacted into zeros and into bytes that are all set. -/
theorem compact_into_two_breakInLoop :
    ∃ (size : Nat) (cx : Context Nat) (block block' : Block),
      Context.plan breakInLoop Context.empty = .ok size cx
      ∧ (Allocator.heap : Allocator Nat) size = .ok block ∧ (Allocator.filled 255 : Allocator Nat) size = .ok block'
      ∧ ∃ stats p p',
        Decl.compact Options.standard Allocator.heap breakInLoopDecl
            = (.ok (.compacted stats), { breakInLoopDecl with body := some (.packed p) })
        ∧ Decl.compact Options.standard (Allocator.filled 255) breakInLoopDecl
            = (.ok (.compacted stats), { breakInLoopDecl with body := some (.packed p') })
        ∧ p.Alike p' (breakInLoop.Padding cx.ledger.offset)
        ∧ (∀ i, breakInLoop.Padding cx.ledger.offset i →
          p.block.bytes[i]? = block.bytes[i]? ∧ p'.block.bytes[i]? = block'.bytes[i]?)
        ∧ ∃ text, ({ breakInLoopDecl with body := some (.packed p) } : Decl Nat).dump = .ok text
          ∧ ({ breakInLoopDecl with body := some (.packed p') } : Decl Nat).dump = .ok text := by
  obtain ⟨size, cx, hplan, hmax⟩ := exists_plan_breakInLoop Context.empty
  obtain ⟨block, halloc, hsize⟩ := Allocator.heap_ok (ι := Nat) hmax
  obtain ⟨block', halloc', hsize'⟩ := Allocator.filled_ok (ι := Nat) 255 hmax
  exact ⟨size, cx, block, block', hplan, halloc, halloc',
    Decl.compact_into_two rfl hplan (Options.le_standard hmax) halloc hsize halloc' hsize'⟩

end TreePack
