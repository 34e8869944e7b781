import TreePack.Proofs.Counting
import TreePack.Proofs.Refusals
import TreePack.Proofs.Relabeling
import TreePack.Proofs.Relocation

namespace TreePack

variable {ι κ : Type}

/-- A renaming gives distinct nodes distinct identities, and lets a loop reference that leads out of the tree lead
out of it. -/
structure Function.Faithful (f : Function ι) (r : ι → κ) : Prop where
  nodes : ((idsOf f.pieces).map r).Nodup
  loops : ∀ s ∈ f.scope.allStmts, ∀ target ∈ s.head.loop,
    r target ∈ (idsOf f.pieces).map r → target ∈ idsOf f.pieces

/-! ### Pieces keep their sizes -/

section

variable (r : ι → κ)

theorem Cell.kind_map {π ρ : Type} (g : π → ρ) (c : Cell π) : (c.map g).kind = c.kind := by
  cases c <;> rfl

theorem piecesSize_map_rename (ps : List (Piece ι)) : piecesSize (ps.map (Piece.rename r)) = piecesSize ps := by
  induction ps with
  | nil => rfl
  | cons p ps ih => rw [List.map_cons, piecesSize, piecesSize, ih, Piece.size_rename]

theorem reservationsFrom_map_rename (pos : Nat) (ps : List (Piece ι)) :
    reservationsFrom pos (ps.map (Piece.rename r)) = reservationsFrom pos ps := by
  induction ps generalizing pos with
  | nil => rfl
  | cons p ps ih =>
    have hkind : (p.rename r).first.val.kind = p.first.val.kind := Cell.kind_map r _
    have hcount : (p.rename r).cells.length = p.cells.length := by rw [Piece.cells_rename, List.length_map]
    have hpiece : Reservation.ofPiece pos (p.rename r) = .ofPiece pos p := by
      rw [Reservation.ofPiece, Reservation.ofPiece, p.size_rename, hkind, hcount]
    rw [List.map_cons, reservationsFrom, reservationsFrom, ih, p.size_rename, hpiece]

theorem cellsOf_map_rename (ps : List (Piece ι)) :
    cellsOf (ps.map (Piece.rename r)) = (cellsOf ps).map (renameCell r) := by
  rw [cellsOf, cellsOf, List.flatMap_map, List.map_flatMap]
  rfl

/-- Renamed pieces are written with as many look-ups. -/
theorem lookUps_map_rename (ps : List (Piece ι)) : lookUps (ps.map (Piece.rename r)) = lookUps ps := by
  have hrow (cs : List (Leaf ι (Cell ι))) : rowLookUps (cs.map (renameCell r)) = rowLookUps cs := by
    induction cs with
    | nil => rfl
    | cons c cs ih =>
      change 1 + (c.val.map r).pointers.length + rowLookUps (cs.map (renameCell r)) = _
      rw [ih, Cell.pointers_map, List.length_map]
      rfl
  induction ps with
  | nil => rfl
  | cons p ps ih =>
    have hkind : (p.rename r).first.val.kind = p.first.val.kind := Cell.kind_map r _
    have hpiece : (p.rename r).lookUps = p.lookUps := by
      rw [Piece.lookUps, Piece.lookUps, hkind, Piece.cells_rename, hrow]
    change (p.rename r).lookUps + lookUps (ps.map (Piece.rename r)) = p.lookUps + lookUps ps
    rw [hpiece, ih]

theorem covers_map_rename (pos : Nat) (ps : List (Piece ι)) (i : Nat) :
    Covers pos (ps.map (Piece.rename r)) i ↔ Covers pos ps i := by
  induction ps generalizing pos with
  | nil => rfl
  | cons p ps ih => rw [List.map_cons, Covers, Covers, ih, p.size_rename]

end

/-! ### Refusals -/

def Malformed.map (r : ι → κ) : Malformed ι → Malformed κ
  | functionLocal name => functionLocal name
  | tooManyExpressions count max => tooManyExpressions count max
  | danglingLoopRef node => danglingLoopRef (r node)
  | loopRefNotStatement node => loopRefNotStatement (r node)
  | loopRefNotLoop node => loopRefNotLoop (r node)

section

variable (r : ι → κ)

theorem Local.defect?_rename (l : Local ι) : (l.rename r).defect? = l.defect?.map (Malformed.map r) := by
  by_cases hfun : l.isFunction
  · rw [Local.defect?, Local.defect?, if_pos hfun, if_pos (show (l.rename r).isFunction from hfun)]
    rfl
  · rw [Local.defect?, Local.defect?, if_neg hfun, if_neg (show ¬(l.rename r).isFunction from hfun)]
    rfl

theorem exprsDefect?_rename (exprs : List (Expr ι)) :
    exprsDefect? (exprs.map (Expr.rename r)) = (exprsDefect? exprs).map (Malformed.map r) := by
  rw [exprsDefect?, exprsDefect?, List.length_map]
  by_cases hmany : maxExprs < exprs.length
  · rw [if_pos hmany, if_pos hmany]
    rfl
  · rw [if_neg hmany, if_neg hmany]
    rfl

variable (loc : Option SourceLoc → Option SourceLoc)

mutual

/-- A relabelled scope has the same defects, about the renamed nodes. -/
theorem Scope.shapeDefects_relabel (s : Scope ι) :
    (s.relabel r loc).shapeDefects = s.shapeDefects.map (Malformed.map r) := by
  match s with
  | ⟨id, locals, stmts⟩ =>
    have hlocals : (locals.map (Local.rename r)).filterMap Local.defect?
        = (locals.filterMap Local.defect?).map (Malformed.map r) := by
      rw [List.filterMap_map, List.map_filterMap]
      exact congrFun (congrArg List.filterMap (funext (Local.defect?_rename r))) locals
    rw [Scope.relabel, Scope.shapeDefects, Scope.shapeDefects, hlocals, stmtListShapeDefects_relabel stmts,
      List.map_append]

theorem Stmt.shapeDefects_relabel (s : Stmt ι) :
    (s.relabel r loc).shapeDefects = s.shapeDefects.map (Malformed.map r) := by
  match s with
  | ⟨head, scope, exprs⟩ =>
    rw [Stmt.relabel, Stmt.shapeDefects, Stmt.shapeDefects, exprsDefect?_rename,
      nestedShapeDefects_relabel scope, List.map_append]
    cases exprsDefect? exprs <;> rfl

theorem stmtListShapeDefects_relabel (ss : List (Stmt ι)) :
    stmtListShapeDefects (stmtListRelabel r loc ss) = (stmtListShapeDefects ss).map (Malformed.map r) := by
  match ss with
  | [] => rfl
  | s :: ss =>
    rw [stmtListRelabel, stmtListShapeDefects, stmtListShapeDefects, Stmt.shapeDefects_relabel s,
      stmtListShapeDefects_relabel ss, List.map_append]

theorem nestedShapeDefects_relabel (s : Option (Scope ι)) :
    nestedShapeDefects (nestedRelabel r loc s) = (nestedShapeDefects s).map (Malformed.map r) := by
  match s with
  | none => rfl
  | some s => exact Scope.shapeDefects_relabel s

end

end

namespace Function

variable {f : Function ι} {r : ι → κ}

theorem idsOf_rename (f : Function ι) (r : ι → κ) : idsOf (f.rename r).pieces = (idsOf f.pieces).map r := by
  rw [f.pieces_rename, idsOf_map_rename]

theorem allStmts_rename (f : Function ι) (r : ι → κ) :
    (f.rename r).scope.allStmts = f.scope.allStmts.map (Stmt.relabel r sameLoc) :=
  Scope.allStmts_relabel r sameLoc f.scope

/-- A target that is a loop is one after renaming, too. -/
theorem NamesLoop.rename {target : ι} (h : f.NamesLoop target) (r : ι → κ) :
    (f.rename r).NamesLoop (r target) := by
  obtain ⟨t, ht, rfl, hkind⟩ := h
  refine ⟨t.relabel r sameLoc, ?_, t.id_relabel r sameLoc, ?_⟩
  · rw [f.allStmts_rename]
    exact List.mem_map_of_mem ht
  · rw [Stmt.head_relabel]
    exact hkind

/-- What is wrong with a loop reference stays wrong. -/
theorem BadRef.rename {target : ι} {d : Malformed ι} (h : f.BadRef target d)
    (houtside : r target ∈ (idsOf f.pieces).map r → target ∈ idsOf f.pieces) :
    (f.rename r).BadRef (r target) (d.map r) := by
  cases h with
  | dangling hnot =>
    apply BadRef.dangling
    rw [f.idsOf_rename]
    -- An unknown target must not get the name of a node.
    exact fun hmem => hnot (houtside hmem)
  | notStatement c hmem hid hkind =>
    apply BadRef.notStatement (renameCell r c)
    · rw [f.pieces_rename, cellsOf_map_rename]
      exact List.mem_map_of_mem hmem
    · exact congrArg r hid
    · rw [renameCell, Cell.kind_map]
      exact hkind
  | notLoop t hmem hid hkind =>
    apply BadRef.notLoop (t.relabel r sameLoc)
    · rw [f.allStmts_rename]
      exact List.mem_map_of_mem hmem
    · rw [Stmt.id_relabel, hid]
    · rw [Stmt.head_relabel]
      exact hkind

/-- A renamed function is refused for the renamed reason. -/
theorem Refused.rename (hr : f.Faithful r) {d : Malformed ι} (h : f.Refused d) :
    (f.rename r).Refused (d.map r) := by
  cases h with
  | shape d others h =>
    apply Refused.shape (d.map r) (others.map (Malformed.map r))
    change (f.scope.relabel r sameLoc).shapeDefects = _
    rw [Scope.shapeDefects_relabel, h, List.map_cons]
  | loop hshape before after s target d hstmts hbefore hloop hbad =>
    have hs : s ∈ f.scope.allStmts := by
      rw [hstmts]
      exact List.mem_append_right _ List.mem_cons_self
    apply Refused.loop (f := f.rename r) ?_ (before.map (Stmt.relabel r sameLoc)) (after.map (Stmt.relabel r sameLoc))
      (s.relabel r sameLoc) (r target) (d.map r)
    · rw [f.allStmts_rename, hstmts, List.map_append, List.map_cons]
    · intro t ht target' htarget'
      -- The statements before are renamed ones, and their targets are still loops.
      obtain ⟨original, horiginal, rfl⟩ := List.mem_map.mp ht
      rw [Stmt.head_relabel] at htarget'
      obtain ⟨named, hnamed, rfl⟩ := Option.map_eq_some_iff.mp htarget'
      exact (hbefore original horiginal named hnamed).rename r
    · rw [Stmt.head_relabel]
      exact congrArg (Option.map r) hloop
    · exact hbad.rename (hr.loops s hs target hloop)
    · change (f.scope.relabel r sameLoc).shapeDefects = _
      rw [Scope.shapeDefects_relabel, hshape, List.map_nil]

end Function

variable [DecidableEq ι] [Hashable ι] [DecidableEq κ] [Hashable κ]

/-! ### Plans -/

/-- Two ledgers that have the same pieces under two names have them at the same offsets. -/
theorem Ledger.HasPieces.offset_rename {l : Ledger ι} {l' : Ledger κ} {r : ι → κ} {pos : Nat}
    {ps : List (Piece ι)} (h : l.HasPieces pos ps) (h' : l'.HasPieces pos (ps.map (Piece.rename r))) :
    ∀ q ∈ idsOf ps, l'.offset (r q) = l.offset q := by
  -- First within one row, then along the pieces.
  have hrow {pos : Nat} {cs : List (Leaf ι (Cell ι))} (h : l.HasRow pos cs)
      (h' : l'.HasRow pos (cs.map (renameCell r))) : ∀ q ∈ cs.map (·.id), l'.offset (r q) = l.offset q := by
    induction cs generalizing pos with
    | nil => exact fun _ hq => (List.not_mem_nil hq).elim
    | cons c cs ih =>
      have hrest : l'.HasRow (pos + c.val.size) (cs.map (renameCell r)) := by
        have hnext := h'.2
        rw [renameCell, Cell.size_map] at hnext
        exact hnext
      intro q hq
      rcases List.mem_cons.mp hq with rfl | hq
      · exact (offset_of_resolve h'.1).trans (offset_of_resolve h.1).symm
      · exact ih h.2 hrest q hq
  induction ps generalizing pos with
  | nil => exact fun _ hq => (List.not_mem_nil hq).elim
  | cons p ps ih =>
    have hnext := h'.2
    rw [p.size_rename] at hnext
    intro q hq
    rcases List.mem_append.mp hq with hq | hq
    · exact hrow h.1 h'.1 q hq
    · exact ih h.2 hnext q hq

namespace Context

variable {f : Function ι} {r : ι → κ}

/-- A renamed function has the plan of the function, or is refused for the renamed reason, from any contexts. -/
theorem plan_rename (hr : f.Faithful r) (cx : Context ι) (cx' : Context κ) :
    (∀ size done, plan f cx = .ok size done → ∃ done', plan (f.rename r) cx' = .ok size done'
        ∧ done'.reservations = done.reservations ∧ done'.stats = done.stats)
      ∧ ∀ e done, plan f cx = .error e done → ∃ d done', e = .malformedTree d ∧ f.Refused d
        ∧ plan (f.rename r) cx' = .error (.malformedTree (d.map r)) done' := by
  have hids : (idsOf f.pieces).Nodup := List.Nodup.of_map r hr.nodes
  have hids' : (idsOf (f.rename r).pieces).Nodup := by
    rw [f.idsOf_rename]
    exact hr.nodes
  constructor
  · intro size done hplan
    have hplanned := plan_run hplan
    -- What can be planned is well-formed, and stays so under other names.
    obtain ⟨size', done', hplan'⟩ := exists_plan hids' (hplanned.wellFormed.relabel r sameLoc) cx'
    have hplanned' := plan_run hplan'
    have hsize : size' = size := by
      calc
        size' = piecesSize (f.rename r).pieces := hplanned'.size_eq
        _ = piecesSize f.pieces := by rw [f.pieces_rename, piecesSize_map_rename]
        _ = size := hplanned.size_eq.symm
    have hreservations : done'.reservations = done.reservations := by
      apply Array.toList_inj.mp
      rw [hplanned'.reservations, hplanned.reservations, f.pieces_rename, reservationsFrom_map_rename]
    have hentries : done'.ledger.size = done.ledger.size := by
      rw [(entries_of_plan hids' hplan').1, (entries_of_plan hids hplan).1, f.pieces_rename,
        cellsOf_map_rename, List.length_map]
    rw [hsize] at hplan'
    refine ⟨done', hplan', hreservations, ?_⟩
    rw [(stats_of_plan hplan').2, (stats_of_plan hplan).2, hreservations, hentries]
  · intro e done hplan
    -- The reason of a refusal is a fact about the tree, which has nothing to do with the context.
    obtain ⟨d, hrefused, rfl⟩ := refused_of_plan hids hplan
    obtain ⟨done', hplan'⟩ := plan_of_refused hids' (hrefused.rename hr) cx'
    exact ⟨d, done', rfl, hrefused, hplan'⟩

end Context

/-! ### Writes -/

/-- A block is its bytes. -/
theorem Block.bytes_inj {b b' : Block} (h : b.bytes = b'.bytes) : b = b' := by
  cases b
  cases b'
  cases h
  rfl

section

omit [DecidableEq ι] [Hashable ι] [DecidableEq κ] [Hashable κ]

/-- Only what becomes of the pointers counts. -/
theorem Cell.map_congr {π ρ : Type} {g g' : π → ρ} {c : Cell π} (h : ∀ q ∈ c.pointers, g q = g' q) :
    c.map g = c.map g' := by
  have hptr {o : Option π} (ho : ∀ q ∈ o.toList, g q = g' q) : o.map g = o.map g' := by
    cases o with
    | none => rfl
    | some q => exact congrArg some (ho q List.mem_cons_self)
  -- The slots of a record are mapped one by one.
  have hslots {n : Nat} {v : Vector (Option π) n} (hv : ∀ q ∈ v.toList.reduceOption, g q = g' q) :
      v.map (Option.map g) = v.map (Option.map g') := by
    apply Vector.map_congr_left
    intro o ho
    apply hptr
    intro q hq
    apply hv q
    rw [Option.mem_toList] at hq
    rw [List.reduceOption_mem_iff, ← hq]
    exact Vector.mem_toList_iff.mpr ho
  cases c with
  | text _ | switchLabel _ | type _ => rfl
  | scope r =>
    simp only [Cell.pointers, ScopeRecord.pointers, List.forall_mem_append] at h
    rw [Cell.map, Cell.map, ScopeRecord.map, ScopeRecord.map, hptr h.1, hptr h.2]
  | decl r =>
    simp only [Cell.pointers, DeclRecord.pointers, List.forall_mem_append] at h
    rw [Cell.map, Cell.map, DeclRecord.map, DeclRecord.map, hptr h.1.1, hptr h.1.2, hptr h.2]
  | stmt r =>
    simp only [Cell.pointers, StmtRecord.pointers, List.forall_mem_append] at h
    rw [Cell.map, Cell.map, StmtRecord.map, StmtRecord.map, hptr h.1.1.1.1, hptr h.1.1.1.2, hslots h.1.1.2,
      hptr h.1.2, hptr h.2]
  | expr r =>
    simp only [Cell.pointers, ExprRecord.pointers, List.forall_mem_append] at h
    rw [Cell.map, Cell.map, ExprRecord.map, ExprRecord.map, hptr h.1.1, hptr h.1.2, hslots h.2]

/-- The scope and the arguments are found at the same offsets if the nodes have the same offsets. -/
theorem Function.roots_rename {f : Function ι} {r : ι → κ} {place : ι → Offset} {place' : κ → Offset}
    (h : ∀ q ∈ idsOf f.pieces, place' (r q) = place q) :
    place' (f.rename r).scope.id = place f.scope.id
      ∧ ((f.rename r).args.map fun t => place' t.id) = f.args.map fun t => place t.id := by
  rw [Function.pieces, idsOf_append] at h
  constructor
  · have hid : (f.rename r).scope.id = r f.scope.id := f.scope.id_relabel r sameLoc
    rw [hid]
    exact h _ (List.mem_append_left _ f.scope.id_mem_idsOf)
  · change (f.args.map (Leaf.rename r)).map _ = _
    rw [List.map_map]
    apply List.map_congr_left
    intro t ht
    apply h
    apply List.mem_append_right
    exact List.mem_flatMap.mpr ⟨argPiece t, List.mem_map_of_mem ht, List.mem_cons_self⟩

end

section

variable {l : Ledger ι} {l' : Ledger κ} {r : ι → κ}

/-- Cells with other identities have the same bytes if what they point to is at the same offsets. -/
theorem rowBytes_map_renameCell {cs : List (Leaf ι (Cell ι))}
    (hoffset : ∀ c ∈ cs, ∀ q ∈ c.val.pointers, l'.offset (r q) = l.offset q) :
    rowBytes l' (cs.map (renameCell r)) = rowBytes l cs := by
  rw [rowBytes, rowBytes, List.flatMap_map]
  apply List.flatMap_congr
  intro c hc
  have hcell : c.val.map (l'.offset ∘ r) = c.val.map l.offset := Cell.map_congr (hoffset c hc)
  rw [renameCell, Cell.map_map, hcell]

/-- The bytes of renamed pieces are those of the pieces, if all pointers resolve alike. -/
theorem filled_map_rename {b : Block} {pos : Nat} {ps : List (Piece ι)}
    (hoffset : PointersIn ps fun q => l'.offset (r q) = l.offset q) :
    Filled l' b pos (ps.map (Piece.rename r)) ↔ Filled l b pos ps := by
  induction ps generalizing pos with
  | nil => rfl
  | cons p ps ih =>
    obtain ⟨hhead, htail⟩ := (pointersIn_cons p ps).mp hoffset
    rw [List.map_cons, Filled, Filled, Piece.cells_rename, rowBytes_map_renameCell hhead, p.size_rename, ih htail]

end

namespace Context

variable {f : Function ι} {r : ι → κ}

/-- A renamed function fills a block with the bytes of the function, and is given the same offsets. -/
theorem write_rename {size : Nat} {cx : Context ι} {cx' : Context κ} {block : Block}
    (hplan : Planned f size cx) (hplan' : Planned (f.rename r) size cx') (hstats : cx'.stats = cx.stats)
    (hblock : cx.block = some block) (hblock' : cx'.block = some block) (hsize : block.size = size) :
    ∃ p done done', write f cx = .ok p done ∧ write (f.rename r) cx' = .ok p done'
      ∧ done'.stats = done.stats := by
  have hfit : piecesSize f.pieces ≤ block.size := Nat.le_of_eq (hplan.size_eq.symm.trans hsize.symm)
  have hfit' : piecesSize (f.rename r).pieces ≤ block.size :=
    Nat.le_of_eq (hplan'.size_eq.symm.trans hsize.symm)
  obtain ⟨stop, hrun, hwrite⟩ :=
    write_of_pieces hblock hplan.written hplan.pieces hplan.pointersIn hfit hplan.size_reservations
  obtain ⟨stop', hrun', hwrite'⟩ :=
    write_of_pieces hblock' hplan'.written hplan'.pieces hplan'.pointersIn hfit' hplan'.size_reservations
  have hfilled := hrun.filled
  have hfilled' := hrun'.filled
  have hkept := hrun.kept
  have hkept' := hrun'.kept
  have hpieces' := hplan'.pieces
  rw [placedPieces_visits] at hfilled hfilled' hkept hkept'
  rw [f.pieces_rename] at hfilled' hkept' hpieces'
  have hoffset := hplan.pieces.offset_rename hpieces'
  have hpointers : PointersIn f.pieces fun q => cx'.ledger.offset (r q) = cx.ledger.offset q :=
    fun p hp c hc q hq => hoffset q (hplan.wellFormed.pointersIn p hp c hc q hq)
  rw [filled_map_rename hpointers] at hfilled'
  -- Both blocks have the bytes of the pieces, and elsewhere what the block had before.
  have hsame : stop'.block = stop.block := by
    apply Block.bytes_inj
    apply Array.ext_getElem?
    intro i
    by_cases hcover : Covers 0 f.pieces i
    · exact bytes_of_filled hfilled' hfilled hcover
    · rw [hkept i hcover, hkept' i ((covers_map_rename r 0 f.pieces i).not.mpr hcover)]
  obtain ⟨hscope, hargs⟩ := Function.roots_rename hoffset
  have hcounts : stop'.stats = stop.stats := by
    rw [hrun'.stats, hrun.stats, (f.rename r).foldl_count, f.foldl_count, f.pieces_rename, lookUps_map_rename,
      List.length_map, hstats]
  rw [hsame, hscope, hargs] at hwrite'
  exact ⟨_, _, _, hwrite, hwrite', hcounts⟩

end Context

end TreePack
