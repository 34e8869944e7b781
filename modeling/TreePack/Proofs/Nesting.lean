import TreePack.Proofs.Compacting
import TreePack.Proofs.ParentsFirst

namespace TreePack

variable {ι : Type}

/-! ### Extents of subtrees -/

def Extent.FilledBy (place : ι → Offset) (e : Extent) (ps : List (Piece ι)) : Prop :=
  Follow e.start (ps.map (Piece.extent place)) e.stop

def Scope.span (place : ι → Offset) (s : Scope ι) : Extent := ⟨(place s.id).toNat, piecesSize s.pieces⟩

def Expr.span (place : ι → Offset) (e : Expr ι) : Extent := ⟨(place e.id).toNat, piecesSize e.pieces⟩

def Stmt.ownSpans (place : ι → Offset) (s : Stmt ι) : List Extent :=
  s.scope.toList.map (Scope.span place) ++ s.ownExprs.map (Expr.span place)

def Function.spans (place : ι → Offset) (f : Function ι) : List Extent :=
  f.scopes.map (Scope.span place) ++ f.exprs.map (Expr.span place)

/-- The spans of a tree, gathered statement by statement, are those of its scopes and expressions. -/
theorem Function.spans_perm (place : ι → Offset) (f : Function ι) :
    (f.scope.span place :: f.scope.allStmts.flatMap (Stmt.ownSpans place)).Perm (f.spans place) := by
  have hstmts := List.flatMap_append_perm f.scope.allStmts
    (fun s => s.scope.toList.map (Scope.span place)) fun s => s.ownExprs.map (Expr.span place)
  rw [← List.map_flatMap, ← List.map_flatMap] at hstmts
  exact (hstmts.cons _).symm

section

variable {place : ι → Offset} {pos stop : Nat} {ps : List (Piece ι)}

theorem stop_eq_of_follow (h : Follow pos (ps.map (Piece.extent place)) stop) :
    stop = pos + piecesSize ps := by
  rw [h.stop_eq, totalLen_extents]

/-- Pieces that follow each other begin where the first of them stands. -/
theorem extent_eq_of_follow {p : Piece ι} (h : Follow pos ((p :: ps).map (Piece.extent place)) stop) :
    (⟨(place p.first.id).toNat, piecesSize (p :: ps)⟩ : Extent) = ⟨pos, stop - pos⟩ := by
  have hstart : (place p.first.id).toNat = pos := h.1
  rw [stop_eq_of_follow h, Nat.add_sub_cancel_left, hstart]

/-- Where the pieces of a scope follow each other, its span is all of them. -/
theorem Scope.span_eq {s : Scope ι} (h : Follow pos (s.pieces.map (Piece.extent place)) stop) :
    s.span place = ⟨pos, stop - pos⟩ := by
  cases s
  exact extent_eq_of_follow h

theorem Expr.span_eq {e : Expr ι} (h : Follow pos (e.pieces.map (Piece.extent place)) stop) :
    e.span place = ⟨pos, stop - pos⟩ := by
  cases e
  exact extent_eq_of_follow h

/-- What stands side by side in a list of pieces fills one extent. -/
theorem exists_follow_of_isInfix {qs : List (Piece ι)} (h : Follow pos (ps.map (Piece.extent place)) stop)
    (hin : qs <:+: ps) : ∃ pos' stop', Follow pos' (qs.map (Piece.extent place)) stop' := by
  obtain ⟨front, back, rfl⟩ := hin
  rw [List.map_append, List.map_append, follow_append] at h
  obtain ⟨stop', h, -⟩ := h
  obtain ⟨pos', -, h⟩ := follow_append.mp h
  exact ⟨pos', stop', h⟩

/-- The extent from a position to another one, where something follows. -/
theorem filledBy_of_follow (h : Follow pos (ps.map (Piece.extent place)) stop) :
    Extent.FilledBy place ⟨pos, stop - pos⟩ ps := by
  have hstop : pos + (stop - pos) = stop := Nat.add_sub_cancel' h.le
  change Follow pos _ (pos + (stop - pos))
  rw [hstop]
  exact h

end

/-! ### Nested or apart -/

namespace Extent

def Nested (e e' : Extent) : Prop := e.Within e' ∨ e'.Within e ∨ e.Apart e'

theorem Nested.symm {e e' : Extent} (h : e.Nested e') : e'.Nested e := by
  rcases h with h | h | h
  · exact .inr (.inl h)
  · exact .inl h
  · exact .inr (.inr h.symm)

instance : Std.Symm Nested := ⟨fun _ _ h => h.symm⟩

theorem Nested.refl (e : Extent) : e.Nested e := .inl ⟨Nat.le_refl _, Nat.le_refl _⟩

end Extent

structure Nest (pos stop : Nat) (es : List Extent) : Prop where
  inside : ∀ e ∈ es, pos ≤ e.start ∧ e.stop ≤ stop
  nested : es.Pairwise Extent.Nested

namespace Nest

variable {pos mid stop : Nat} {es es' : List Extent}

theorem nil (pos stop : Nat) : Nest pos stop [] := ⟨fun _ h => (List.not_mem_nil h).elim, List.Pairwise.nil⟩

theorem mono {pos' stop' : Nat} (h : Nest pos stop es) (hpos : pos' ≤ pos) (hstop : stop ≤ stop') :
    Nest pos' stop' es := by
  refine ⟨fun e he => ?_, h.nested⟩
  obtain ⟨hle, hle'⟩ := h.inside e he
  exact ⟨Nat.le_trans hpos hle, Nat.le_trans hle' hstop⟩

/-- What comes in front of a position is apart from what comes behind it. -/
theorem append (h : Nest pos mid es) (h' : Nest mid stop es') (hpos : pos ≤ mid) (hstop : mid ≤ stop) :
    Nest pos stop (es ++ es') := by
  constructor
  · intro e he
    rcases List.mem_append.mp he with he | he
    · exact (h.mono (Nat.le_refl _) hstop).inside e he
    · exact (h'.mono hpos (Nat.le_refl _)).inside e he
  · refine List.pairwise_append.mpr ⟨h.nested, h'.nested, fun e he e' he' => .inr (.inr (.inl ?_))⟩
    exact Nat.le_trans (h.inside e he).2 (h'.inside e' he').1

/-- The extent of all positions contains every other one. -/
theorem cons (h : Nest pos stop es) (hstop : pos ≤ stop) : Nest pos stop (⟨pos, stop - pos⟩ :: es) := by
  have hend : Extent.stop ⟨pos, stop - pos⟩ = stop := Nat.add_sub_cancel' hstop
  constructor
  · exact List.forall_mem_cons.mpr ⟨⟨Nat.le_refl _, Nat.le_of_eq hend⟩, h.inside⟩
  · refine List.Pairwise.cons (fun e he => .inr (.inl ?_)) h.nested
    rw [Extent.Within, hend]
    exact h.inside e he

/-- Nesting does not depend on the order. -/
theorem perm (h : Nest pos stop es) (hperm : es.Perm es') : Nest pos stop es' :=
  ⟨fun e he => h.inside e (hperm.mem_iff.mpr he), hperm.pairwise h.nested fun hab => hab.symm⟩

/-- Each two of the extents, whichever comes first. -/
theorem nested_of_mem (h : Nest pos stop es) : ∀ e ∈ es, ∀ e' ∈ es, e.Nested e' := fun _ he _ he' =>
  List.Pairwise.forall_of_forall (fun e _ => Extent.Nested.refl e) h.nested he he'

end Nest

section

variable {place : ι → Offset} {pos stop : Nat}

mutual

/-- The spans of the nodes of an expression nest inside it. -/
theorem Expr.nest {pos stop : Nat} (e : Expr ι) (h : Follow pos (e.pieces.map (Piece.extent place)) stop) :
    Nest pos stop (e.allExprs.map (Expr.span place)) := by
  match e with
  | .node head children =>
    have hspan := Expr.span_eq h
    have hle := h.le
    rw [Expr.pieces, ← List.cons_append, List.map_append, follow_append] at h
    obtain ⟨mid, hfront, hchildren⟩ := h
    have hbelow := (Slots.nest children hchildren).mono hfront.le (Nat.le_refl _)
    rw [Expr.allExprs, List.map_cons, hspan]
    exact hbelow.cons hle

theorem Slots.nest {pos stop n : Nat} (s : Slots ι n)
    (h : Follow pos (s.pieces.map (Piece.extent place)) stop) :
    Nest pos stop (s.allExprs.map (Expr.span place)) := by
  match s with
  | .nil => exact Nest.nil pos stop
  | .empty slots => exact Slots.nest slots h
  | .full child slots =>
    rw [Slots.pieces, List.map_append, follow_append] at h
    obtain ⟨mid, hchild, hslots⟩ := h
    rw [Slots.allExprs, List.map_append]
    exact (Expr.nest child hchild).append (Slots.nest slots hslots) hchild.le hslots.le

end

theorem nest_exprs {exprs : List (Expr ι)}
    (h : Follow pos ((exprs.flatMap Expr.pieces).map (Piece.extent place)) stop) :
    Nest pos stop ((exprs.flatMap Expr.allExprs).map (Expr.span place)) := by
  induction exprs generalizing pos with
  | nil => exact Nest.nil pos stop
  | cons e exprs ih =>
    rw [List.flatMap_cons, List.map_append, follow_append] at h
    obtain ⟨mid, hfirst, hothers⟩ := h
    rw [List.flatMap_cons, List.map_append]
    exact (e.nest hfirst).append (ih hothers) hfirst.le hothers.le

mutual

/-- The spans below a scope nest inside it: those of two statements are apart, and those of one
statement nest by induction. -/
theorem Scope.nest {pos stop : Nat} (s : Scope ι) (h : Follow pos (s.pieces.map (Piece.extent place)) stop) :
    Nest pos stop (s.span place :: s.allStmts.flatMap (Stmt.ownSpans place)) := by
  match s with
  | ⟨id, locals, stmts⟩ =>
    have hspan := Scope.span_eq h
    have hle := h.le
    rw [Scope.pieces, ← List.cons_append, List.map_append, follow_append] at h
    obtain ⟨mid, hfront, hstmts⟩ := h
    have hbelow := (stmtList_nest stmts hstmts).mono hfront.le (Nat.le_refl _)
    rw [hspan, Scope.allStmts_mk]
    exact hbelow.cons hle

/-- The nested scope and the expressions of a statement have spans apart from each other, with
nested spans inside. -/
theorem Stmt.nest {pos stop : Nat} (s : Stmt ι) (h : Follow pos (s.pieces.map (Piece.extent place)) stop) :
    Nest pos stop (s.allStmts.flatMap (Stmt.ownSpans place)) := by
  match s with
  | ⟨head, scope, exprs⟩ =>
    rw [Stmt.pieces, List.append_assoc, List.map_append, List.map_append, follow_append] at h
    obtain ⟨behind, h, hlast⟩ := h
    obtain ⟨mid, hnested, hexprs⟩ := follow_append.mp h
    have hboth := (nested_nest scope hnested).append (nest_exprs hexprs) hnested.le hexprs.le
    rw [Stmt.allStmts_mk, List.flatMap_cons, Stmt.ownSpans, List.append_assoc]
    -- The expressions stand behind what is nested, but are listed in front of the nested statements.
    have hcomm : ((nestedAllStmts scope).flatMap (Stmt.ownSpans place)
        ++ (exprs.flatMap Expr.allExprs).map (Expr.span place)).Perm _ := List.perm_append_comm
    have hperm := hcomm.append_left (scope.toList.map (Scope.span place))
    rw [← List.append_assoc] at hperm
    exact (hboth.perm hperm).mono (Nat.le_refl _) hlast.le

theorem stmtList_nest {pos stop : Nat} (ss : List (Stmt ι))
    (h : Follow pos ((stmtListPieces ss).map (Piece.extent place)) stop) :
    Nest pos stop ((stmtListAllStmts ss).flatMap (Stmt.ownSpans place)) := by
  match ss with
  | [] => exact Nest.nil pos stop
  | s :: ss =>
    rw [stmtListPieces, List.map_append, follow_append] at h
    obtain ⟨mid, hfirst, hothers⟩ := h
    rw [stmtListAllStmts_cons, List.flatMap_append]
    exact (Stmt.nest s hfirst).append (stmtList_nest ss hothers) hfirst.le hothers.le

theorem nested_nest {pos stop : Nat} (s : Option (Scope ι))
    (h : Follow pos ((nestedPieces s).map (Piece.extent place)) stop) :
    Nest pos stop (s.toList.map (Scope.span place)
      ++ (nestedAllStmts s).flatMap (Stmt.ownSpans place)) := by
  match s with
  | none => exact Nest.nil pos stop
  | some s => exact Scope.nest s h

end

/-- The extents of two scopes, of two expressions or of a scope and an expression are nested or apart. -/
theorem Function.nested {f : Function ι} (h : Follow pos (f.pieces.map (Piece.extent place)) stop) :
    ∀ e ∈ f.spans place, ∀ e' ∈ f.spans place, e.Nested e' := by
  rw [Function.pieces, List.map_append, follow_append] at h
  obtain ⟨mid, hscope, -⟩ := h
  exact ((f.scope.nest hscope).perm (f.spans_perm place)).nested_of_mem

/-- What the statements of an array own follows each other. -/
theorem follow_stmtList {ss : List (Stmt ι)}
    (h : Follow pos ((stmtListPieces ss).map (Piece.extent place)) stop) :
    ∃ es, List.Forall₂ (fun e s => e.FilledBy place s.pieces) es ss ∧ Follow pos es stop := by
  induction ss generalizing pos with
  | nil => exact ⟨[], List.Forall₂.nil, h⟩
  | cons s ss ih =>
    rw [stmtListPieces, List.map_append, follow_append] at h
    obtain ⟨mid, hfirst, hothers⟩ := h
    obtain ⟨es, hfilled, hfollow⟩ := ih hothers
    have hend : Extent.stop ⟨pos, mid - pos⟩ = mid := Nat.add_sub_cancel' hfirst.le
    refine ⟨⟨pos, mid - pos⟩ :: es, hfilled.cons (filledBy_of_follow hfirst), rfl, ?_⟩
    rw [hend]
    exact hfollow

end

/-! ### A tree in preorder -/

/-- A packed function is a tree in preorder: parents come first and subtrees stay together. -/
structure Packed.PreOrdered (p : Packed) (place : ι → Offset) (f : Function ι) : Prop where
  /-- Each node stands in the block, with offsets as its pointers. -/
  held : ∀ c ∈ cellsOf f.pieces, p.block.Holds (place c.id) (c.val.map place)
  forward : ∀ c ∈ cellsOf f.pieces, ∀ q ∈ c.val.owned,
    (place q).toNat % alignment = 0 ∧ (place c.id).toNat < (place q).toNat
  scopes : ∀ s ∈ f.scopes, (s.span place).FilledBy place s.pieces
  exprs : ∀ e ∈ f.exprs, (e.span place).FilledBy place e.pieces
  nested : ∀ e ∈ f.spans place, ∀ e' ∈ f.spans place, e.Nested e'
  /-- What the statements of an array own fills extents that follow each other up to the end of the scope. -/
  stmts : ∀ s ∈ f.scopes, ∃ pos es, List.Forall₂ (fun e t => e.FilledBy place t.pieces) es s.stmts
    ∧ Follow pos es (s.span place).stop

/-- A block in which the pieces of its tree follow each other without a gap is in pre-order.
Parents come first as the planner reserves them first, and what is below a node is a contiguous
run of the pieces. -/
theorem Packed.Relocates.preOrdered {p : Packed} {place : ι → Offset} {f : Function ι}
    (h : p.Relocates place f) (hfollow : Follow 0 (f.pieces.map (Piece.extent place)) p.block.size) :
    p.PreOrdered place f := by
  -- The pieces below a node stand together in the tree, so their extents follow each other.
  have hscope : ∀ s ∈ f.scopes, (s.span place).FilledBy place s.pieces := by
    intro s hs
    obtain ⟨pos, stop, hpieces⟩ := exists_follow_of_isInfix hfollow (f.scopePieces_isInfix s hs)
    rw [Scope.span_eq hpieces]
    exact filledBy_of_follow hpieces
  constructor
  case held =>
    intro c hc
    obtain ⟨piece, hpiece, hc⟩ := List.mem_flatMap.mp hc
    exact (h.held piece hpiece).held c hc
  case forward =>
    intro c hc q hq
    have haligned := aligned_of_held h.held f.padded q (f.forward.mem c hc q hq)
    exact ⟨haligned, f.forward.lt h.held f.uniform hfollow c hc q hq⟩
  case scopes => exact hscope
  case exprs =>
    intro e he
    obtain ⟨pos, stop, hpieces⟩ := exists_follow_of_isInfix hfollow (f.exprPieces_isInfix e he)
    rw [Expr.span_eq hpieces]
    exact filledBy_of_follow hpieces
  case nested => exact Function.nested hfollow
  case stmts =>
    intro s hs
    have hfilled := hscope s hs
    cases s with
    | mk id locals stmts =>
      rw [Extent.FilledBy, Scope.pieces, ← List.cons_append, List.map_append, follow_append] at hfilled
      obtain ⟨mid, -, hstmts⟩ := hfilled
      exact ⟨mid, follow_stmtList hstmts⟩

variable [DecidableEq ι] [Hashable ι]

/-- When a function that can be planned is compacted, what is read off its block is a tree in preorder. -/
theorem Decl.compact_preOrdered {options : Options} {allocator : Allocator ι} {f : Function ι} {d : Decl ι}
    {size : Nat} {cx : Context ι} {block : Block} (hbody : d.body = some (.tree f))
    (hplan : Context.plan f Context.empty = .ok size cx) (hlimit : size ≤ options.maxBlockBytes)
    (halloc : allocator size = .ok block) (hsize : block.size = size) :
    ∃ stats p, compact options allocator d = (.ok (.compacted stats), { d with body := some (.packed p) })
      ∧ p.read = .ok (f.stored cx.ledger.offset) ∧ p.PreOrdered id (f.stored cx.ledger.offset) := by
  obtain ⟨stop, hrun, hcompact⟩ := compactTree_of_plan hplan hlimit halloc hsize
  have hplanned := Context.plan_run hplan
  have hrelocates := hplanned.relocates hsize hrun
  have hfollow := hplanned.follow (hsize ▸ block.size_lt_range)
  rw [← f.extents_stored, ← hsize, ← hrun.size] at hfollow
  exact ⟨stop.stats, _, compact_of_tree hbody hcompact, hrelocates.read hplanned.wellFormed,
    hrelocates.stored.preOrdered hfollow⟩

/-- A break in a loop. -/
theorem compact_preOrdered_breakInLoop :
    ∃ size cx block, breakInLoopDecl.body = some (.tree breakInLoop)
      ∧ Context.plan breakInLoop Context.empty = .ok size cx ∧ size ≤ Options.standard.maxBlockBytes
      ∧ (Allocator.heap : Allocator Nat) size = .ok block ∧ block.size = size
      ∧ ∃ stats p, Decl.compact Options.standard Allocator.heap breakInLoopDecl
          = (.ok (.compacted stats), { breakInLoopDecl with body := some (.packed p) })
        ∧ p.read = .ok (breakInLoop.stored cx.ledger.offset)
        ∧ p.PreOrdered id (breakInLoop.stored cx.ledger.offset) := by
  obtain ⟨size, cx, hplan, hmax⟩ := exists_plan_breakInLoop Context.empty
  obtain ⟨block, hheap, hsize⟩ := Allocator.heap_ok (ι := Nat) hmax
  have hlimit := Options.le_standard hmax
  exact ⟨size, cx, block, rfl, hplan, hlimit, hheap, hsize,
    Decl.compact_preOrdered rfl hplan hlimit hheap hsize⟩

end TreePack
