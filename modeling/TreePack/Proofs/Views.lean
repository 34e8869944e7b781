import TreePack.Proofs.Plannable
import TreePack.Proofs.Records
import TreePack.Proofs.Relocation

namespace TreePack

variable {ι : Type}

/-! ### Showing a tree -/

structure DeclView.Shows (place : ι → Offset) (v : DeclView) (l : Local ι) : Prop where
  offset : v.offset = place l.id
  name : v.name = .ok l.name.val
  ty : v.ty = .ok l.ty

structure ExprView.ShowsHead (place : ι → Offset) (v : ExprView) (head : ExprHead ι) : Prop where
  offset : v.offset = place head.id
  kind : v.kind = .ok head.kind
  value : v.value = .ok head.value
  ty : v.ty = .ok head.ty
  symbol : v.symbol = .ok (head.symbol.map (·.val))
  method : v.method = .ok (head.method.map (·.val))

structure StmtView.ShowsHead (place : ι → Offset) (v : StmtView) (head : StmtHead ι) : Prop where
  offset : v.offset = place head.id
  kind : v.kind = .ok head.kind
  loc : v.loc = .ok (storedLoc head.loc)
  loop : v.loop = .ok (head.loop.map fun target => ⟨v.block, place target⟩)
  label : v.label = .ok (head.label.map (·.val))
  switch : v.switch = .ok (head.switch.map (·.val))

mutual

def Expr.ShownBy (place : ι → Offset) (v : ExprView) : Expr ι → Prop
  | .node head children => v.ShowsHead place head ∧ children.ShownBy place v 0

def Slots.ShownBy (place : ι → Offset) (v : ExprView) (slot : Nat) : {n : Nat} → Slots ι n → Prop
  | _, .nil => True
  | _, .empty slots => v.child slot = .ok none ∧ slots.ShownBy place v (slot + 1)
  | _, .full child slots =>
    (∃ w, v.child slot = .ok (some w) ∧ child.ShownBy place w) ∧ slots.ShownBy place v (slot + 1)

end

def localListShownBy (place : ι → Offset) (v : ScopeView) (i : Nat) : List (Local ι) → Prop
  | [] => ∀ j, i ≤ j → v.local? j = .ok none
  | l :: ls =>
    (∃ w, v.local? i = .ok (some w) ∧ w.Shows place l) ∧ localListShownBy place v (i + 1) ls

mutual

def Scope.ShownBy (place : ι → Offset) (v : ScopeView) : Scope ι → Prop
  | ⟨id, locals, stmts⟩ =>
    v.offset = place id ∧ localListShownBy place v 0 locals ∧ stmtListShownBy place v 0 stmts

def Stmt.ShownBy (place : ι → Offset) (v : StmtView) : Stmt ι → Prop
  | ⟨head, scope, exprs⟩ =>
    v.ShowsHead place head ∧ nestedShownBy place v scope
      ∧ ∃ views, v.exprs = .ok views ∧ List.Forall₂ (Expr.ShownBy place) views exprs

def stmtListShownBy (place : ι → Offset) (v : ScopeView) (i : Nat) : List (Stmt ι) → Prop
  | [] => ∀ j, i ≤ j → v.stmt? j = .ok none
  | s :: ss =>
    (∃ w, v.stmt? i = .ok (some w) ∧ s.ShownBy place w) ∧ stmtListShownBy place v (i + 1) ss

def nestedShownBy (place : ι → Offset) (v : StmtView) : Option (Scope ι) → Prop
  | none => v.scope = .ok none
  | some s => ∃ w, v.scope = .ok (some w) ∧ s.ShownBy place w

end

/-- The views of a packed function show a function: each node at its own offset, every loop reference at the
offset of the statement that it names, and the argument types. -/
structure Packed.Shows (p : Packed) (place : ι → Offset) (f : Function ι) : Prop where
  scope : f.scope.ShownBy place p.root
  args : p.args = f.args.map fun t => place t.id
  argTypes : p.argTypes = .ok (f.args.map (·.val))
  apart : ((idsOf f.pieces).map place).Nodup
  loops : ∀ s ∈ f.scope.allStmts, ∀ target ∈ s.head.loop, ∃ t ∈ f.scope.allStmts, t.id = target

/-! ### What a held record answers -/

section

variable {b : Block} {place : ι → Offset}

/-- The view of a declaration shows its name and type. -/
theorem DeclView.shows_of_held {l : Local ι} (h : l.HeldIn b place) :
    DeclView.Shows place ⟨b, place l.id⟩ l := by
  obtain ⟨argCount, hread⟩ := h.record
  have hrecord : DeclView.record ⟨b, place l.id⟩ = .ok (l.recordAt place argCount) := hread
  refine ⟨rfl, ?_, ?_⟩
  · rw [DeclView.name, hrecord]
    exact readText_of_held h.name
  · rw [DeclView.ty, hrecord]
    rfl

/-- A text field is shown if the text is held. -/
theorem readText_map_of_held {t : Option (Leaf ι Text)} (h : ∀ u ∈ t, (textPiece u).HeldIn b place) :
    (match t.map fun u => place u.id with
      | some o => return some (← b.readText o)
      | none => return none : Except Fault (Option Text)) = .ok (t.map (·.val)) := by
  cases t with
  | none => rfl
  | some t =>
    have hread := readText_of_held (h t rfl)
    simp only [Option.map_some, hread]
    rfl

theorem ExprView.showsHead_of_held {e : Expr ι}
    (hread : Stored.readAt b (place e.id) = .ok (e.recordAt place))
    (hsymbol : ∀ t ∈ e.head.symbol, (textPiece t).HeldIn b place)
    (hmethod : ∀ t ∈ e.head.method, (textPiece t).HeldIn b place) :
    ExprView.ShowsHead place ⟨b, place e.id⟩ e.head := by
  have hrecord : ExprView.record ⟨b, place e.id⟩ = .ok (e.recordAt place) := hread
  refine ⟨rfl, ?_, ?_, ?_, ?_, ?_⟩
  · rw [ExprView.kind, hrecord]
    exact congrArg Except.ok (e.exprKind_recordAt place)
  · rw [ExprView.value, hrecord]
    rfl
  · rw [ExprView.ty, hrecord]
    rfl
  · rw [ExprView.symbol, hrecord]
    exact readText_map_of_held hsymbol
  · rw [ExprView.method, hrecord]
    exact readText_map_of_held hmethod

/-- The child pointers of an expression, slot by slot. -/
theorem ExprView.child_of_held {e : Expr ι}
    (hread : Stored.readAt b (place e.id) = .ok (e.recordAt place)) (slot : Nat) :
    ExprView.child ⟨b, place e.id⟩ slot
      = .ok (((List.ofFn e.children.get)[slot]?.join).map fun c => ⟨b, place c.id⟩) := by
  have hrecord : ExprView.record ⟨b, place e.id⟩ = .ok (e.recordAt place) := hread
  have hslot : (e.recordAt place).children[slot]?.join
      = (List.ofFn e.children.get)[slot]?.join.map fun c => place c.id := by
    rw [Expr.recordAt, List.getElem?_ofFn]
    by_cases hlt : slot < maxChildren
    · simp [hlt]
    · simp [hlt]
  rw [ExprView.child, hrecord]
  change Except.ok (Option.map _ _) = _
  rw [hslot, Option.map_map]
  rfl

/-- A loop reference is followed by a view at the offset of the statement that it names. -/
theorem StmtView.loop_of_held {s : Stmt ι}
    (hread : Stored.readAt b (place s.id) = .ok (s.recordAt place)) :
    StmtView.loop ⟨b, place s.id⟩ = .ok (s.head.loop.map fun target => ⟨b, place target⟩) := by
  have hrecord : StmtView.record ⟨b, place s.id⟩ = .ok (s.recordAt place) := hread
  rw [StmtView.loop, hrecord]
  change Except.ok ((s.head.loop.map place).map _) = _
  rw [Option.map_map]
  rfl

theorem StmtView.kind_of_held {s : Stmt ι}
    (hread : Stored.readAt b (place s.id) = .ok (s.recordAt place)) :
    StmtView.kind ⟨b, place s.id⟩ = .ok s.head.kind := by
  have hrecord : StmtView.record ⟨b, place s.id⟩ = .ok (s.recordAt place) := hread
  rw [StmtView.kind, hrecord]
  exact congrArg Except.ok (s.stmtKind_recordAt place)

/-- The view of a statement shows its location as it is stored. -/
theorem StmtView.loc_of_held {s : Stmt ι}
    (hread : Stored.readAt b (place s.id) = .ok (s.recordAt place)) :
    StmtView.loc ⟨b, place s.id⟩ = .ok (storedLoc s.head.loc) := by
  have hrecord : StmtView.record ⟨b, place s.id⟩ = .ok (s.recordAt place) := hread
  rw [StmtView.loc, hrecord]
  exact congrArg Except.ok (s.sourceLoc_recordAt place)

/-- The view of a statement shows its head, with the loop target as an offset. -/
theorem StmtView.showsHead_of_held {s : Stmt ι}
    (hread : Stored.readAt b (place s.id) = .ok (s.recordAt place))
    (hlabel : ∀ t ∈ s.head.label, (textPiece t).HeldIn b place)
    (hrow : InRow place (Stored.size UInt64) (s.head.switch.map (·.id)))
    (hswitch : ∀ n ∈ s.head.switch, Stored.readAt b (place n.id) = .ok n.val) :
    StmtView.ShowsHead place ⟨b, place s.id⟩ s.head := by
  have hrecord : StmtView.record ⟨b, place s.id⟩ = .ok (s.recordAt place) := hread
  refine ⟨rfl, StmtView.kind_of_held hread, StmtView.loc_of_held hread, StmtView.loop_of_held hread, ?_, ?_⟩
  · rw [StmtView.label, hrecord]
    exact readText_map_of_held hlabel
  · rw [StmtView.switch, hrecord]
    change (s.recordAt place).switchPlaces.collect (Stored.readAt b) = _
    rw [(lists_switchPlaces hrow hswitch).collect, mapM_map_eq_ok hswitch]

/-- The element at an index of listed places, none behind the last. -/
theorem Places.Lists.element {p : Places} {os : List Offset} (h : p.Lists os) {β : Type}
    (view : Offset → β) (i : Nat) :
    (if i < p.count then return some (view (← p.get i)) else return none : Except Fault (Option β))
      = .ok ((os[i]?).map view) := by
  rw [h.count]
  by_cases hi : i < os.length
  · have hget := h.get i os[i] (List.getElem?_eq_getElem hi)
    rw [if_pos hi, hget, List.getElem?_eq_getElem hi]
    rfl
  · rw [if_neg hi, List.getElem?_eq_none (Nat.le_of_not_lt hi)]
    rfl

/-- A scope view counts its declarations from zero and has none past the last. -/
theorem ScopeView.local?_of_held {s : Scope ι}
    (hread : Stored.readAt b (place s.id) = .ok (s.recordAt place))
    (hrow : InRow place (Stored.size (DeclRecord Offset)) (s.locals.map (·.id)))
    (hlocals : ∀ l ∈ s.locals, l.HeldIn b place) (i : Nat) :
    ScopeView.local? ⟨b, place s.id⟩ i = .ok ((s.locals[i]?).map fun l => ⟨b, place l.id⟩) := by
  have hrecord : ScopeView.record ⟨b, place s.id⟩ = .ok (s.recordAt place) := hread
  have h := (lists_localPlaces hrow hlocals).element (fun o => DeclView.mk b o) i
  rw [List.getElem?_map, Option.map_map] at h
  rw [ScopeView.local?, ScopeView.locals, hrecord]
  exact h

/-- A scope view counts its statements from zero and has none past the last. -/
theorem ScopeView.stmt?_of_held {s : Scope ι}
    (hread : Stored.readAt b (place s.id) = .ok (s.recordAt place))
    (hrow : InRow place (Stored.size (StmtRecord Offset)) (s.stmts.map (·.id)))
    (hstmts : ∀ t ∈ s.stmts, Stored.readAt b (place t.id) = .ok (t.recordAt place)) (i : Nat) :
    ScopeView.stmt? ⟨b, place s.id⟩ i = .ok ((s.stmts[i]?).map fun t => ⟨b, place t.id⟩) := by
  have hrecord : ScopeView.record ⟨b, place s.id⟩ = .ok (s.recordAt place) := hread
  have h := (lists_stmtPlaces hrow hstmts).element (fun o => StmtView.mk b o) i
  rw [List.getElem?_map, Option.map_map] at h
  rw [ScopeView.stmt?, ScopeView.stmts, hrecord]
  exact h

theorem StmtView.scope_of_held {s : Stmt ι}
    (hread : Stored.readAt b (place s.id) = .ok (s.recordAt place)) :
    StmtView.scope ⟨b, place s.id⟩ = .ok (s.scope.map fun t => ⟨b, place t.id⟩) := by
  have hrecord : StmtView.record ⟨b, place s.id⟩ = .ok (s.recordAt place) := hread
  rw [StmtView.scope, hrecord]
  change Except.ok ((s.scope.map fun t => place t.id).map _) = _
  rw [Option.map_map]
  rfl

/-- A statement view lists the expressions, in order. -/
theorem StmtView.exprs_of_held {s : Stmt ι}
    (hread : Stored.readAt b (place s.id) = .ok (s.recordAt place)) (hfew : s.exprs.length ≤ maxExprs) :
    StmtView.exprs ⟨b, place s.id⟩ = .ok (s.exprs.map fun e => ⟨b, place e.id⟩) := by
  have hrecord : StmtView.record ⟨b, place s.id⟩ = .ok (s.recordAt place) := hread
  rw [StmtView.exprs, hrecord]
  change Except.ok ((s.recordAt place).exprOffsets.map _) = _
  rw [s.exprOffsets_recordAt place hfew, List.map_map]
  rfl

/-! ### A held tree is shown -/

/-- Answers from an index on are answers from the next index on, without the first. -/
theorem answers_tail {α : Type} {f g : Nat → α} {k : Nat} (h : ∀ i, f (k + i) = g i) (i : Nat) :
    f (k + 1 + i) = g (i + 1) := by
  have hnext := h (i + 1)
  rw [← Nat.add_assoc, Nat.add_right_comm] at hnext
  exact hnext

mutual

/-- An expression that is held is shown by its view, slot by slot. -/
theorem Expr.shownBy_of_held (e : Expr ι) (h : Held b place e.pieces) :
    e.ShownBy place ⟨b, place e.id⟩ := by
  match e with
  | .node head children =>
    obtain ⟨⟨-, hread⟩, hsymbol, hmethod, hchildren⟩ := (Expr.held_iff head children).mp h
    have hread' : Stored.readAt b (place (Expr.node head children).id)
        = .ok ((Expr.node head children).recordAt place) := hread
    refine ⟨ExprView.showsHead_of_held hread' hsymbol hmethod,
      Slots.shownBy_of_held _ 0 children hchildren fun i => ?_⟩
    rw [Nat.zero_add]
    exact ExprView.child_of_held hread' i

theorem Slots.shownBy_of_held (v : ExprView) (slot : Nat) {n : Nat} (s : Slots ι n)
    (h : Held b place s.pieces)
    (hchild : ∀ i, v.child (slot + i)
      = .ok (((List.ofFn s.get)[i]?.join).map fun c => ⟨b, place c.id⟩)) : s.ShownBy place v slot := by
  match s with
  | .nil => trivial
  | .empty slots =>
    rw [List.ofFn_succ] at hchild
    exact ⟨hchild 0, Slots.shownBy_of_held v (slot + 1) slots h (answers_tail hchild)⟩
  | .full child slots =>
    obtain ⟨hheld, hslots⟩ := (held_append child.pieces slots.pieces).mp h
    rw [List.ofFn_succ] at hchild
    exact ⟨⟨⟨b, place child.id⟩, hchild 0, Expr.shownBy_of_held child hheld⟩,
      Slots.shownBy_of_held v (slot + 1) slots hslots (answers_tail hchild)⟩

end

theorem localListShownBy_of_held (v : ScopeView) (i : Nat) (ls : List (Local ι))
    (h : ∀ l ∈ ls, l.HeldIn b place)
    (hview : ∀ j, v.local? (i + j) = .ok ((ls[j]?).map fun l => ⟨b, place l.id⟩)) :
    localListShownBy place v i ls := by
  induction ls generalizing i with
  | nil =>
    intro j hj
    have hnone := hview (j - i)
    rw [Nat.add_sub_cancel' hj] at hnone
    exact hnone
  | cons l ls ih =>
    exact ⟨⟨⟨b, place l.id⟩, hview 0, DeclView.shows_of_held (h l List.mem_cons_self)⟩,
      ih (i + 1) (fun m hm => h m (List.mem_cons_of_mem _ hm)) (answers_tail hview)⟩

theorem exprList_shownBy_of_held (exprs : List (Expr ι)) (h : ∀ e ∈ exprs, Held b place e.pieces) :
    List.Forall₂ (Expr.ShownBy place) (exprs.map fun e => ⟨b, place e.id⟩) exprs := by
  induction exprs with
  | nil => exact .nil
  | cons e exprs ih =>
    exact .cons (e.shownBy_of_held (h e List.mem_cons_self))
      (ih fun e' he' => h e' (List.mem_cons_of_mem _ he'))

mutual

/-- A scope that is held is shown by its view, position by position. The induction follows the
tree, and each list is shown from some index of its view on. -/
theorem Scope.shownBy_of_held (s : Scope ι) (h : Held b place s.pieces)
    (hfew : ∀ t ∈ s.allStmts, t.exprs.length ≤ maxExprs) : s.ShownBy place ⟨b, place s.id⟩ := by
  match s with
  | ⟨id, locals, stmts⟩ =>
    obtain ⟨⟨-, hread⟩, ⟨hlocalRow, hlocals⟩, ⟨hstmtRow, hstmts⟩, hbelow⟩ :=
      (Scope.held_iff id locals stmts).mp h
    let s : Scope ι := ⟨id, locals, stmts⟩
    have hread' : Stored.readAt b (place s.id) = .ok (s.recordAt place) := hread
    refine ⟨rfl, ?_, ?_⟩
    · apply localListShownBy_of_held _ 0 locals hlocals
      intro j
      rw [Nat.zero_add]
      exact ScopeView.local?_of_held (s := s) hread' hlocalRow hlocals j
    · refine stmtList_shownBy_of_held _ 0 stmts hstmts hbelow hfew fun j => ?_
      rw [Nat.zero_add]
      exact ScopeView.stmt?_of_held (s := s) hread' hstmtRow hstmts j

/-- A statement that is held is shown by its view. -/
theorem Stmt.shownBy_of_held (s : Stmt ι)
    (hread : Stored.readAt b (place s.id) = .ok (s.recordAt place)) (h : Held b place s.pieces)
    (hfew : ∀ t ∈ s.allStmts, t.exprs.length ≤ maxExprs) : s.ShownBy place ⟨b, place s.id⟩ := by
  match s with
  | ⟨head, scope, exprs⟩ =>
    obtain ⟨hnested, hexprs, hlabel, hrow, hswitch⟩ := (Stmt.held_iff head scope exprs).mp h
    let s : Stmt ι := ⟨head, scope, exprs⟩
    have hself : s.exprs.length ≤ maxExprs := hfew s s.mem_allStmts_self
    refine ⟨StmtView.showsHead_of_held (s := s) hread hlabel hrow hswitch, ?_,
      s.exprs.map fun e => ⟨b, place e.id⟩, StmtView.exprs_of_held (s := s) hread hself,
      exprList_shownBy_of_held exprs hexprs⟩
    exact nested_shownBy_of_held _ scope hnested (fun t ht => hfew t (List.mem_cons_of_mem _ ht))
      (StmtView.scope_of_held (s := s) hread)

theorem stmtList_shownBy_of_held (v : ScopeView) (i : Nat) (ss : List (Stmt ι))
    (hread : ∀ s ∈ ss, Stored.readAt b (place s.id) = .ok (s.recordAt place))
    (h : Held b place (stmtListPieces ss)) (hfew : ∀ t ∈ stmtListAllStmts ss, t.exprs.length ≤ maxExprs)
    (hview : ∀ j, v.stmt? (i + j) = .ok ((ss[j]?).map fun s => ⟨b, place s.id⟩)) :
    stmtListShownBy place v i ss := by
  match ss with
  | [] =>
    intro j hj
    have hnone := hview (j - i)
    rw [Nat.add_sub_cancel' hj] at hnone
    exact hnone
  | s :: ss =>
    obtain ⟨hfirst, hrest⟩ := (held_append s.pieces (stmtListPieces ss)).mp h
    rw [stmtListAllStmts_cons, List.forall_mem_append] at hfew
    exact ⟨⟨⟨b, place s.id⟩, hview 0,
        Stmt.shownBy_of_held s (hread s List.mem_cons_self) hfirst hfew.1⟩,
      stmtList_shownBy_of_held v (i + 1) ss (fun t ht => hread t (List.mem_cons_of_mem _ ht)) hrest hfew.2
        (answers_tail hview)⟩

theorem nested_shownBy_of_held (v : StmtView) (s : Option (Scope ι)) (h : Held b place (nestedPieces s))
    (hfew : ∀ t ∈ nestedAllStmts s, t.exprs.length ≤ maxExprs)
    (hview : v.scope = .ok (s.map fun t => ⟨b, place t.id⟩)) : nestedShownBy place v s := by
  match s with
  | none => exact hview
  | some s => exact ⟨⟨b, place s.id⟩, hview, Scope.shownBy_of_held s h hfew⟩

end

end

/-- The views of a relocated function show it. -/
theorem Packed.Relocates.shows {p : Packed} {place : ι → Offset} {f : Function ι}
    (h : p.Relocates place f) (hwell : f.WellFormed) : p.Shows place f := by
  obtain ⟨hscope, hargs⟩ := (held_append f.scope.pieces (f.args.map argPiece)).mp h.held
  refine ⟨?_, h.args, ?_, h.nodup, fun s hs target htarget => ?_⟩
  · rw [Packed.root, h.root]
    exact f.scope.shownBy_of_held hscope hwell.fewExprs
  · have hread : ∀ t ∈ f.args, Stored.readAt p.block (place t.id) = .ok t.val := by
      intro t ht
      exact ((held_single t.id (.type t.val)).mp (hargs _ (List.mem_map_of_mem ht))).2
    rw [Packed.argTypes, h.args]
    exact mapM_map_eq_ok hread
  · obtain ⟨t, ht, hid, -⟩ := hwell.loops s hs target htarget
    exact ⟨t, ht, hid⟩

/-- A well-formed function with distinct identities gets a block, if the heap has room for it. -/
theorem Context.exists_allocated [DecidableEq ι] [Hashable ι] {f : Function ι}
    (hids : (idsOf f.pieces).Nodup) (hwell : f.WellFormed) (hmax : piecesSize f.pieces ≤ Block.maxSize)
    (cx : Context ι) :
    ∃ size planned allocated, Context.plan f cx = .ok size planned
      ∧ Context.allocate Allocator.heap planned = .ok () allocated := by
  obtain ⟨size, planned, hplan⟩ := Context.exists_plan hids hwell cx
  have hplanned := Context.plan_run hplan
  rw [← hplanned.size_eq] at hmax
  obtain ⟨allocated, halloc⟩ := Context.exists_allocate hplanned hmax
  exact ⟨size, planned, allocated, hplan, halloc⟩

/-- A function that was planned and for which a block was allocated is written, and the views of what is
written show it, whatever stood in the block. -/
theorem Context.write_shows [DecidableEq ι] [Hashable ι] {f : Function ι} {cx planned allocated : Context ι}
    {size : Nat} {allocator : Allocator ι} (hplan : Context.plan f cx = .ok size planned)
    (halloc : Context.allocate allocator planned = .ok () allocated) :
    ∃ p cx' place, Context.write f allocated = .ok p cx' ∧ p.Shows place f := by
  obtain ⟨hplanned, block, -, hblock, hsize⟩ := Context.allocate_run (Context.plan_run hplan) halloc
  obtain ⟨p, cx', hwrite, hrelocates, -⟩ := Context.write_run hplanned hblock hsize
  exact ⟨p, cx', _, hwrite, hrelocates.shows hplanned.wellFormed⟩

/-- A break in a loop, written and viewed. -/
theorem write_shows_breakInLoop :
    ∃ size planned allocated, Context.plan breakInLoop Context.empty = .ok size planned
      ∧ Context.allocate Allocator.heap planned = .ok () allocated
      ∧ ∃ p cx' place, Context.write breakInLoop allocated = .ok p cx' ∧ p.Shows place breakInLoop := by
  obtain ⟨size, planned, hplan, hmax⟩ := exists_plan_breakInLoop Context.empty
  obtain ⟨block, hheap, hsize⟩ := Allocator.heap_ok (ι := Nat) hmax
  have halloc : Context.allocate Allocator.heap planned = _ :=
    Context.allocate_of_planned (Context.plan_run hplan)
  rw [hheap] at halloc
  simp only [hsize, ↓reduceIte] at halloc
  exact ⟨size, planned, _, hplan, halloc, Context.write_shows hplan halloc⟩

end TreePack
