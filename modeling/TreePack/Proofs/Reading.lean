import TreePack.Packed.Read
import TreePack.Proofs.Heights
import TreePack.Proofs.StoredTrees
import TreePack.Proofs.Views

namespace TreePack

variable {ι : Type} {b : Block} {place : ι → Offset}

section

variable {n : Nat} (read : Offset → Except Fault (Expr Offset)) (f : Expr ι → Offset)

theorem readSlots_empty (slots : Slots ι n) :
    readSlots read (fun i => ((Slots.empty slots).get i).map f) = (do
      let rest ← readSlots read fun i => (slots.get i).map f
      return Slots.empty rest) := rfl

theorem readSlots_full (child : Expr ι) (slots : Slots ι n) :
    readSlots read (fun i => ((Slots.full child slots).get i).map f) = (do
      let first ← some <$> read (f child)
      let rest ← readSlots read fun i => (slots.get i).map f
      return Slots.cons first rest) := rfl

end

/-- A text that is held is read back from its pointer. -/
theorem readTextPtr_of_held {t : Option (Leaf ι Text)} (h : ∀ u ∈ t, (textPiece u).HeldIn b place) :
    b.readTextPtr (t.map fun u => place u.id) = .ok (t.map (Leaf.stored place)) := by
  cases t with
  | none => rfl
  | some t =>
    have hread := readText_of_held (h t rfl)
    simp only [Option.map_some, Block.readTextPtr, hread]
    rfl

/-- A declaration that is held is read back; its argument count is not looked at. -/
theorem Local.read_of_held {l : Local ι} (h : l.HeldIn b place) (hfun : l.isFunction = false) :
    b.readLocal (place l.id) = .ok (l.stored place) := by
  obtain ⟨argCount, hread⟩ := h.record
  have hrecord : DeclView.record ⟨b, place l.id⟩ = .ok (l.recordAt place argCount) := hread
  have hname : b.readTextPtr (l.recordAt place argCount).name = .ok (some (l.name.stored place)) := by
    apply readTextPtr_of_held (t := some l.name)
    intro u hu
    cases hu
    exact h.name
  have hflag : (l.recordAt place argCount).isFunction = l.isFunction := hfun.symm
  simp only [Block.readLocal, hrecord, ok_bind, hname, hflag]
  rfl

mutual

/-- An expression that is held is read back, with enough depth for its height. -/
theorem Expr.read_of_held (e : Expr ι) {depth : Nat} (h : Held b place e.pieces)
    (hheight : e.height ≤ depth) : b.readExpr depth (place e.id) = .ok (e.stored place) := by
  match e, depth with
  | .node head children, 0 => exact absurd hheight (Nat.not_succ_le_zero _)
  | .node head children, depth + 1 =>
    obtain ⟨⟨-, hread⟩, hsymbol, hmethod, hchildren⟩ := (Expr.held_iff head children).mp h
    -- The record of the node is read first, then what each of its pointers leads to.
    let e : Expr ι := .node head children
    have hrecord : ExprView.record ⟨b, place e.id⟩ = .ok (e.recordAt place) := hread
    have hsymbol' : b.readTextPtr (e.recordAt place).symbol = _ := readTextPtr_of_held hsymbol
    have hmethod' : b.readTextPtr (e.recordAt place).method = _ := readTextPtr_of_held hmethod
    have hslots : (fun i : Fin maxChildren => (e.recordAt place).children[i])
        = fun i => (children.get i).map fun c => place c.id := by
      funext i
      exact Vector.getElem_ofFn i.isLt
    have hrest := Slots.read_of_held children hchildren (Nat.le_of_succ_le_succ hheight)
    simp only [Block.readExpr, e, hrecord, ok_bind, hsymbol', hmethod', hslots, hrest]
    rw [Expr.exprKind_recordAt]
    rfl

/-- The slots are read in order; an empty one reads as empty. -/
theorem Slots.read_of_held {n : Nat} (s : Slots ι n) {depth : Nat} (h : Held b place s.pieces)
    (hheight : s.height ≤ depth) :
    readSlots (b.readExpr depth) (fun i => (s.get i).map fun c => place c.id)
      = .ok (s.stored place) := by
  match s with
  | .nil => rfl
  | .empty slots =>
    have hrest := Slots.read_of_held slots h hheight
    rw [readSlots_empty, hrest]
    rfl
  | .full child slots =>
    obtain ⟨hheld, hslots⟩ := (held_append child.pieces slots.pieces).mp h
    have hle := Nat.max_le.mp hheight
    have hfirst := Expr.read_of_held child hheld hle.1
    have hrest := Slots.read_of_held slots hslots hle.2
    rw [readSlots_full, hfirst, hrest]
    rfl

end

mutual

/-- A scope that is held is read back with all that is below it. Texts, types and rows come back
as they are, and identities as the offsets they stand at. -/
theorem Scope.read_of_held (s : Scope ι) {depth : Nat} (h : Held b place s.pieces)
    (hheight : s.height ≤ depth) (hfun : ∀ l ∈ s.allLocals, l.isFunction = false)
    (hfew : ∀ t ∈ s.allStmts, t.exprs.length ≤ maxExprs) :
    b.readScope depth (place s.id) = .ok (s.stored place) := by
  match s, depth with
  | ⟨id, locals, stmts⟩, 0 => exact absurd hheight (Nat.not_succ_le_zero _)
  | ⟨id, locals, stmts⟩, depth + 1 =>
    obtain ⟨⟨-, hread⟩, ⟨hlocalRow, hlocals⟩, ⟨hstmtRow, hstmts⟩, hbelow⟩ :=
      (Scope.held_iff id locals stmts).mp h
    rw [Scope.allLocals, List.forall_mem_append] at hfun
    let s : Scope ι := ⟨id, locals, stmts⟩
    have hrecord : ScopeView.record ⟨b, place s.id⟩ = .ok (s.recordAt place) := hread
    -- Each row is read place by place, one level further down.
    have hlocals' : (s.recordAt place).localPlaces.collect b.readLocal
        = .ok (locals.map (Local.stored place)) := by
      rw [(lists_localPlaces (s := s) hlocalRow hlocals).collect]
      exact mapM_map_eq_ok fun l hl => Local.read_of_held (hlocals l hl) (hfun.1 l hl)
    have hstmts' : (s.recordAt place).stmtPlaces.collect (b.readStmt depth (b.readScope depth))
        = .ok (stmtListStored place stmts) := by
      rw [(lists_stmtPlaces (s := s) hstmtRow hstmts).collect]
      exact stmtList_read_of_held stmts hstmts hbelow (Nat.le_of_succ_le_succ hheight) hfun.2 hfew
    simp only [Block.readScope, s, hrecord, ok_bind, hlocals', hstmts']
    rfl

/-- A statement is read back from its record, which stands in the row of its scope. -/
theorem Stmt.read_of_held (s : Stmt ι) {depth : Nat}
    (hread : Stored.readAt b (place s.id) = .ok (s.recordAt place)) (h : Held b place s.pieces)
    (hheight : s.height ≤ depth) (hfun : ∀ l ∈ s.allLocals, l.isFunction = false)
    (hfew : ∀ t ∈ s.allStmts, t.exprs.length ≤ maxExprs) :
    b.readStmt depth (b.readScope depth) (place s.id) = .ok (s.stored place) := by
  match s with
  | ⟨head, scope, exprs⟩ =>
    obtain ⟨hnested, hexprs, hlabel, hrow, hswitch⟩ := (Stmt.held_iff head scope exprs).mp h
    let s : Stmt ι := ⟨head, scope, exprs⟩
    have hself : s.exprs.length ≤ maxExprs := hfew s s.mem_allStmts_self
    have hle := Nat.max_le.mp hheight
    have hrecord : StmtView.record ⟨b, place s.id⟩ = .ok (s.recordAt place) := hread
    have hlabel' : b.readTextPtr (s.recordAt place).label = _ := readTextPtr_of_held hlabel
    have hswitch' : (s.recordAt place).switchPlaces.collect
          (fun o => return ⟨o, ← Stored.readAt b o⟩)
        = .ok (head.switch.map (Leaf.stored place)) := by
      rw [(lists_switchPlaces (s := s) hrow hswitch).collect]
      apply mapM_map_eq_ok
      intro n hn
      rw [hswitch n hn]
      rfl
    have hexprs' : (s.recordAt place).exprOffsets.mapM (b.readExpr depth)
        = .ok (exprs.map (Expr.stored place)) := by
      rw [s.exprOffsets_recordAt place hself]
      exact mapM_map_eq_ok fun e he =>
        e.read_of_held (hexprs e he) (exprListHeight_le_iff.mp hle.2 e he)
    have hscope' := nested_read_of_held scope hnested hle.1 hfun
      fun t ht => hfew t (List.mem_cons_of_mem _ ht)
    have hpointer : (s.recordAt place).scope = scope.map fun t => place t.id := rfl
    simp only [Block.readStmt, s, hrecord, ok_bind, hlabel', hswitch']
    -- The nested scope is read before the expressions, if there is one.
    cases scope with
    | none =>
      simp only [s, hpointer, Option.map_none, pure_bind, hexprs', ok_bind]
      rw [Stmt.stmtKind_recordAt, Stmt.sourceLoc_recordAt]
      rfl
    | some inner =>
      simp only [Option.map_some] at hscope'
      simp only [s, hpointer, Option.map_some, hscope', hexprs', ok_bind]
      rw [Stmt.stmtKind_recordAt, Stmt.sourceLoc_recordAt]
      rfl

theorem stmtList_read_of_held (ss : List (Stmt ι)) {depth : Nat}
    (hread : ∀ s ∈ ss, Stored.readAt b (place s.id) = .ok (s.recordAt place))
    (h : Held b place (stmtListPieces ss)) (hheight : stmtListHeight ss ≤ depth)
    (hfun : ∀ l ∈ stmtListAllLocals ss, l.isFunction = false)
    (hfew : ∀ t ∈ stmtListAllStmts ss, t.exprs.length ≤ maxExprs) :
    (ss.map fun s => place s.id).mapM (b.readStmt depth (b.readScope depth))
      = .ok (stmtListStored place ss) := by
  match ss with
  | [] => rfl
  | s :: ss =>
    obtain ⟨hfirst, hrest⟩ := (held_append s.pieces (stmtListPieces ss)).mp h
    have hle := Nat.max_le.mp hheight
    rw [stmtListAllLocals, List.forall_mem_append] at hfun
    rw [stmtListAllStmts_cons, List.forall_mem_append] at hfew
    have hfirst' := Stmt.read_of_held s (hread s List.mem_cons_self) hfirst hle.1 hfun.1 hfew.1
    have hrest' := stmtList_read_of_held ss (fun t ht => hread t (List.mem_cons_of_mem _ ht)) hrest hle.2
      hfun.2 hfew.2
    rw [List.map_cons, List.mapM_cons, hfirst', hrest']
    rfl

theorem nested_read_of_held (s : Option (Scope ι)) {depth : Nat} (h : Held b place (nestedPieces s))
    (hheight : nestedHeight s ≤ depth) (hfun : ∀ l ∈ nestedAllLocals s, l.isFunction = false)
    (hfew : ∀ t ∈ nestedAllStmts s, t.exprs.length ≤ maxExprs) :
    (match s.map fun t => place t.id with
      | none => pure none
      | some o => some <$> b.readScope depth o : Except Fault (Option (Scope Offset)))
      = .ok (nestedStored place s) := by
  match s with
  | none => rfl
  | some s =>
    have hread := Scope.read_of_held s h hheight hfun hfew
    simp only [Option.map_some, hread]
    rfl

end

/-- The outermost scope of a relocated function is read back as the stored one. -/
theorem Packed.Relocates.readScope {p : Packed} {f : Function ι} (h : p.Relocates place f)
    (hwell : f.WellFormed) : p.readScope = .ok (f.scope.stored place) := by
  have hscope : Held p.block place f.scope.pieces := ((held_append _ _).mp h.held).1
  have hdepth : f.scope.height ≤ p.block.readDepth := by
    have hle := h.height_le
    unfold Block.readDepth
    unfold alignment at hle
    omega
  rw [Packed.readScope, h.root]
  exact f.scope.read_of_held hscope hdepth hwell.noFunctions hwell.fewExprs

/-- A relocated function is read back as the stored one. -/
theorem Packed.Relocates.read {p : Packed} {f : Function ι} (h : p.Relocates place f)
    (hwell : f.WellFormed) : p.read = .ok (f.stored place) := by
  have hargs : List.zipWith Leaf.mk (f.args.map fun t => place t.id) (f.args.map (·.val))
      = f.args.map (Leaf.stored place) := by
    rw [List.zipWith_map, List.zipWith_self]
    rfl
  rw [Packed.read, h.readScope hwell, (h.shows hwell).argTypes, h.args, ok_bind, ok_bind, hargs]
  rfl

end TreePack
