import TreePack.Packed.Dump
import TreePack.Proofs.Dumps
/-!
Printing a block is reading it and printing the tree that is read.

The printer of blocks asks views for what it prints and keys statements by their offsets. It meets the records
in the order in which reading does, so it gives the lines of the tree that is read, and stops at the fault at
which reading stops (`ScopeView.dumpLines_eq`). The texts of the two are the same (`ScopeView.dump_eq_ok_iff`).
-/

namespace TreePack

variable {ι α β γ : Type}

/-! ### Lines in front of others -/

mutual

theorem Expr.linesThen_append (rest : List DumpLine) (depth : Nat) (slot : Option Nat) (e : Expr ι) :
    e.linesThen rest depth slot = e.linesThen [] depth slot ++ rest := by
  match e with
  | .node head children =>
    rw [Expr.linesThen, Expr.linesThen, Slots.linesThen_append rest (depth + 1) 0 children, List.cons_append]

theorem Slots.linesThen_append (rest : List DumpLine) (depth slot : Nat) {n : Nat} (s : Slots ι n) :
    s.linesThen rest depth slot = s.linesThen [] depth slot ++ rest := by
  match s with
  | .nil => rfl
  | .empty slots => exact Slots.linesThen_append rest depth (slot + 1) slots
  | .full child slots =>
    rw [Slots.linesThen, Slots.linesThen, Expr.linesThen_append (slots.linesThen rest depth (slot + 1)),
      Expr.linesThen_append (slots.linesThen [] depth (slot + 1)),
      Slots.linesThen_append rest depth (slot + 1) slots, List.append_assoc]

end

/-- The lines of expressions in a row, one after the other. -/
theorem exprListLinesThen_eq (rest : List DumpLine) (depth : Nat) (exprs : List (Expr ι)) :
    exprListLinesThen rest depth exprs = (exprs.map fun e => e.linesThen [] depth none).flatten ++ rest := by
  induction exprs with
  | nil => rfl
  | cons e es ih =>
    have hcons : exprListLinesThen rest depth (e :: es)
        = e.linesThen (exprListLinesThen rest depth es) depth none := rfl
    rw [hcons, Expr.linesThen_append, ih, List.map_cons, List.flatten_cons, List.append_assoc]

section

variable [DecidableEq ι] [Hashable ι] (numbers : StmtNumbers ι)

mutual

/-- The lines of a scope do not depend on what follows, which is carried along only to save the
concatenation. The readers below have nothing to carry. -/
theorem Scope.linesThen_append (rest : List DumpLine) (depth : Nat) (s : Scope ι) :
    s.linesThen numbers rest depth = s.linesThen numbers [] depth ++ rest := by
  match s with
  | ⟨id, locals, stmts⟩ =>
    rw [Scope.linesThen, Scope.linesThen, stmtListLinesThen_append rest depth stmts, List.append_assoc]

theorem Stmt.linesThen_append (rest : List DumpLine) (depth : Nat) (s : Stmt ι) :
    s.linesThen numbers rest depth = s.linesThen numbers [] depth ++ rest := by
  match s with
  | ⟨head, scope, exprs⟩ =>
    rw [Stmt.linesThen, Stmt.linesThen, nestedLinesThen_append (exprListLinesThen rest (depth + 1) exprs),
      nestedLinesThen_append (exprListLinesThen [] (depth + 1) exprs), exprListLinesThen_eq rest,
      exprListLinesThen_eq [], List.append_nil, List.cons_append, List.append_assoc]

theorem stmtListLinesThen_append (rest : List DumpLine) (depth : Nat) (ss : List (Stmt ι)) :
    stmtListLinesThen numbers rest depth ss = stmtListLinesThen numbers [] depth ss ++ rest := by
  match ss with
  | [] => rfl
  | s :: ss =>
    rw [stmtListLinesThen, stmtListLinesThen, Stmt.linesThen_append (stmtListLinesThen numbers rest depth ss),
      Stmt.linesThen_append (stmtListLinesThen numbers [] depth ss), stmtListLinesThen_append rest depth ss,
      List.append_assoc]

theorem nestedLinesThen_append (rest : List DumpLine) (depth : Nat) (s : Option (Scope ι)) :
    nestedLinesThen numbers rest depth s = nestedLinesThen numbers [] depth s ++ rest := by
  match s with
  | none => rfl
  | some s => exact Scope.linesThen_append rest depth s

end

/-- The lines of statements in a row, one after the other. -/
theorem stmtListLinesThen_eq (depth : Nat) (ss : List (Stmt ι)) :
    stmtListLinesThen numbers [] depth ss = (ss.map fun s => s.linesThen numbers [] depth).flatten := by
  induction ss with
  | nil => rfl
  | cons s ss ih =>
    rw [stmtListLinesThen, Stmt.linesThen_append, ih, List.map_cons, List.flatten_cons]

end

/-! ### Loops that print what they read -/

/-- Two programs that see the same of what they read do the same with it. -/
theorem bind_eq_of_map {ε δ : Type} {x : Except ε α} {y : Except ε β} {f : α → γ} {g : β → γ}
    (h : f <$> x = g <$> y) {k : α → Except ε δ} {l : β → Except ε δ} (hkl : ∀ a b, f a = g b → k a = l b) :
    x >>= k = y >>= l := by
  cases x with
  | error e =>
    cases y with
    | error e' =>
      cases h
      rfl
    | ok b => cases h
  | ok a =>
    cases y with
    | error e => cases h
    | ok b => exact hkl a b (Except.ok.inj h)

/-- What is read element by element may be turned into something else afterwards. -/
theorem mapM_eq_map {f : α → Except Fault β} {f' : α → Except Fault γ} {g : β → γ}
    (h : ∀ a, f' a = g <$> f a) (as : List α) : as.mapM f' = List.map g <$> as.mapM f := by
  induction as with
  | nil => rfl
  | cons a as ih => simp only [List.mapM_cons, h, ih, bind_map_left, map_bind, map_pure, List.map_cons]

namespace Places

/-- The same of the places of a row. -/
theorem collectFrom_eq_map {p : Places} {f : Offset → Except Fault β} {f' : Offset → Except Fault γ} {g : β → γ}
    (h : ∀ o, f' o = g <$> f o) (count i : Nat) :
    p.collectFrom f' count i = List.map g <$> p.collectFrom f count i := by
  induction count generalizing i with
  | zero => rfl
  | succ count ih => simp only [collectFrom, h, ih, bind_map_left, map_bind, map_pure, List.map_cons]

/-- A fold over places does to each of them what was read there. -/
theorem foldFrom_of_collectFrom {p : Places} {f : Offset → Except Fault α} {step : β → Offset → Except Fault β}
    {g : β → α → β} (h : ∀ o a, f o = .ok a → ∀ b, step b o = .ok (g b a)) {count i : Nat} {as : List α}
    (has : p.collectFrom f count i = .ok as) (b : β) : p.foldFrom step count i b = .ok (as.foldl g b) := by
  induction count generalizing i as b with
  | zero =>
    cases has
    rfl
  | succ count ih =>
    obtain ⟨o, hget, has⟩ := exists_of_bind_eq_ok has
    obtain ⟨a, hfirst, has⟩ := exists_of_bind_eq_ok has
    obtain ⟨rest, hrest, has⟩ := exists_of_bind_eq_ok has
    cases has
    rw [foldFrom, hget, ok_bind, h o a hfirst, ok_bind]
    exact ih hrest _

end Places

/-! ### Expressions -/

variable {b : Block}

theorem readTextPtr_map (b : Block) (o : Offset) :
    (do return some (← b.readText o)) = Option.map Leaf.val <$> b.readTextPtr (some o) := by
  rw [Block.readTextPtr]
  cases b.readText o <;> rfl

section

variable {o : Offset} {r : ExprRecord Offset} (h : ExprView.record ⟨b, o⟩ = .ok r)

include h

theorem ExprView.symbol_eq : ExprView.symbol ⟨b, o⟩ = Option.map Leaf.val <$> b.readTextPtr r.symbol := by
  rw [symbol, h, ok_bind]
  cases r.symbol with
  | none => rfl
  | some t => exact readTextPtr_map b t

theorem ExprView.method_eq : ExprView.method ⟨b, o⟩ = Option.map Leaf.val <$> b.readTextPtr r.method := by
  rw [method, h, ok_bind]
  cases r.method with
  | none => rfl
  | some t => exact readTextPtr_map b t

/-- The line of an expression view is the line of the head read there. -/
theorem ExprView.dumpLine_eq (depth : Nat) (slot : Option Nat) : ExprView.dumpLine depth slot ⟨b, o⟩ = (do
      let symbol ← b.readTextPtr r.symbol
      let method ← b.readTextPtr r.method
      return ⟨depth, ExprHead.dumpItem ⟨o, r.exprKind, r.value, r.ty, symbol, method⟩ slot⟩) := by
  simp only [dumpLine, symbol_eq h, method_eq h, kind, value, ty, h, ok_bind, pure_bind, bind_map_left]
  rfl

end

/-- The lines of children are those of the slots that are read from the same offsets. -/
theorem dumpLines_slots {levels : Nat} {depth : Nat}
    (h : ∀ o slot, ExprView.dumpLines levels depth slot ⟨b, o⟩
      = (fun e => e.linesThen [] depth slot) <$> b.readExpr levels o) {n : Nat} (at? : Fin n → Option Offset)
    (k : Nat) :
    List.flatten <$> (((List.ofFn at?).zipIdx k).filterMap fun (at?, slot) =>
        at?.map fun o => (slot, (⟨b, o⟩ : ExprView))).mapM
      (fun (slot, child) => ExprView.dumpLines levels depth (some slot) child)
    = (fun s => s.linesThen [] depth k) <$> readSlots (b.readExpr levels) at? := by
  -- On the number of slots.
  induction n generalizing k with
  | zero =>
    rw [List.ofFn_zero]
    rfl
  | succ n ih =>
    have hothers := ih (fun i => at? i.succ) (k + 1)
    rw [List.ofFn_succ, List.zipIdx_cons, readSlots]
    cases hfirst : at? 0 with
    | none =>
      simp only [List.filterMap_cons, Option.map_none, pure_bind]
      rw [hothers]
      cases readSlots (b.readExpr levels) (fun i => at? i.succ) <;> rfl
    | some o =>
      simp only [List.filterMap_cons, Option.map_some, List.mapM_cons, h, map_bind, map_pure, bind_map_left]
      refine bind_congr fun e => bind_eq_of_map hothers fun lines rest hlines => ?_
      rw [List.flatten_cons, hlines, ← Expr.linesThen_append]
      rfl

/-- An expression is printed as the one that is read at its offset. -/
theorem ExprView.dumpLines_eq (b : Block) (levels : Nat) (o : Offset) (depth : Nat) (slot : Option Nat) :
    ExprView.dumpLines levels depth slot ⟨b, o⟩
      = (fun e => e.linesThen [] depth slot) <$> b.readExpr levels o := by
  induction levels generalizing o depth slot with
  | zero => rfl
  | succ levels ih =>
    rw [dumpLines, Block.readExpr]
    cases hrecord : ExprView.record ⟨b, o⟩ with
    | error e =>
      simp only [dumpLine, kind, hrecord]
      rfl
    | ok r =>
      have hslots : r.children.toList = List.ofFn fun i : Fin maxChildren => r.children[i] := by
        apply List.ext_getElem <;> simp
      have hchildren := dumpLines_slots (ih · (depth + 1) ·) (fun i : Fin maxChildren => r.children[i]) 0
      rw [dumpLine_eq hrecord, children, hrecord, ok_bind, hslots]
      simp only [ok_bind, pure_bind, bind_assoc, map_bind, map_pure]
      refine bind_congr fun symbol => bind_congr fun method => bind_eq_of_map hchildren fun below slots h => ?_
      rw [h, Expr.linesThen]

/-! ### Statements and scopes -/

section

variable {o : Offset} {r : StmtRecord Offset} (h : StmtView.record ⟨b, o⟩ = .ok r)

include h

theorem StmtView.label_eq : StmtView.label ⟨b, o⟩ = Option.map Leaf.val <$> b.readTextPtr r.label := by
  rw [label, h, ok_bind]
  cases r.label with
  | none => rfl
  | some t => exact readTextPtr_map b t

theorem StmtView.switch_eq : StmtView.switch ⟨b, o⟩
    = List.map Leaf.val <$> r.switchPlaces.collect fun o => return ⟨o, ← Stored.readAt b o⟩ := by
  rw [switch, h, ok_bind]
  apply Places.collectFrom_eq_map
  intro o
  cases (Stored.readAt b o : Except Fault UInt64) <;> rfl

/-- The line of a statement view is the line of the head read there. -/
theorem StmtView.dumpLine_eq (numbers : StmtNumbers Offset) (depth : Nat) :
    StmtView.dumpLine numbers depth ⟨b, o⟩ = (do
      let label ← b.readTextPtr r.label
      let switch ← r.switchPlaces.collect fun o => return ⟨o, ← Stored.readAt b o⟩
      return ⟨depth, StmtHead.dumpItem numbers ⟨o, r.stmtKind, r.sourceLoc, r.loop, label, switch⟩⟩) := by
  simp only [dumpLine, label_eq h, switch_eq h, kind, loc, loop, h, ok_bind, pure_bind, bind_map_left,
    Option.map_map]
  rfl

end

/-- A statement prints through its view what it prints once it is read, if its nested scope does. -/
theorem StmtView.dumpLines_eq {numbers : StmtNumbers Offset} {levels : Nat}
    {scopeLines : Nat → ScopeView → Except Fault (List DumpLine)}
    {readScope : Offset → Except Fault (Scope Offset)}
    (h : ∀ o depth, scopeLines depth ⟨b, o⟩ = (fun s => s.linesThen numbers [] depth) <$> readScope o)
    (o : Offset) (depth : Nat) : StmtView.dumpLines numbers levels scopeLines depth ⟨b, o⟩
      = (fun s => s.linesThen numbers [] depth) <$> b.readStmt levels readScope o := by
  rw [dumpLines, Block.readStmt]
  cases hrecord : StmtView.record ⟨b, o⟩ with
  | error e =>
    simp only [dumpLine, kind, hrecord]
    rfl
  | ok r =>
    have hexprs : (r.exprOffsets.map fun o => (⟨b, o⟩ : ExprView)).mapM (ExprView.dumpLines levels (depth + 1) none)
        = List.map (fun e => e.linesThen [] (depth + 1) none) <$> r.exprOffsets.mapM (b.readExpr levels) := by
      rw [List.mapM_map]
      exact mapM_eq_map (fun o => ExprView.dumpLines_eq b levels o (depth + 1) none) _
    -- Behind the nested scope come the expressions, whatever the scope is.
    have hvalues (head : StmtHead Offset) (scope : Option (Scope Offset)) :
        (do
          let values ← (r.exprOffsets.map fun o => (⟨b, o⟩ : ExprView)).mapM
            (ExprView.dumpLines levels (depth + 1) none)
          return ⟨depth, head.dumpItem numbers⟩ :: (nestedLinesThen numbers [] (depth + 1) scope ++ values.flatten))
        = (fun s => s.linesThen numbers [] depth) <$> (do
          let exprs ← r.exprOffsets.mapM (b.readExpr levels)
          return (⟨head, scope, exprs⟩ : Stmt Offset)) := by
      simp only [hexprs, bind_map_left, map_bind, map_pure]
      refine bind_congr fun exprs => ?_
      rw [Stmt.linesThen, exprListLinesThen_eq, List.append_nil, nestedLinesThen_append numbers (List.flatten _)]
    rw [dumpLine_eq hrecord, scope, exprs, hrecord]
    simp only [ok_bind, pure_bind, bind_assoc, map_bind]
    refine bind_congr fun label => bind_congr fun switch => ?_
    cases r.scope with
    | none => exact hvalues _ none
    | some inner =>
      simp only [Option.map_some, h, bind_map_left, map_bind]
      refine bind_congr fun nested => ?_
      have hrest := hvalues ⟨o, r.stmtKind, r.sourceLoc, r.loop, label, switch⟩ (some nested)
      simp only [map_bind] at hrest
      exact hrest

/-- The line of a declaration view is the line of the declaration read there. -/
theorem DeclView.dumpLine_eq (b : Block) (o : Offset) (depth : Nat) : DeclView.dumpLine depth ⟨b, o⟩
    = (fun l => ⟨depth, .localDecl l.name.val l.ty⟩) <$> b.readLocal o := by
  rw [dumpLine, Block.readLocal, name, ty]
  cases hrecord : DeclView.record ⟨b, o⟩ with
  | error e => rfl
  | ok r =>
    simp only [ok_bind, pure_bind, map_bind, map_pure]
    cases r.name with
    | none => rfl
    | some t =>
      simp only [Block.readTextPtr]
      cases b.readText t <;> rfl

/-- A scope is printed as the one that is read at its offset, and a fault stops the printing where it stops the
reading. -/
theorem ScopeView.dumpLines_eq (b : Block) (numbers : StmtNumbers Offset) (levels : Nat) (o : Offset)
    (depth : Nat) : ScopeView.dumpLines numbers levels depth ⟨b, o⟩
      = (fun s => s.linesThen numbers [] depth) <$> b.readScope levels o := by
  induction levels generalizing o depth with
  | zero => rfl
  | succ levels ih =>
    rw [dumpLines, Block.readScope]
    cases hrecord : ScopeView.record ⟨b, o⟩ with
    | error e =>
      simp only [locals, hrecord]
      rfl
    | ok r =>
      simp only [locals, stmts, hrecord, ok_bind, pure_bind, Places.collect, Places.collectFrom_eq_map (DeclView.dumpLine_eq b · depth),
        Places.collectFrom_eq_map (StmtView.dumpLines_eq ih · depth), bind_map_left, map_bind, map_pure]
      refine bind_congr fun locals => bind_congr fun stmts => ?_
      rw [Scope.linesThen, stmtListLinesThen_eq]

/-! ### Numbers -/

/-- Folding over all statements of a row is folding over one after the other. -/
theorem foldl_stmtListAllStmts (g : β → Stmt ι → β) (ss : List (Stmt ι)) (b : β) :
    (stmtListAllStmts ss).foldl g b = ss.foldl (fun b s => s.allStmts.foldl g b) b := by
  induction ss generalizing b with
  | nil => rfl
  | cons s ss ih => rw [stmtListAllStmts_cons, List.foldl_append, ih, List.foldl_cons]

/-- A statement numbers through its view the statements that are read from it on, in the same
order, if its nested scope does. -/
theorem StmtView.number_eq {levels : Nat}
    {nested : StmtNumbers Offset → ScopeView → Except Fault (StmtNumbers Offset)}
    {readScope : Offset → Except Fault (Scope Offset)}
    (h : ∀ o s, readScope o = .ok s → ∀ numbers, nested numbers ⟨b, o⟩
      = .ok (s.allStmts.foldl (fun numbers s => numbers.insert s.id numbers.size) numbers))
    {o : Offset} {s : Stmt Offset} (hread : b.readStmt levels readScope o = .ok s)
    (numbers : StmtNumbers Offset) : StmtView.number nested numbers ⟨b, o⟩
      = .ok (s.allStmts.foldl (fun numbers s => numbers.insert s.id numbers.size) numbers) := by
  obtain ⟨r, hrecord, hread⟩ := exists_of_bind_eq_ok hread
  obtain ⟨label, -, hread⟩ := exists_of_bind_eq_ok hread
  obtain ⟨switch, -, hread⟩ := exists_of_bind_eq_ok hread
  rw [number, StmtView.scope, hrecord, ok_bind, pure_bind]
  cases hinner : r.scope with
  | none =>
    simp only [hinner, pure_bind] at hread
    obtain ⟨exprs, -, hread⟩ := exists_of_bind_eq_ok hread
    cases hread
    rfl
  | some inner =>
    simp only [hinner, bind_map_left] at hread
    obtain ⟨scope, hscope, hread⟩ := exists_of_bind_eq_ok hread
    obtain ⟨exprs, -, hread⟩ := exists_of_bind_eq_ok hread
    cases hread
    exact h inner scope hscope _

/-- The statements of a scope get their numbers in the order in which the tree that is read has them. -/
theorem ScopeView.number_eq {levels : Nat} {o : Offset} {s : Scope Offset}
    (h : b.readScope levels o = .ok s) (numbers : StmtNumbers Offset) :
    ScopeView.number levels numbers ⟨b, o⟩
      = .ok (s.allStmts.foldl (fun numbers s => numbers.insert s.id numbers.size) numbers) := by
  induction levels generalizing o s numbers with
  | zero => cases h
  | succ levels ih =>
    obtain ⟨r, hrecord, h⟩ := exists_of_bind_eq_ok h
    obtain ⟨locals, -, h⟩ := exists_of_bind_eq_ok h
    obtain ⟨stmts, hstmts, h⟩ := exists_of_bind_eq_ok h
    cases h
    rw [number, ScopeView.stmts, hrecord, Scope.allStmts_mk, foldl_stmtListAllStmts]
    exact Places.foldFrom_of_collectFrom
      (fun o s hs numbers => StmtView.number_eq (fun o s hs numbers => ih hs numbers) hs numbers) hstmts numbers

/-- The text that is printed from the views of a scope is the text of the scope that is read. -/
theorem ScopeView.dump_eq_ok_iff {v : ScopeView} {depth : Nat} {text : String} : v.dump depth = .ok text
    ↔ ∃ s, v.block.readScope v.block.readDepth v.offset = .ok s ∧ text = s.dump depth := by
  have hlines (numbers : StmtNumbers Offset) := dumpLines_eq v.block numbers v.block.readDepth v.offset depth
  constructor
  · intro h
    obtain ⟨numbers, hnumbers, h⟩ := exists_of_bind_eq_ok h
    obtain ⟨lines, hprint, h⟩ := exists_of_bind_eq_ok h
    cases h
    -- The lines cannot be printed unless the scope can be read, and then they are its lines.
    cases hread : v.block.readScope v.block.readDepth v.offset with
    | error e =>
      rw [hlines, hread] at hprint
      cases hprint
    | ok s =>
      rw [hlines, hread] at hprint
      cases hprint
      cases (number_eq hread ∅).symm.trans hnumbers
      exact ⟨s, rfl, rfl⟩
  · rintro ⟨s, hread, rfl⟩
    rw [dump, number_eq hread ∅, ok_bind, hlines, hread]
    rfl

/-- A relocated function is printed as the stored tree. -/
theorem Packed.Relocates.dump {p : Packed} {place : ι → Offset} {f : Function ι} (h : p.Relocates place f)
    (hwell : f.WellFormed) (depth : Nat) : p.root.dump depth = .ok ((f.scope.stored place).dump depth) :=
  ScopeView.dump_eq_ok_iff.mpr ⟨_, h.readScope hwell, rfl⟩

end TreePack
