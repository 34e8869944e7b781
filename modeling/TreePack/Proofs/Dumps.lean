import Mathlib.Data.List.Nodup
import TreePack.Dump.Basic
import TreePack.Proofs.Reading

namespace TreePack

variable {ι : Type} {place : ι → Offset}

/-! ### Numbers of statements -/

section

variable [DecidableEq ι] [Hashable ι]

structure SameNumbers (place : ι → Offset) (S : ι → Prop) (numbers : StmtNumbers ι)
    (numbers' : StmtNumbers Offset) : Prop where
  size : numbers'.size = numbers.size
  get : ∀ q, S q → numbers'[place q]? = numbers[q]?

variable {S : ι → Prop}

/-- One more numbered statement keeps two numberings in step, as the placement is injective on the
identities they know. -/
theorem SameNumbers.insert {numbers : StmtNumbers ι} {numbers' : StmtNumbers Offset}
    (h : SameNumbers place S numbers numbers') (hinj : ∀ q r, S q → S r → place q = place r → q = r)
    {q : ι} (hq : S q) (n : Nat) :
    SameNumbers place S (numbers.insert q n) (numbers'.insert (place q) n) := by
  constructor
  · have hmem : place q ∈ numbers' ↔ q ∈ numbers := by
      rw [Std.HashMap.mem_iff_isSome_getElem?, Std.HashMap.mem_iff_isSome_getElem?, h.get q hq]
    rw [Std.HashMap.size_insert, Std.HashMap.size_insert, h.size]
    simp only [hmem]
  · intro r hr
    rw [Std.HashMap.getElem?_insert, Std.HashMap.getElem?_insert, h.get r hr]
    by_cases heq : q = r
    · simp [heq]
    · have hne : place q ≠ place r := fun hplace => heq (hinj q r hq hr hplace)
      simp [heq, hne]

/-- A scope and its stored copy number their statements alike. -/
theorem sameNumbers_ofStmts {stmts : List (Stmt ι)}
    (hinj : ∀ q r, S q → S r → place q = place r → q = r) (hstmts : ∀ s ∈ stmts, S s.id) :
    SameNumbers place S (.ofStmts stmts) (.ofStmts (stmts.map (Stmt.stored place))) := by
  -- From any two numberings in step; each statement gets the size of what is numbered so far.
  have hfold : ∀ (numbers : StmtNumbers ι) (numbers' : StmtNumbers Offset),
      SameNumbers place S numbers numbers' →
      SameNumbers place S (stmts.foldl (fun numbers s => numbers.insert s.id numbers.size) numbers)
        ((stmts.map (Stmt.stored place)).foldl (fun numbers s => numbers.insert s.id numbers.size)
          numbers') := by
    induction stmts with
    | nil => exact fun _ _ h => h
    | cons s ss ih =>
      intro numbers numbers' h
      have hstep := h.insert hinj (hstmts s List.mem_cons_self) numbers.size
      rw [← s.id_stored place] at hstep
      rw [List.map_cons, List.foldl_cons, List.foldl_cons, h.size]
      exact ih (fun t ht => hstmts t (List.mem_cons_of_mem _ ht)) _ _ hstep
  apply hfold
  refine ⟨?_, fun q _ => ?_⟩
  · rw [Std.HashMap.size_empty, Std.HashMap.size_empty]
  · rw [Std.HashMap.getElem?_empty, Std.HashMap.getElem?_empty]

end

/-! ### Lines -/

def DumpItem.stored : DumpItem → DumpItem
  | .localDecl name ty => .localDecl name ty
  | .stmt number kind loc loop label switch => .stmt number kind (storedLoc loc) loop label switch
  | .expr slot kind value ty symbol method => .expr slot kind value ty symbol method

def DumpLine.stored (line : DumpLine) : DumpLine := ⟨line.depth, line.item.stored⟩

/-- The line of a stored expression head differs by nothing but the stored location. -/
theorem ExprHead.dumpItem_stored (head : ExprHead ι) (slot : Option Nat) :
    (head.stored place).dumpItem slot = (head.dumpItem slot).stored := by
  simp only [ExprHead.dumpItem, ExprHead.stored, Option.map_map, DumpItem.stored]
  rfl

mutual

theorem Expr.lines_stored (rest : List DumpLine) (depth : Nat) (slot : Option Nat) (e : Expr ι) :
    (e.stored place).linesThen (rest.map DumpLine.stored) depth slot
      = (e.linesThen rest depth slot).map DumpLine.stored := by
  match e with
  | .node head children =>
    rw [Expr.stored, Expr.linesThen, Expr.linesThen, ExprHead.dumpItem_stored,
      Slots.lines_stored rest (depth + 1) 0 children, List.map_cons]
    rfl

theorem Slots.lines_stored (rest : List DumpLine) (depth slot : Nat) {n : Nat} (s : Slots ι n) :
    (s.stored place).linesThen (rest.map DumpLine.stored) depth slot
      = (s.linesThen rest depth slot).map DumpLine.stored := by
  match s with
  | .nil => rfl
  | .empty slots => exact Slots.lines_stored rest depth (slot + 1) slots
  | .full child slots =>
    rw [Slots.stored, Slots.linesThen, Slots.linesThen, Slots.lines_stored rest depth (slot + 1) slots,
      Expr.lines_stored _ depth (some slot) child]

end

theorem exprList_lines_stored (rest : List DumpLine) (depth : Nat) (exprs : List (Expr ι)) :
    exprListLinesThen (rest.map DumpLine.stored) depth (exprs.map (Expr.stored place))
      = (exprListLinesThen rest depth exprs).map DumpLine.stored := by
  induction exprs with
  | nil => rfl
  | cons e es ih =>
    have hcons (rest : List DumpLine) (es : List (Expr Offset)) (e : Expr Offset) :
        exprListLinesThen rest depth (e :: es) = e.linesThen (exprListLinesThen rest depth es) depth none :=
      rfl
    rw [List.map_cons, hcons, ih, Expr.lines_stored]
    rfl

section

variable [DecidableEq ι] [Hashable ι] {S : ι → Prop} {numbers : StmtNumbers ι}
  {numbers' : StmtNumbers Offset}

/-- A stored statement prints its number and its loop target's number as before: both are looked
up through the placement. -/
theorem StmtHead.dumpItem_stored (hnumbers : SameNumbers place S numbers numbers') {head : StmtHead ι}
    (hid : S head.id) (hloop : ∀ target ∈ head.loop, S target) :
    (head.stored place).dumpItem numbers' = (head.dumpItem numbers).stored := by
  have hnumber : numbers'[(head.stored place).id]? = numbers[head.id]? := hnumbers.get head.id hid
  have hlabel : (head.stored place).label.map (·.val) = head.label.map (·.val) := by
    rw [StmtHead.stored, Option.map_map]
    rfl
  have hswitch : (head.stored place).switch.map (·.val) = head.switch.map (·.val) := by
    rw [StmtHead.stored, List.map_map]
    rfl
  -- A loop target may be unknown to the numbering, on both sides alike.
  have htarget : (head.stored place).loop.map (fun target => numbers'[target]?)
      = head.loop.map fun target => numbers[target]? := by
    rw [StmtHead.stored, Option.map_map]
    cases hcase : head.loop with
    | none => rfl
    | some target =>
      rw [hcase] at hloop
      exact congrArg some (hnumbers.get target (hloop target rfl))
  rw [StmtHead.dumpItem, StmtHead.dumpItem, hnumber, hlabel, hswitch, htarget]
  rfl

mutual

/-- The lines of a stored scope are the stored lines of the scope. -/
theorem Scope.lines_stored (hnumbers : SameNumbers place S numbers numbers') (rest : List DumpLine)
    (depth : Nat) (s : Scope ι) (hids : ∀ t ∈ s.allStmts, S t.id)
    (hloops : ∀ t ∈ s.allStmts, ∀ target ∈ t.head.loop, S target) :
    (s.stored place).linesThen numbers' (rest.map DumpLine.stored) depth
      = (s.linesThen numbers rest depth).map DumpLine.stored := by
  match s with
  | ⟨id, locals, stmts⟩ =>
    rw [Scope.stored, Scope.linesThen, Scope.linesThen,
      stmtList_lines_stored hnumbers rest depth stmts hids hloops, List.map_append, List.map_map,
      List.map_map]
    rfl

theorem Stmt.lines_stored (hnumbers : SameNumbers place S numbers numbers') (rest : List DumpLine)
    (depth : Nat) (s : Stmt ι) (hids : ∀ t ∈ s.allStmts, S t.id)
    (hloops : ∀ t ∈ s.allStmts, ∀ target ∈ t.head.loop, S target) :
    (s.stored place).linesThen numbers' (rest.map DumpLine.stored) depth
      = (s.linesThen numbers rest depth).map DumpLine.stored := by
  match s with
  | ⟨head, scope, exprs⟩ =>
    rw [Stmt.allStmts_mk, List.forall_mem_cons] at hids hloops
    rw [Stmt.stored, Stmt.linesThen, Stmt.linesThen, StmtHead.dumpItem_stored hnumbers hids.1 hloops.1,
      exprList_lines_stored, nested_lines_stored hnumbers _ (depth + 1) scope hids.2 hloops.2, List.map_cons]
    rfl

theorem stmtList_lines_stored (hnumbers : SameNumbers place S numbers numbers') (rest : List DumpLine)
    (depth : Nat) (ss : List (Stmt ι)) (hids : ∀ t ∈ stmtListAllStmts ss, S t.id)
    (hloops : ∀ t ∈ stmtListAllStmts ss, ∀ target ∈ t.head.loop, S target) :
    stmtListLinesThen numbers' (rest.map DumpLine.stored) depth (stmtListStored place ss)
      = (stmtListLinesThen numbers rest depth ss).map DumpLine.stored := by
  match ss with
  | [] => rfl
  | s :: ss =>
    rw [stmtListAllStmts_cons, List.forall_mem_append] at hids hloops
    rw [stmtListStored, stmtListLinesThen, stmtListLinesThen,
      stmtList_lines_stored hnumbers rest depth ss hids.2 hloops.2,
      Stmt.lines_stored hnumbers _ depth s hids.1 hloops.1]

theorem nested_lines_stored (hnumbers : SameNumbers place S numbers numbers') (rest : List DumpLine)
    (depth : Nat) (s : Option (Scope ι)) (hids : ∀ t ∈ nestedAllStmts s, S t.id)
    (hloops : ∀ t ∈ nestedAllStmts s, ∀ target ∈ t.head.loop, S target) :
    nestedLinesThen numbers' (rest.map DumpLine.stored) depth (nestedStored place s)
      = (nestedLinesThen numbers rest depth s).map DumpLine.stored := by
  match s with
  | none => rfl
  | some s => exact Scope.lines_stored hnumbers rest depth s hids hloops

end

/-- The lines of a stored tree are those of the tree, with the locations as they are stored. -/
theorem Scope.dumpLines_stored {s : Scope ι} (hinj : ∀ q r, S q → S r → place q = place r → q = r)
    (hids : ∀ t ∈ s.allStmts, S t.id) (hloops : ∀ t ∈ s.allStmts, ∀ target ∈ t.head.loop, S target)
    (depth : Nat) : (s.stored place).dumpLines depth = (s.dumpLines depth).map DumpLine.stored := by
  rw [Scope.dumpLines, Scope.dumpLines, Scope.allStmts_stored]
  exact Scope.lines_stored (sameNumbers_ofStmts hinj hids) [] depth s hids hloops

end

/-! ### Locations that are shown -/

def DumpItem.loc : DumpItem → Option SourceLoc
  | .stmt _ _ loc _ _ _ => loc
  | _ => none

section

-- The theorems of one block use the hypothesis through each other.
set_option linter.unusedSectionVars false

variable {P : Option SourceLoc → Prop} (hnone : P none)

include hnone

mutual

theorem Expr.forall_lines (rest : List DumpLine) (depth : Nat) (slot : Option Nat) (e : Expr ι) :
    (∀ line ∈ e.linesThen rest depth slot, P line.item.loc) ↔ ∀ line ∈ rest, P line.item.loc := by
  match e with
  | .node head children =>
    rw [Expr.linesThen, List.forall_mem_cons, Slots.forall_lines rest (depth + 1) 0 children]
    exact ⟨fun h => h.2, fun h => ⟨hnone, h⟩⟩

theorem Slots.forall_lines (rest : List DumpLine) (depth slot : Nat) {n : Nat} (s : Slots ι n) :
    (∀ line ∈ s.linesThen rest depth slot, P line.item.loc) ↔ ∀ line ∈ rest, P line.item.loc := by
  match s with
  | .nil => rfl
  | .empty slots => exact Slots.forall_lines rest depth (slot + 1) slots
  | .full child slots =>
    rw [Slots.linesThen, Expr.forall_lines _ depth (some slot) child,
      Slots.forall_lines rest depth (slot + 1) slots]

end

theorem exprList_forall_lines (rest : List DumpLine) (depth : Nat) (exprs : List (Expr ι)) :
    (∀ line ∈ exprListLinesThen rest depth exprs, P line.item.loc)
      ↔ ∀ line ∈ rest, P line.item.loc := by
  induction exprs with
  | nil => rfl
  | cons e es ih => exact (Expr.forall_lines hnone _ depth none e).trans ih

variable [DecidableEq ι] [Hashable ι]

mutual

/-- The lines of a scope carry the locations of its statements and no others. -/
theorem Scope.forall_lines (numbers : StmtNumbers ι) (rest : List DumpLine) (depth : Nat) (s : Scope ι) :
    (∀ line ∈ s.linesThen numbers rest depth, P line.item.loc)
      ↔ (∀ t ∈ s.allStmts, P t.head.loc) ∧ ∀ line ∈ rest, P line.item.loc := by
  match s with
  | ⟨id, locals, stmts⟩ =>
    rw [Scope.linesThen, List.forall_mem_append, List.forall_mem_map,
      stmtList_forall_lines numbers rest depth stmts]
    exact ⟨fun h => h.2, fun h => ⟨fun _ _ => hnone, h⟩⟩

theorem Stmt.forall_lines (numbers : StmtNumbers ι) (rest : List DumpLine) (depth : Nat) (s : Stmt ι) :
    (∀ line ∈ s.linesThen numbers rest depth, P line.item.loc)
      ↔ (∀ t ∈ s.allStmts, P t.head.loc) ∧ ∀ line ∈ rest, P line.item.loc := by
  match s with
  | ⟨head, scope, exprs⟩ =>
    rw [Stmt.linesThen, List.forall_mem_cons, nested_forall_lines numbers _ (depth + 1) scope,
      exprList_forall_lines hnone, Stmt.allStmts_mk, List.forall_mem_cons, and_assoc]
    rfl

theorem stmtList_forall_lines (numbers : StmtNumbers ι) (rest : List DumpLine) (depth : Nat)
    (ss : List (Stmt ι)) :
    (∀ line ∈ stmtListLinesThen numbers rest depth ss, P line.item.loc)
      ↔ (∀ t ∈ stmtListAllStmts ss, P t.head.loc) ∧ ∀ line ∈ rest, P line.item.loc := by
  match ss with
  | [] => simp [stmtListLinesThen]
  | s :: ss =>
    rw [stmtListLinesThen, Stmt.forall_lines numbers _ depth s, stmtList_forall_lines numbers rest depth ss,
      stmtListAllStmts_cons, List.forall_mem_append, and_assoc]

theorem nested_forall_lines (numbers : StmtNumbers ι) (rest : List DumpLine) (depth : Nat)
    (s : Option (Scope ι)) :
    (∀ line ∈ nestedLinesThen numbers rest depth s, P line.item.loc)
      ↔ (∀ t ∈ nestedAllStmts s, P t.head.loc) ∧ ∀ line ∈ rest, P line.item.loc := by
  match s with
  | none => simp [nestedLinesThen]
  | some s => exact Scope.forall_lines numbers rest depth s

end

/-- The lines of a scope show the locations of its statements. -/
theorem Scope.forall_dumpLines (s : Scope ι) (depth : Nat) :
    (∀ line ∈ s.dumpLines depth, P line.item.loc) ↔ ∀ t ∈ s.allStmts, P t.head.loc := by
  rw [Scope.dumpLines, Scope.forall_lines hnone]
  simp

end

/-! ### A lost location makes a dump shorter -/

theorem storedLoc_eq_iff (loc : Option SourceLoc) :
    storedLoc loc = loc ↔ ∀ l ∈ loc, l.pack ≠ Offset.absent := by
  cases loc with
  | none => simp [storedLoc]
  | some l =>
    rw [storedLoc, Option.filter_some]
    by_cases habsent : l.pack = Offset.absent <;> simp [habsent]

/-- A location that does not survive storing reads back as none. -/
theorem storedLoc_eq_none {loc : Option SourceLoc} (h : storedLoc loc ≠ loc) :
    storedLoc loc = none ∧ ∃ l, loc = some l := by
  cases loc with
  | none => exact absurd rfl h
  | some l =>
    rw [storedLoc, Option.filter_some] at h ⊢
    by_cases habsent : l.pack = Offset.absent
    · rw [if_neg (by simp [habsent])]
      exact ⟨rfl, l, rfl⟩
    · rw [if_pos (by simp [habsent])] at h
      exact absurd rfl h

/-- A line whose location survives is unchanged. -/
theorem DumpLine.stored_of_kept {line : DumpLine} (h : storedLoc line.item.loc = line.item.loc) :
    line.stored = line := by
  cases line with
  | mk depth item =>
    cases item with
    | stmt number kind loc loop label switch =>
      have hloc : storedLoc loc = loc := h
      rw [DumpLine.stored, DumpItem.stored, hloc]
    | localDecl _ _ | expr _ _ _ _ _ _ => rfl

/-- A line that loses its location gets shorter, which is how the loss shows in the text. -/
theorem DumpLine.length_render_lt {line : DumpLine} (h : storedLoc line.item.loc ≠ line.item.loc) :
    line.stored.render.length < line.render.length := by
  cases line with
  | mk depth item =>
    cases item with
    | stmt number kind loc loop label switch =>
      obtain ⟨hlost, l, rfl⟩ := storedLoc_eq_none h
      have hlost' : storedLoc (some l) = none := hlost
      simp only [DumpLine.stored, DumpItem.stored, hlost', DumpLine.render, DumpItem.render,
        DumpItem.renderLoc, String.length_append]
      have hat : " @".length = 2 := rfl
      have hempty : "".length = 0 := rfl
      omega
    | localDecl _ _ | expr _ _ _ _ _ _ => exact absurd rfl h

/-- Storing never makes a dump longer. -/
theorem length_join_le (lines : List DumpLine) :
    (String.join ((lines.map DumpLine.stored).map DumpLine.render)).length
      ≤ (String.join (lines.map DumpLine.render)).length := by
  induction lines with
  | nil => exact Nat.le_refl _
  | cons line lines ih =>
    have hline : line.stored.render.length ≤ line.render.length := by
      by_cases hkept : storedLoc line.item.loc = line.item.loc
      · exact Nat.le_of_eq (congrArg (·.render.length) (DumpLine.stored_of_kept hkept))
      · exact Nat.le_of_lt (DumpLine.length_render_lt hkept)
    simp only [List.map_cons, String.join_cons, String.length_append]
    omega

/-- Two dumps are equal just if no line loses its location. -/
theorem join_stored_eq_iff (lines : List DumpLine) :
    String.join ((lines.map DumpLine.stored).map DumpLine.render)
        = String.join (lines.map DumpLine.render)
      ↔ ∀ line ∈ lines, storedLoc line.item.loc = line.item.loc := by
  constructor
  · intro heq
    induction lines with
    | nil => exact fun _ h => (List.not_mem_nil h).elim
    | cons line lines ih =>
      simp only [List.map_cons, String.join_cons] at heq
      have hlength := congrArg String.length heq
      rw [String.length_append, String.length_append] at hlength
      have hrest := length_join_le lines
      -- A line that lost its location is shorter, and no later line makes up for it.
      have hkept : storedLoc line.item.loc = line.item.loc := by
        by_contra hlost
        have hlt := DumpLine.length_render_lt hlost
        omega
      rw [DumpLine.stored_of_kept hkept] at heq
      exact List.forall_mem_cons.mpr ⟨hkept, ih (String.append_right_inj _ |>.mp heq)⟩
  · intro hkept
    have hsame : lines.map DumpLine.stored = lines.map id :=
      List.map_congr_left fun line hline => DumpLine.stored_of_kept (hkept line hline)
    rw [hsame, List.map_id]

/-- The stored tree of a relocated function is dumped like the function just if no location is lost. -/
theorem Packed.Relocates.dump_stored_eq_iff [DecidableEq ι] [Hashable ι] {p : Packed} {f : Function ι}
    (h : p.Relocates place f) (hwell : f.WellFormed) (depth : Nat) :
    (f.scope.stored place).dump depth = f.scope.dump depth
      ↔ ∀ s ∈ f.scope.allStmts, ∀ loc ∈ s.head.loc, loc.pack ≠ Offset.absent := by
  have hids : ∀ t ∈ f.scope.allStmts, t.id ∈ idsOf f.pieces := by
    intro t ht
    rw [Function.pieces, idsOf_append]
    exact List.mem_append_left _ (f.scope.stmt_id_mem_idsOf ht)
  have hloops : ∀ t ∈ f.scope.allStmts, ∀ target ∈ t.head.loop, target ∈ idsOf f.pieces := by
    intro t ht target htarget
    obtain ⟨named, hnamed, rfl, -⟩ := hwell.loops t ht target htarget
    exact hids named hnamed
  -- Different statements have different offsets, so they are numbered alike.
  have hinj : ∀ q r, q ∈ idsOf f.pieces → r ∈ idsOf f.pieces → place q = place r → q = r :=
    fun q r hq hr heq => List.inj_on_of_nodup_map h.nodup hq hr heq
  rw [Scope.dump, Scope.dump, Scope.dumpLines_stored hinj hids hloops, join_stored_eq_iff,
    Scope.forall_dumpLines (P := fun loc => storedLoc loc = loc) rfl]
  simp only [storedLoc_eq_iff]

end TreePack
