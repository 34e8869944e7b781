import Mathlib.Data.List.Induction
import Mathlib.Data.List.Nodup
import TreePack.Proofs.BareLines
import TreePack.Proofs.Inventory

namespace TreePack

variable {ι κ : Type}

/-! ### Numbers of statements -/

def DumpItem.number? : DumpItem → Option (Option Nat)
  | .stmt number _ _ _ _ _ => some number
  | _ => none

def DumpLine.number? (line : DumpLine) : Option (Option Nat) := line.item.number?

/-- What a line shows and what it shows without its numbers agree. -/
theorem DumpLine.bare_shown (line : DumpLine) : line.shown.bare = line.bare := by
  have hty (t : TypeDesc) : t.shown.shown = t.shown := by
    unfold TypeDesc.shown
    by_cases hstruct : t.base = .struct <;> simp only [hstruct, if_true, if_false]
  obtain ⟨depth, item⟩ := line
  cases item <;> simp only [shown, bare, DumpItem.shown, DumpItem.bare, hty]

/-- Whether a line shows a number can be told from the rest of it. -/
theorem DumpItem.isSome_number? {item item' : DumpItem} (h : item.bare = item'.bare) :
    item.number?.isSome = item'.number?.isSome := by
  cases item <;> cases item' <;> first | rfl | cases h

theorem DumpItem.shown_of_bare {item item' : DumpItem} (h : item.bare = item'.bare)
    (hnumber : item.number? = item'.number?) : item.shown = item'.shown := by
  cases item with
  | stmt number kind loc loop label switch =>
    cases item' with
    | stmt number' kind' loc' loop' label' switch' =>
      cases h
      rw [Option.some.inj hnumber]
    | localDecl _ _ | expr _ _ _ _ _ _ => cases h
  | localDecl _ _ | expr _ _ _ _ _ _ => cases item' <;> first | exact h | cases h

/-- Lines whose statements are numbered one after the other show the same if they do so without the numbers. -/
theorem shown_of_bare {lines lines' : List DumpLine} {first n m : Nat}
    (h : lines.filterMap DumpLine.number? = (List.range' first n).map some)
    (h' : lines'.filterMap DumpLine.number? = (List.range' first m).map some)
    (hbare : lines.map DumpLine.bare = lines'.map DumpLine.bare) :
    lines.map DumpLine.shown = lines'.map DumpLine.shown := by
  -- Both lists count on from one number, so the lines are compared for every first number.
  induction lines generalizing lines' first n m with
  | nil => rw [List.map_nil, List.map_eq_nil_iff.mp hbare.symm, List.map_nil]
  | cons line lines ih =>
    cases lines' with
    | nil => cases hbare
    | cons line' lines' =>
      obtain ⟨hline, hlines⟩ := List.cons.inj hbare
      obtain ⟨hdepth, hitem⟩ := DumpLine.mk.inj hline
      have hsome : line.number?.isSome = line'.number?.isSome := DumpItem.isSome_number? hitem
      have hshown (heq : line.number? = line'.number?) : line.shown = line'.shown := by
        rw [DumpLine.shown, DumpLine.shown, hdepth, DumpItem.shown_of_bare hitem heq]
      rw [List.map_cons, List.map_cons]
      cases hnumber : line.number? with
      | none =>
        rw [hnumber] at hsome
        have hnumber' := Option.isSome_eq_false_iff.mp hsome.symm
        rw [Option.isNone_iff_eq_none] at hnumber'
        rw [List.filterMap_cons_none hnumber] at h
        rw [List.filterMap_cons_none hnumber'] at h'
        rw [hshown (hnumber.trans hnumber'.symm), ih h h' hlines]
      | some number =>
        rw [hnumber] at hsome
        obtain ⟨number', hnumber'⟩ := Option.isSome_iff_exists.mp hsome.symm
        rw [List.filterMap_cons_some hnumber] at h
        rw [List.filterMap_cons_some hnumber'] at h'
        cases n with
        | zero => cases h
        | succ n =>
          cases m with
          | zero => cases h'
          | succ m =>
            rw [List.range'_succ, List.map_cons] at h h'
            obtain ⟨rfl, hnumbers⟩ := List.cons.inj h
            obtain ⟨rfl, hnumbers'⟩ := List.cons.inj h'
            rw [hshown (hnumber.trans hnumber'.symm), ih hnumbers hnumbers' hlines]

/-- Where the statements are numbered in order, the numbers in front of the lines say nothing that
the bare lines do not. -/
theorem shown_iff_bare {lines lines' : List DumpLine} {n m : Nat}
    (h : lines.filterMap DumpLine.number? = (List.range' 0 n).map some)
    (h' : lines'.filterMap DumpLine.number? = (List.range' 0 m).map some) :
    lines.map DumpLine.shown = lines'.map DumpLine.shown
      ↔ lines.map DumpLine.bare = lines'.map DumpLine.bare := by
  refine ⟨fun hshown => ?_, shown_of_bare h h'⟩
  have hbare (lines : List DumpLine) :
      lines.map DumpLine.bare = (lines.map DumpLine.shown).map DumpLine.bare := by
    rw [List.map_map]
    exact List.map_congr_left fun line _ => line.bare_shown.symm
  rw [hbare lines, hshown, ← hbare]

mutual

theorem Expr.numbers_lines (rest : List DumpLine) (depth : Nat) (slot : Option Nat) (e : Expr ι) :
    (e.linesThen rest depth slot).filterMap DumpLine.number? = rest.filterMap DumpLine.number? := by
  match e with
  | .node head children => exact Slots.numbers_lines rest (depth + 1) 0 children

theorem Slots.numbers_lines (rest : List DumpLine) (depth slot : Nat) {n : Nat} (s : Slots ι n) :
    (s.linesThen rest depth slot).filterMap DumpLine.number? = rest.filterMap DumpLine.number? := by
  match s with
  | .nil => rfl
  | .empty slots => exact Slots.numbers_lines rest depth (slot + 1) slots
  | .full child slots =>
    rw [Slots.linesThen, Expr.numbers_lines _ depth (some slot) child,
      Slots.numbers_lines rest depth (slot + 1) slots]

end

theorem exprList_numbers_lines (rest : List DumpLine) (depth : Nat) (es : List (Expr ι)) :
    (exprListLinesThen rest depth es).filterMap DumpLine.number? = rest.filterMap DumpLine.number? := by
  induction es with
  | nil => rfl
  | cons e es ih => exact (Expr.numbers_lines _ depth none e).trans ih

section

variable [DecidableEq ι] [Hashable ι] (numbers : StmtNumbers ι)

mutual

/-- The numbers printed by a scope are those of its statements in order. -/
theorem Scope.numbers_lines (rest : List DumpLine) (depth : Nat) (s : Scope ι) :
    (s.linesThen numbers rest depth).filterMap DumpLine.number?
      = s.allStmts.map (fun t => numbers[t.id]?) ++ rest.filterMap DumpLine.number? := by
  match s with
  | ⟨id, locals, stmts⟩ =>
    have hlocals : (locals.map fun l => DumpLine.mk depth (.localDecl l.name.val l.ty)).filterMap
        DumpLine.number? = [] := by
      rw [List.filterMap_map]
      exact List.filterMap_eq_nil_iff.mpr fun _ _ => rfl
    rw [Scope.linesThen, List.filterMap_append, hlocals, List.nil_append,
      stmtList_numbers_lines rest depth stmts, Scope.allStmts_mk]

theorem Stmt.numbers_lines (rest : List DumpLine) (depth : Nat) (s : Stmt ι) :
    (s.linesThen numbers rest depth).filterMap DumpLine.number?
      = s.allStmts.map (fun t => numbers[t.id]?) ++ rest.filterMap DumpLine.number? := by
  match s with
  | ⟨head, scope, exprs⟩ =>
    have hnumber : DumpLine.number? ⟨depth, head.dumpItem numbers⟩ = some numbers[head.id]? := rfl
    rw [Stmt.linesThen, List.filterMap_cons_some hnumber, nested_numbers_lines _ (depth + 1) scope,
      exprList_numbers_lines, Stmt.allStmts_mk, List.map_cons, List.cons_append]
    rfl

theorem stmtList_numbers_lines (rest : List DumpLine) (depth : Nat) (ss : List (Stmt ι)) :
    (stmtListLinesThen numbers rest depth ss).filterMap DumpLine.number?
      = (stmtListAllStmts ss).map (fun t => numbers[t.id]?) ++ rest.filterMap DumpLine.number? := by
  match ss with
  | [] => rfl
  | s :: ss =>
    rw [stmtListLinesThen, Stmt.numbers_lines _ depth s, stmtList_numbers_lines rest depth ss,
      stmtListAllStmts_cons, List.map_append, List.append_assoc]

theorem nested_numbers_lines (rest : List DumpLine) (depth : Nat) (s : Option (Scope ι)) :
    (nestedLinesThen numbers rest depth s).filterMap DumpLine.number?
      = (nestedAllStmts s).map (fun t => numbers[t.id]?) ++ rest.filterMap DumpLine.number? := by
  match s with
  | none => rfl
  | some s => exact Scope.numbers_lines rest depth s

end

/-- Statements of distinct identities are numbered by their places. -/
theorem getElem?_ofStmts {stmts : List (Stmt ι)} (h : (stmts.map Stmt.id).Nodup) :
    (StmtNumbers.ofStmts stmts).size = stmts.length
      ∧ ∀ t, (StmtNumbers.ofStmts stmts)[t]? = (stmts.map Stmt.id).idxOf? t := by
  -- The last statement gets the number of those before it, which is the place where it is found first.
  induction stmts using List.reverseRecOn with
  | nil => exact ⟨Std.HashMap.size_empty, fun t => Std.HashMap.getElem?_empty⟩
  | append_singleton stmts s ih =>
    rw [List.map_append, List.nodup_append] at h
    obtain ⟨hsize, hget⟩ := ih h.1
    have hnew : s.id ∉ stmts.map Stmt.id := fun hmem => h.2.2 _ hmem _ List.mem_cons_self rfl
    have hstep : StmtNumbers.ofStmts (stmts ++ [s])
        = (StmtNumbers.ofStmts stmts).insert s.id (StmtNumbers.ofStmts stmts).size := by
      rw [StmtNumbers.ofStmts, List.foldl_append]
      rfl
    have hindex (t : ι) : (List.map Stmt.id (stmts ++ [s])).idxOf? t
        = ((stmts.map Stmt.id).idxOf? t).or (if s.id = t then some stmts.length else none) := by
      rw [List.map_append, List.idxOf?, List.findIdx?_append, ← List.idxOf?, List.length_map]
      by_cases heq : s.id = t <;> simp [heq]
    rw [hstep]
    constructor
    · have hnone : s.id ∉ StmtNumbers.ofStmts stmts := by
        rw [Std.HashMap.mem_iff_isSome_getElem?, hget, List.idxOf?_eq_none_iff.mpr hnew]
        exact Bool.false_ne_true
      rw [Std.HashMap.size_insert, if_neg hnone, hsize, List.length_append, List.length_singleton]
    · intro t
      rw [hindex, Std.HashMap.getElem?_insert, hget, hsize]
      by_cases heq : s.id = t
      · have hnone := List.idxOf?_eq_none_iff.mpr (heq ▸ hnew)
        simp [heq, hnone]
      · simp [heq]

/-- In a list without repetition the element at each place is first met there. -/
theorem map_idxOf?_of_nodup {α : Type} [DecidableEq α] {as : List α} (h : as.Nodup) :
    as.map (as.idxOf? ·) = (List.range' 0 as.length).map some := by
  apply List.ext_getElem
  · rw [List.length_map, List.length_map, List.length_range']
  · intro i hi hi'
    rw [List.length_map] at hi
    rw [List.getElem_map, List.getElem_map, List.getElem_range', List.idxOf?_eq_some_iff]
    have hplace : 0 + 1 * i = i := by omega
    rw [hplace]
    exact ⟨hi, rfl, fun j hj heq => absurd (h.getElem_inj_iff.mp heq) (Nat.ne_of_lt hj)⟩

end

/-! ### Scopes that can be told apart -/

def Scope.texts (s : Scope ι) : List (Leaf ι Text) :=
  s.allLocals.map (·.name) ++ (s.allStmts.flatMap fun t => t.head.label.toList)
    ++ (s.allStmts.flatMap Stmt.ownExprs).flatMap Expr.ownTexts

/-- No local is a function, all texts are plain and no two statements have one identity. -/
structure Scope.Plain (s : Scope ι) : Prop where
  noFunctions : ∀ l ∈ s.allLocals, l.isFunction = false
  texts : ∀ t ∈ s.texts, t.val.Plain
  distinct : (s.allStmts.map Stmt.id).Nodup

def Stmt.Plain (s : Stmt ι) : Prop :=
  (∀ t ∈ s.head.label, t.val.Plain) ∧ ∀ e ∈ s.ownExprs, ∀ t ∈ e.ownTexts, t.val.Plain

mutual

theorem Expr.plain_lines {rest : List DumpLine} (h : ∀ line ∈ rest, line.Plain) (depth : Nat)
    (slot : Option Nat) (e : Expr ι) (he : ∀ x ∈ e.allExprs, ∀ t ∈ x.ownTexts, t.val.Plain) :
    ∀ line ∈ e.linesThen rest depth slot, line.Plain := by
  match e with
  | .node head children =>
    rw [Expr.allExprs, List.forall_mem_cons] at he
    rw [Expr.linesThen, List.forall_mem_cons]
    refine ⟨?_, Slots.plain_lines h (depth + 1) 0 children he.2⟩
    intro t ht
    have htexts : (head.dumpItem slot).texts = (Expr.node head children).ownTexts.map (·.val) := by
      obtain ⟨id, kind, value, ty, symbol, method⟩ := head
      cases symbol <;> cases method <;> rfl
    rw [htexts] at ht
    obtain ⟨leaf, hleaf, rfl⟩ := List.mem_map.mp ht
    exact he.1 leaf hleaf

theorem Slots.plain_lines {rest : List DumpLine} (h : ∀ line ∈ rest, line.Plain) (depth slot : Nat) {n : Nat}
    (s : Slots ι n) (hs : ∀ x ∈ s.allExprs, ∀ t ∈ x.ownTexts, t.val.Plain) :
    ∀ line ∈ s.linesThen rest depth slot, line.Plain := by
  match s with
  | .nil => exact h
  | .empty slots => exact Slots.plain_lines h depth (slot + 1) slots hs
  | .full child slots =>
    rw [Slots.allExprs, List.forall_mem_append] at hs
    exact Expr.plain_lines (Slots.plain_lines h depth (slot + 1) slots hs.2) depth (some slot) child hs.1

end

theorem exprList_plain_lines {rest : List DumpLine} (h : ∀ line ∈ rest, line.Plain) (depth : Nat)
    (es : List (Expr ι)) (hes : ∀ x ∈ es.flatMap Expr.allExprs, ∀ t ∈ x.ownTexts, t.val.Plain) :
    ∀ line ∈ exprListLinesThen rest depth es, line.Plain := by
  induction es with
  | nil => exact h
  | cons e es ih =>
    rw [List.flatMap_cons, List.forall_mem_append] at hes
    exact Expr.plain_lines (ih hes.2) depth none e hes.1

section

variable [DecidableEq ι] [Hashable ι] (numbers : StmtNumbers ι)

mutual

/-- Plain names make plain lines, so that no line break inside a text can be mistaken for the end
of a line. -/
theorem Scope.plain_lines {rest : List DumpLine} (h : ∀ line ∈ rest, line.Plain) (depth : Nat) (s : Scope ι)
    (hlocals : ∀ l ∈ s.allLocals, l.name.val.Plain) (hstmts : ∀ t ∈ s.allStmts, t.Plain) :
    ∀ line ∈ s.linesThen numbers rest depth, line.Plain := by
  match s with
  | ⟨id, locals, stmts⟩ =>
    rw [Scope.allLocals, List.forall_mem_append] at hlocals
    rw [Scope.linesThen, List.forall_mem_append, List.forall_mem_map]
    exact ⟨fun l hl => List.forall_mem_singleton.mpr (hlocals.1 l hl),
      stmtList_plain_lines h depth stmts hlocals.2 hstmts⟩

/-- A plain statement prints plain lines. -/
theorem Stmt.plain_lines {rest : List DumpLine} (h : ∀ line ∈ rest, line.Plain) (depth : Nat) (s : Stmt ι)
    (hlocals : ∀ l ∈ s.allLocals, l.name.val.Plain) (hstmts : ∀ t ∈ s.allStmts, t.Plain) :
    ∀ line ∈ s.linesThen numbers rest depth, line.Plain := by
  match s with
  | ⟨head, scope, exprs⟩ =>
    rw [Stmt.allStmts_mk, List.forall_mem_cons] at hstmts
    obtain ⟨⟨hlabel, hexprs⟩, hnested⟩ := hstmts
    rw [Stmt.linesThen, List.forall_mem_cons]
    refine ⟨?_, nested_plain_lines (exprList_plain_lines h (depth + 1) exprs hexprs) (depth + 1) scope hlocals
      hnested⟩
    intro t ht
    obtain ⟨leaf, hleaf, rfl⟩ := Option.map_eq_some_iff.mp (Option.mem_toList.mp ht)
    exact hlabel leaf hleaf

theorem stmtList_plain_lines {rest : List DumpLine} (h : ∀ line ∈ rest, line.Plain) (depth : Nat)
    (ss : List (Stmt ι)) (hlocals : ∀ l ∈ stmtListAllLocals ss, l.name.val.Plain)
    (hstmts : ∀ t ∈ stmtListAllStmts ss, t.Plain) :
    ∀ line ∈ stmtListLinesThen numbers rest depth ss, line.Plain := by
  match ss with
  | [] => exact h
  | s :: ss =>
    rw [stmtListAllLocals, List.forall_mem_append] at hlocals
    rw [stmtListAllStmts_cons, List.forall_mem_append] at hstmts
    exact Stmt.plain_lines (stmtList_plain_lines h depth ss hlocals.2 hstmts.2) depth s hlocals.1 hstmts.1

theorem nested_plain_lines {rest : List DumpLine} (h : ∀ line ∈ rest, line.Plain) (depth : Nat)
    (s : Option (Scope ι)) (hlocals : ∀ l ∈ nestedAllLocals s, l.name.val.Plain)
    (hstmts : ∀ t ∈ nestedAllStmts s, t.Plain) :
    ∀ line ∈ nestedLinesThen numbers rest depth s, line.Plain := by
  match s with
  | none => exact h
  | some s => exact Scope.plain_lines h depth s hlocals hstmts

end

end

section

variable [DecidableEq ι] [Hashable ι] {s : Scope ι}

/-- The whole dump of a plain scope is made of plain lines. -/
theorem Scope.Plain.dumpLines (h : s.Plain) (depth : Nat) : ∀ line ∈ s.dumpLines depth, line.Plain := by
  have htexts := h.texts
  rw [Scope.texts, List.forall_mem_append, List.forall_mem_append, List.forall_mem_map] at htexts
  obtain ⟨⟨hnames, hlabels⟩, hexprs⟩ := htexts
  refine Scope.plain_lines _ (fun _ hno => (List.not_mem_nil hno).elim) depth s hnames fun t ht => ⟨?_, ?_⟩
  · intro label hlabel
    exact hlabels label (List.mem_flatMap.mpr ⟨t, ht, Option.mem_toList.mpr hlabel⟩)
  · intro e he leaf hleaf
    exact hexprs leaf (List.mem_flatMap.mpr ⟨e, List.mem_flatMap.mpr ⟨t, ht, he⟩, hleaf⟩)

/-- The statements are numbered one after the other. -/
theorem Scope.Plain.numbers (h : s.Plain) (depth : Nat) :
    (s.dumpLines depth).filterMap DumpLine.number? = (List.range' 0 s.allStmts.length).map some := by
  have hnumbers : s.allStmts.map (fun t => (StmtNumbers.ofStmts s.allStmts)[t.id]?)
      = (s.allStmts.map Stmt.id).map ((s.allStmts.map Stmt.id).idxOf? ·) := by
    rw [List.map_map]
    exact List.map_congr_left fun t _ => (getElem?_ofStmts h.distinct).2 t.id
  rw [Scope.dumpLines, Scope.numbers_lines, hnumbers, map_idxOf?_of_nodup h.distinct, List.length_map,
    List.filterMap_nil, List.append_nil]

/-- The numbers that the printer looks up are those of the statements in the scope. -/
theorem Scope.Plain.normalBy_numbers (h : s.Plain) :
    s.normalBy (fun t => (StmtNumbers.ofStmts s.allStmts)[t]?) = s.normal :=
  congrArg s.normalBy (funext (getElem?_ofStmts h.distinct).2)

end

/-- Two plain scopes have one dump just if they are one but for their identities, their vacant nested scopes and
the structures that types name without being one. -/
theorem Scope.dump_eq_iff [DecidableEq ι] [Hashable ι] [DecidableEq κ] [Hashable κ] {a : Scope ι} {b : Scope κ}
    (ha : a.Plain) (hb : b.Plain) (depth : Nat) : a.dump depth = b.dump depth ↔ a.normal = b.normal := by
  have hbelow : Below (3 * depth + 1) [] := fun _ hno => nomatch hno
  rw [Scope.dump, Scope.dump, join_render_iff (ha.dumpLines depth) (hb.dumpLines depth),
    shown_iff_bare (ha.numbers depth) (hb.numbers depth), Scope.dumpLines, Scope.dumpLines,
    Scope.lines_iff _ _ a b ha.noFunctions hb.noFunctions hbelow hbelow, ha.normalBy_numbers,
    hb.normalBy_numbers]
  exact and_iff_left rfl

def strayBreak : Scope Nat :=
  let name := Text.takeText [105]
  ⟨0, [⟨1, ⟨2, name⟩, ⟨.i32, 0, 7, 0⟩, false⟩],
    [⟨⟨3, .whileLoop, some ⟨1, 1⟩, none, none, []⟩,
      some ⟨4, [], [⟨⟨5, .breakLoop, none, some 99, none, []⟩, some ⟨6, [], []⟩, []⟩]⟩,
      [.node ⟨7, .ident, 0, .scalar .i32, some ⟨8, name⟩, none⟩ (.none maxChildren)]⟩]⟩

def tidyBreak : Scope String :=
  let name := Text.takeText [105]
  ⟨"outer", [⟨"i", ⟨"name", name⟩, .scalar .i32, false⟩],
    [⟨⟨"loop", .whileLoop, some ⟨1, 1⟩, none, none, []⟩,
      some ⟨"inner", [], [⟨⟨"break", .breakLoop, none, some "elsewhere", none, []⟩, none, []⟩]⟩,
      [.node ⟨"test", .ident, 0, .scalar .i32, some ⟨"use", name⟩, none⟩ (.none maxChildren)]⟩]⟩

theorem dump_eq_iff_strayBreak :
    strayBreak.Plain ∧ tidyBreak.Plain ∧ strayBreak.normal = tidyBreak.normal
      ∧ strayBreak.dump 1 = tidyBreak.dump 1 := by
  have hname : (Text.takeText [105]).Plain := ⟨"i", by decide +kernel, by decide, by decide⟩
  have hstray : ∀ t ∈ strayBreak.texts, t.val = Text.takeText [105] := by decide
  have htidy : ∀ t ∈ tidyBreak.texts, t.val = Text.takeText [105] := by decide
  have hplain : strayBreak.Plain := ⟨by decide, fun t ht => hstray t ht ▸ hname, by decide⟩
  have hplain' : tidyBreak.Plain := ⟨by decide, fun t ht => htidy t ht ▸ hname, by decide⟩
  have hnormal : strayBreak.normal = tidyBreak.normal := by rfl
  exact ⟨hplain, hplain', hnormal, (Scope.dump_eq_iff hplain hplain' 1).mpr hnormal⟩

end TreePack
