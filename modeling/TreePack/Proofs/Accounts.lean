import Mathlib.Data.List.Nodup
import TreePack.Proofs.Compacting
import TreePack.Proofs.Counting

namespace TreePack

def Mark.isExpr : Mark → Bool
  | .expr => true
  | _ => false

def exprMarks (ms : List Mark) : Nat := ms.countP Mark.isExpr

@[simp] theorem exprMarks_append (ms ns : List Mark) : exprMarks (ms ++ ns) = exprMarks ms + exprMarks ns :=
  List.countP_append

theorem exprMarks_eq_zero {ms : List Mark} (h : ∀ m ∈ ms, m.isExpr = false) : exprMarks ms = 0 := by
  apply List.countP_eq_zero.mpr
  intro m hm
  rw [h m hm]
  exact Bool.false_ne_true

@[simp] theorem exprMarks_map {α : Type} (mark : α → Mark) (h : ∀ a, (mark a).isExpr = false) (xs : List α) :
    exprMarks (xs.map mark) = 0 := by
  apply exprMarks_eq_zero
  intro m hm
  obtain ⟨a, -, rfl⟩ := List.mem_map.mp hm
  exact h a

theorem exprMarks_rowMarks (what : Region) (stride : Nat) (os : List Offset) :
    exprMarks (rowMarks what stride os) = 0 := by
  cases os <;> rfl

theorem exprMarks_loopMark (head : StmtHead Offset) : exprMarks head.loopMark = 0 := by
  unfold StmtHead.loopMark
  split <;> rfl

mutual

/-- An expression tree leaves one expression mark for every node in it. -/
theorem Expr.exprMarks_eq (e : Expr Offset) : exprMarks e.marks = e.allExprs.length := by
  match e with
  | .node head children =>
    have hbelow := Slots.exprMarks_eq children
    have hsymbol := exprMarks_map (textMark .symbolName) (fun _ => rfl) head.symbol.toList
    have hmethod := exprMarks_map (textMark .methodName) (fun _ => rfl) head.method.toList
    -- The expression itself is noted between its span and its texts.
    calc
      exprMarks (Expr.node head children).marks = exprMarks (head.symbol.toList.map (textMark .symbolName)
          ++ (head.method.toList.map (textMark .methodName) ++ children.marks)) + 1 := by
        rw [Expr.marks, exprMarks, List.countP_cons, List.countP_cons]
        rfl
      _ = children.allExprs.length + 1 := by
        rw [exprMarks_append, exprMarks_append, hsymbol, hmethod, hbelow, Nat.zero_add, Nat.zero_add]
      _ = (Expr.node head children).allExprs.length := rfl

theorem Slots.exprMarks_eq {n : Nat} (s : Slots Offset n) : exprMarks s.marks = s.allExprs.length := by
  match s with
  | .nil => rfl
  | .empty slots => exact Slots.exprMarks_eq slots
  | .full child slots =>
    rw [Slots.marks, exprMarks_append, Expr.exprMarks_eq child, Slots.exprMarks_eq slots, Slots.allExprs,
      List.length_append]

end

theorem exprList_exprMarks_eq (exprs : List (Expr Offset)) :
    exprMarks (exprs.flatMap Expr.marks) = (exprs.flatMap Expr.allExprs).length := by
  induction exprs with
  | nil => rfl
  | cons e es ih =>
    rw [List.flatMap_cons, exprMarks_append, e.exprMarks_eq, ih, List.flatMap_cons, List.length_append]

mutual

/-- A scope leaves one expression mark for every expression of every statement below it. -/
theorem Scope.exprMarks_eq (s : Scope Offset) :
    exprMarks s.marks = (s.allStmts.flatMap Stmt.ownExprs).length := by
  match s with
  | ⟨id', locals, stmts⟩ =>
    have hbelow := stmtList_exprMarks_eq stmts
    have hnames := exprMarks_map (fun l : Local Offset => textMark .localName l.name) (fun _ => rfl) locals
    have hstmts := exprMarks_map (fun s : Stmt Offset => .stmt s.id) (fun _ => rfl) stmts
    have hself : exprMarks [.span ⟨id'.toNat, alignUp (Stored.size (ScopeRecord Offset)), .scope⟩] = 0 := rfl
    rw [Scope.marks, ← List.singleton_append, exprMarks_append, exprMarks_append, exprMarks_append,
      exprMarks_append, exprMarks_append, exprMarks_rowMarks, exprMarks_rowMarks, hself, hnames, hstmts, hbelow]
    simp only [Nat.zero_add, Scope.allStmts_mk]

theorem Stmt.exprMarks_eq (s : Stmt Offset) :
    exprMarks s.marks = (s.allStmts.flatMap Stmt.ownExprs).length := by
  match s with
  | ⟨head, scope, exprs⟩ =>
    have hnested := nested_exprMarks_eq scope
    have href := exprMarks_map (Mark.ref head.id) (fun _ => rfl) head.loop.toList
    have hlabel := exprMarks_map (textMark .label) (fun _ => rfl) head.label.toList
    rw [Stmt.marks, exprMarks_append, exprMarks_append, exprMarks_append, exprMarks_append, exprMarks_append,
      exprMarks_loopMark, exprList_exprMarks_eq, StmtHead.refMark, href, hnested, hlabel, exprMarks_rowMarks,
      Stmt.allStmts_mk, List.flatMap_cons, List.length_append, Stmt.ownExprs]
    simp only [Nat.zero_add, Nat.add_zero]

theorem stmtList_exprMarks_eq (ss : List (Stmt Offset)) :
    exprMarks (stmtListMarks ss) = ((stmtListAllStmts ss).flatMap Stmt.ownExprs).length := by
  match ss with
  | [] => rfl
  | s :: ss =>
    rw [stmtListMarks, exprMarks_append, Stmt.exprMarks_eq s, stmtList_exprMarks_eq ss, stmtListAllStmts_cons,
      List.flatMap_append, List.length_append]

theorem nested_exprMarks_eq (s : Option (Scope Offset)) :
    exprMarks (nestedMarks s) = ((nestedAllStmts s).flatMap Stmt.ownExprs).length := by
  match s with
  | none => rfl
  | some s => exact Scope.exprMarks_eq s

end

/-- A function has as many marks of expressions as it has expressions. -/
theorem Function.exprMarks_eq (f : Function Offset) : exprMarks f.marks = f.exprs.length := by
  rw [Function.marks, exprMarks_append, Scope.exprMarks_eq, exprMarks_map argMark (fun _ => rfl), Nat.add_zero,
    Function.exprs]

/-- The verifier counts an expression exactly when it marks one. -/
theorem Findings.exprCount_markAll (f : Findings) (ms : List Mark) :
    (f.markAll ms).exprCount = f.exprCount + exprMarks ms := by
  induction ms generalizing f with
  | nil => rfl
  | cons m ms ih =>
    rw [markAll, ih, exprMarks, exprMarks, List.countP_cons]
    cases m <;> simp only [mark, Mark.isExpr, Bool.false_eq_true, ↓reduceIte] <;> omega

/-- A set with just the elements of a list without repetitions is as large as the list is long. -/
theorem size_eq_length_of_contains {α : Type} [DecidableEq α] [Hashable α] {s : Std.HashSet α} {xs : List α}
    (hnodup : xs.Nodup) (hmem : ∀ a, s.contains a ↔ a ∈ xs) : s.size = xs.length := by
  have hperm : s.toList.Perm xs := by
    have hdistinct : s.toList.Nodup := s.distinct_toList.imp fun h => beq_eq_false_iff_ne.mp h
    apply (List.perm_ext_iff_of_nodup hdistinct hnodup).mpr
    intro a
    rw [Std.HashSet.mem_toList, ← Std.HashSet.contains_iff_mem, hmem]
  rw [← Std.HashSet.length_toList, hperm.length_eq]

/-- The report only counts what the findings hold. -/
theorem finish_eq_ok {p : Packed} {f : Findings} {report : Report} (h : Check.finish p f = .ok report) :
    report = ⟨f.spans.size, f.stmts.size, f.exprCount⟩ := by
  obtain ⟨_, -, h⟩ := exists_of_bind_eq_ok h
  obtain ⟨_, -, h⟩ := exists_of_bind_eq_ok h
  exact (Except.ok.inj h).symm

section

variable {ι : Type} (place : ι → Offset)

mutual

theorem Expr.allExprs_stored (e : Expr ι) :
    (e.stored place).allExprs = e.allExprs.map (Expr.stored place) := by
  match e with
  | .node head children =>
    rw [Expr.allExprs, List.map_cons, ← Slots.allExprs_stored children]
    rfl

theorem Slots.allExprs_stored {n : Nat} (s : Slots ι n) :
    (s.stored place).allExprs = s.allExprs.map (Expr.stored place) := by
  match s with
  | .nil => rfl
  | .empty slots => exact Slots.allExprs_stored slots
  | .full child slots =>
    rw [Slots.stored, Slots.allExprs, Slots.allExprs, Expr.allExprs_stored child, Slots.allExprs_stored slots,
      List.map_append]

end

/-- Storing a tree renames its expressions and changes neither their number nor their order. -/
theorem Function.exprs_stored (f : Function ι) :
    (f.stored place).exprs = f.exprs.map (Expr.stored place) := by
  have hown (s : Stmt ι) : (s.stored place).ownExprs = s.ownExprs.map (Expr.stored place) := by
    rw [Stmt.ownExprs, Stmt.ownExprs, Stmt.exprs_stored, List.flatMap_map, List.map_flatMap]
    exact congrFun (congrArg List.flatMap (funext (Expr.allExprs_stored place))) s.exprs
  rw [Function.exprs, Function.exprs, Function.stored, Scope.allStmts_stored, List.flatMap_map, List.map_flatMap]
  exact congrFun (congrArg List.flatMap (funext hown)) _

end

/-- A check of a relocated function reports its pieces, its statements and its expressions. -/
theorem Packed.Relocates.verify_eq {ι : Type} {p : Packed} {place : ι → Offset} {f : Function ι}
    (h : p.Relocates place f) (hwell : f.WellFormed) :
    p.verify = .ok ⟨f.pieces.length, f.scope.allStmts.length, f.exprs.length⟩ := by
  let g := f.stored place
  have hrun : Check.checkAll p Findings.empty = .ok () (Findings.empty.markAll g.marks) :=
    Packed.checkAll_of_relocates h.stored hwell.stored
  obtain ⟨report, hverify⟩ := h.exists_report hwell
  have hreport := hverify
  rw [Packed.verify, hrun] at hreport
  have hspans : (Findings.empty.markAll g.marks).spans.size = f.pieces.length := by
    calc
      (Findings.empty.markAll g.marks).spans.size = (g.marks.filterMap Mark.span?).length := by
        rw [← Array.length_toList, Findings.spans_markAll]
        rfl
      _ = (extentsOf g.marks).length := by rw [extentsOf, List.length_map]
      _ = g.pieces.length := by rw [g.extents_perm.length_eq, List.length_map]
      _ = f.pieces.length := by rw [f.pieces_stored, List.length_map]
  have hstmts : (Findings.empty.markAll g.marks).stmts.size = f.scope.allStmts.length := by
    -- The check collects statements in a set, so their offsets have to be distinct.
    have hids : (idsOf g.pieces).Nodup := List.Nodup.of_map _ h.stored.nodup
    have hmem : ∀ o, (Findings.empty.markAll g.marks).stmts.contains o ↔ o ∈ g.scope.allStmts.map Stmt.id := by
      intro o
      rw [Findings.contains_stmts_markAll, g.stmt_mem_marks_iff, List.mem_map]
      exact or_iff_right (by simp [Findings.empty])
    rw [size_eq_length_of_contains (Function.nodup_stmts hids) hmem, List.length_map]
    change (f.scope.stored place).allStmts.length = _
    rw [Scope.allStmts_stored, List.length_map]
  have hexprs : (Findings.empty.markAll g.marks).exprCount = f.exprs.length := by
    rw [Findings.exprCount_markAll, g.exprMarks_eq, f.exprs_stored, List.length_map]
    exact Nat.zero_add _
  rw [hverify, finish_eq_ok hreport, hspans, hstmts, hexprs]

variable {ι : Type} [DecidableEq ι] [Hashable ι]

/-- The counts of a plan, of the compaction that it belongs to and of a check of the result agree with each other
and with the inventory of the function. -/
structure Account (f : Function ι) (planned : Context ι) (stats : Stats) (p : Packed) (report : Report) :
    Prop where
  reservations : stats.reservations = planned.reservations.size
  writes : stats.writes = planned.reservations.size
  released : stats.released = planned.reservations.size
  spans : report.spans = planned.reservations.size
  entries : stats.ledgerEntries = planned.reservations.toList.foldr (fun r n => r.count + n) 0
  nodes : stats.ledgerEntries = f.nodeCount
  duplicates : planned.ledger.duplicates = 0
  bytes : stats.blockBytes = p.block.size
  lengths : stats.blockBytes = planned.reservations.toList.foldr (fun r n => r.len + n) 0
  statements : report.statements = f.scope.allStmts.length
  expressions : report.expressions = f.exprs.length

namespace Decl

variable {options : Options} {allocator : Allocator ι} {f : Function ι}

/-- When a function is compacted, the plan, the compaction and a check of the result keep one account. -/
theorem compact_account {d d' : Decl ι} {stats : Stats} (hbody : d.body = some (.tree f))
    (h : compact options allocator d = (.ok (.compacted stats), d')) :
    ∃ size planned p report, Context.plan f Context.empty = .ok size planned
      ∧ d'.body = some (.packed p) ∧ p.verify = .ok report ∧ Account f planned stats p report := by
  cases hrefusal : refusal? options allocator f with
  | some e => cases (compact_of_tree hbody (compactTree_of_refused hrefusal)).symm.trans h
  | none =>
    obtain ⟨size, planned, block, hplan, hlimit, halloc, hsize⟩ := refusal?_eq_none_iff.mp hrefusal
    obtain ⟨stop, hrun, hcompact⟩ := compactTree_of_plan hplan hlimit halloc hsize
    cases (compact_of_tree hbody hcompact).symm.trans h
    have hplanned := Context.plan_run hplan
    have hrelocates := hplanned.relocates hsize hrun
    have hids : (idsOf f.pieces).Nodup := List.Nodup.of_map _ hrelocates.nodup
    obtain ⟨hentries, hduplicates⟩ := Context.entries_of_plan hids hplan
    -- Writing adds to the counts that the plan has left behind.
    have hstats := hrun.stats
    simp only [f.foldl_count, (Context.stats_of_plan hplan).2] at hstats
    refine ⟨size, planned, _, _, hplan, rfl, hrelocates.verify_eq hplanned.wellFormed, ?_⟩
    constructor
    case reservations => rw [hstats]
    case writes => rw [hstats, hplanned.size_reservations]; exact Nat.zero_add _
    case released => rw [hstats, hplanned.size_reservations]; exact Nat.zero_add _
    case spans => exact hplanned.size_reservations.symm
    case entries => rw [hstats, hplanned.reservations, sum_counts_reservationsFrom]; exact hentries
    case nodes => rw [hstats, ← f.length_cells]; exact hentries
    case duplicates => exact hduplicates
    case bytes => rw [hstats]; exact (hrun.size.trans hsize).symm
    case lengths => rw [hstats, hplanned.reservations, sum_lens_reservationsFrom]; exact hplanned.size_eq
    case statements => rfl
    case expressions => rfl

end Decl

theorem exists_compact_breakInLoop :
    ∃ stats d', Decl.compact Options.standard Allocator.heap breakInLoopDecl = (.ok (.compacted stats), d') := by
  obtain ⟨size, planned, hplan, hmax⟩ := exists_plan_breakInLoop Context.empty
  obtain ⟨block, hheap, hsize⟩ := Allocator.heap_ok (ι := Nat) hmax
  obtain ⟨stop, -, hcompact⟩ := Decl.compactTree_of_plan hplan (Options.le_standard hmax) hheap hsize
  exact ⟨stop.stats, _, Decl.compact_of_tree rfl hcompact⟩

theorem compact_account_breakInLoop :
    ∃ stats d', Decl.compact Options.standard Allocator.heap breakInLoopDecl = (.ok (.compacted stats), d')
      ∧ ∃ size planned p report, Context.plan breakInLoop Context.empty = .ok size planned
        ∧ d'.body = some (.packed p) ∧ p.verify = .ok report ∧ Account breakInLoop planned stats p report := by
  obtain ⟨stats, d', hcompact⟩ := exists_compact_breakInLoop
  exact ⟨stats, d', hcompact, Decl.compact_account rfl hcompact⟩

/-- A loop with a break has two scopes, a local, two statements, an expression, two texts and an argument. -/
example : breakInLoop.nodeCount = 9 ∧ breakInLoop.pieces.length = 9 := by decide

end TreePack
