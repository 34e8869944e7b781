import Mathlib.Data.List.Nodup
import TreePack.Proofs.Plannable

namespace TreePack

variable {ι : Type}

/-! ### Why a tree is refused -/

def Local.defect? (l : Local ι) : Option (Malformed ι) :=
  if l.isFunction then some (.functionLocal l.name.val.display) else none

def exprsDefect? (exprs : List (Expr ι)) : Option (Malformed ι) :=
  if maxExprs < exprs.length then some (.tooManyExpressions exprs.length maxExprs) else none

mutual

/-- What is wrong with the locals and statements of a scope: all locals come before the statements, and each
statement comes before its nested scope. -/
def Scope.shapeDefects : Scope ι → List (Malformed ι)
  | ⟨_, locals, stmts⟩ => locals.filterMap Local.defect? ++ stmtListShapeDefects stmts

def Stmt.shapeDefects : Stmt ι → List (Malformed ι)
  | ⟨_, scope, exprs⟩ => (exprsDefect? exprs).toList ++ nestedShapeDefects scope

def stmtListShapeDefects : List (Stmt ι) → List (Malformed ι)
  | [] => []
  | s :: ss => s.shapeDefects ++ stmtListShapeDefects ss

def nestedShapeDefects : Option (Scope ι) → List (Malformed ι)
  | none => []
  | some s => s.shapeDefects

end

namespace Function

def NamesLoop (f : Function ι) (target : ι) : Prop :=
  ∃ t ∈ f.scope.allStmts, t.id = target ∧ t.head.kind.isLoopTarget

inductive BadRef (f : Function ι) (target : ι) : Malformed ι → Prop where
  /-- No node of the function is the target. -/
  | dangling (h : target ∉ idsOf f.pieces) : f.BadRef target (.danglingLoopRef target)
  /-- The target is a node of another kind. -/
  | notStatement (c : Leaf ι (Cell ι)) (hmem : c ∈ cellsOf f.pieces) (hid : c.id = target)
      (hkind : c.val.kind ≠ .stmt) : f.BadRef target (.loopRefNotStatement target)
  /-- The target is a statement that does not loop. -/
  | notLoop (t : Stmt ι) (hmem : t ∈ f.scope.allStmts) (hid : t.id = target)
      (hkind : ¬t.head.kind.isLoopTarget) : f.BadRef target (.loopRefNotLoop target)

/-- The reason for which a function is refused. -/
inductive Refused (f : Function ι) : Malformed ι → Prop where
  /-- The first local or statement that cannot be packed comes before all loop references. -/
  | shape (d : Malformed ι) (others : List (Malformed ι)) (h : f.scope.shapeDefects = d :: others) :
      f.Refused d
  /-- Without any, it is the first statement whose loop reference names no loop. -/
  | loop (hshape : f.scope.shapeDefects = []) (before after : List (Stmt ι)) (s : Stmt ι) (target : ι)
      (d : Malformed ι) (hstmts : f.scope.allStmts = before ++ s :: after)
      (hbefore : ∀ t ∈ before, ∀ target ∈ t.head.loop, f.NamesLoop target)
      (hloop : s.head.loop = some target) (hbad : f.BadRef target d) : f.Refused d

end Function

/-! ### What the walk meets -/

def Visit.defect? : Visit ι → Option (Malformed ι)
  | .enterLocal l => l.defect?
  | .enterStmt s => exprsDefect? s.exprs
  | .place _ | .leave => none

/-- A step is allowed if there is no defect in what it enters. -/
theorem Visit.defect?_eq_none_iff (v : Visit ι) : v.defect? = none ↔ v.Allowed := by
  cases v with
  | enterLocal l => simp [Visit.defect?, Local.defect?, Visit.Allowed]
  | enterStmt s => simp [Visit.defect?, exprsDefect?, Visit.Allowed]
  | place p => simp [Visit.defect?, Visit.Allowed]
  | leave => simp [Visit.defect?, Visit.Allowed]

def defectsOf (vs : List (Visit ι)) : List (Malformed ι) := vs.filterMap Visit.defect?

@[simp] theorem defectsOf_place (p : Piece ι) (vs : List (Visit ι)) :
    defectsOf (.place p :: vs) = defectsOf vs := rfl

@[simp] theorem defectsOf_leave (vs : List (Visit ι)) : defectsOf (.leave :: vs) = defectsOf vs := rfl

theorem defectsOf_cons (v : Visit ι) (vs : List (Visit ι)) :
    defectsOf (v :: vs) = v.defect?.toList ++ defectsOf vs := by
  rw [defectsOf, List.filterMap_cons]
  cases v.defect? <;> rfl

@[simp] theorem defectsOf_text (rest : List (Visit ι)) (t : Leaf ι Text) :
    defectsOf (textVisitsThen rest t) = defectsOf rest := rfl

@[simp] theorem defectsOf_optionText (rest : List (Visit ι)) (t : Option (Leaf ι Text)) :
    defectsOf (optionTextVisitsThen rest t) = defectsOf rest := by
  cases t <;> rfl

theorem defectsOf_locals (rest : List (Visit ι)) (locals : List (Local ι)) :
    defectsOf (localVisitsThen rest locals) = locals.filterMap Local.defect? ++ defectsOf rest := by
  induction locals with
  | nil => rfl
  | cons l locals ih =>
    change defectsOf (.enterLocal l :: textVisitsThen (localVisitsThen rest locals) l.name) = _
    rw [defectsOf_cons, defectsOf_text, ih, List.filterMap_cons]
    change l.defect?.toList ++ _ = _
    cases l.defect? <;> rfl

theorem defectsOf_array (cells : List (Leaf ι (Cell ι))) (contents : List (Visit ι) → List (Visit ι))
    (inner : List (Malformed ι)) (rest : List (Visit ι))
    (hcontents : ∀ rest, defectsOf (contents rest) = inner ++ defectsOf rest)
    (hempty : cells = [] → inner = []) :
    defectsOf (arrayVisitsThen cells contents rest) = inner ++ defectsOf rest := by
  cases cells with
  | nil => rw [hempty rfl]; rfl
  | cons first others => rw [arrayVisitsThen, defectsOf_place, hcontents, defectsOf_leave]

@[simp] theorem defectsOf_switch (rest : List (Visit ι)) (labels : List (Leaf ι UInt64)) :
    defectsOf (switchVisitsThen rest labels) = defectsOf rest :=
  defectsOf_array _ (fun rest => rest) [] rest (fun _ => rfl) fun _ => rfl

mutual

theorem Expr.defectsOf_visits (rest : List (Visit ι)) (e : Expr ι) :
    defectsOf (e.visitsThen rest) = defectsOf rest := by
  match e with
  | .node head children =>
    rw [Expr.visitsThen, defectsOf_place, defectsOf_optionText, defectsOf_optionText,
      Slots.defectsOf_visits (.leave :: rest) children, defectsOf_leave]

theorem Slots.defectsOf_visits (rest : List (Visit ι)) {n : Nat} (s : Slots ι n) :
    defectsOf (s.visitsThen rest) = defectsOf rest := by
  match s with
  | .nil => rfl
  | .empty slots => exact Slots.defectsOf_visits rest slots
  | .full child slots =>
    rw [Slots.visitsThen, Expr.defectsOf_visits _ child, Slots.defectsOf_visits rest slots]

end

@[simp] theorem defectsOf_exprs (rest : List (Visit ι)) (exprs : List (Expr ι)) :
    defectsOf (exprListVisitsThen rest exprs) = defectsOf rest := by
  induction exprs with
  | nil => rfl
  | cons e exprs ih => exact (e.defectsOf_visits _).trans ih

mutual

/-- The defects met along the walk of a scope are those of its shape, in the order of the walk:
all declarations before the first statement. -/
theorem Scope.defectsOf_visits (rest : List (Visit ι)) (s : Scope ι) :
    defectsOf (s.visitsThen rest) = s.shapeDefects ++ defectsOf rest := by
  match s with
  | ⟨id, locals, stmts⟩ =>
    have hlocals (rest : List (Visit ι)) := defectsOf_array (localCells locals)
      (fun rest => localVisitsThen rest locals) _ rest (fun rest => defectsOf_locals rest locals)
      (fun h => by rw [List.map_eq_nil_iff.mp h]; rfl)
    have hstmts (rest : List (Visit ι)) := defectsOf_array (stmtCells stmts)
      (fun rest => stmtListVisitsThen rest stmts) _ rest (fun rest => stmtList_defectsOf_visits rest stmts)
      (fun h => by rw [List.map_eq_nil_iff.mp h]; rfl)
    rw [localCells] at hlocals
    rw [stmtCells] at hstmts
    rw [Scope.visitsThen, defectsOf_place, hlocals, hstmts, defectsOf_leave, Scope.shapeDefects,
      List.append_assoc]

theorem Stmt.defectsOf_visits (rest : List (Visit ι)) (s : Stmt ι) :
    defectsOf (s.visitsThen rest) = s.shapeDefects ++ defectsOf rest := by
  match s with
  | ⟨head, scope, exprs⟩ =>
    rw [Stmt.visitsThen, defectsOf_cons, nested_defectsOf_visits _ scope, defectsOf_exprs,
      defectsOf_optionText, defectsOf_switch, Stmt.shapeDefects, List.append_assoc]
    rfl

theorem stmtList_defectsOf_visits (rest : List (Visit ι)) (ss : List (Stmt ι)) :
    defectsOf (stmtListVisitsThen rest ss) = stmtListShapeDefects ss ++ defectsOf rest := by
  match ss with
  | [] => rfl
  | s :: ss =>
    rw [stmtListVisitsThen, Stmt.defectsOf_visits _ s, stmtList_defectsOf_visits rest ss,
      stmtListShapeDefects, List.append_assoc]

theorem nested_defectsOf_visits (rest : List (Visit ι)) (s : Option (Scope ι)) :
    defectsOf (nestedVisitsThen rest s) = nestedShapeDefects s ++ defectsOf rest := by
  match s with
  | none => rfl
  | some s => exact Scope.defectsOf_visits rest s

end

theorem defectsOf_args (rest : List (Visit ι)) (args : List (Leaf ι TypeDesc)) :
    defectsOf (argVisitsThen rest args) = defectsOf rest := by
  induction args with
  | nil => rfl
  | cons t args ih => exact ih

/-- The defects met along the walk of a tree are those of its shape. -/
theorem defectsOf_visits (f : Function ι) : defectsOf f.visits = f.scope.shapeDefects := by
  rw [Function.visits, Scope.defectsOf_visits, defectsOf_args]
  exact List.append_nil _

/-- Nothing is wrong with a shape just if no local is a function and no statement has too many expressions. -/
theorem Function.shapeDefects_eq_nil_iff (f : Function ι) :
    f.scope.shapeDefects = []
      ↔ (∀ l ∈ f.scope.allLocals, l.isFunction = false)
        ∧ ∀ s ∈ f.scope.allStmts, s.exprs.length ≤ maxExprs := by
  have hwalk := forall_visits (P := Visit.Allowed) (fun _ => trivial) trivial f
  rw [← defectsOf_visits, defectsOf, List.filterMap_eq_nil_iff]
  simp only [Visit.defect?_eq_none_iff]
  exact hwalk

/-! ### Cells of statements -/

theorem mem_of_mem_arrayPieces {cells : List (Leaf ι (Cell ι))} {p : Piece ι} (hp : p ∈ arrayPieces cells)
    {c : Leaf ι (Cell ι)} (hc : c ∈ p.cells) : c ∈ cells := by
  cases cells with
  | nil => cases hp
  | cons first others =>
    rw [List.mem_singleton.mp hp] at hc
    exact hc

theorem kind_of_mem_textPiece {t : Leaf ι Text} {c : Leaf ι (Cell ι)} (hc : c ∈ (textPiece t).cells) :
    c.val.kind = .text := by
  rw [cells_textPiece, List.mem_singleton] at hc
  rw [hc]
  rfl

theorem kind_of_mem_texts {ts : List (Leaf ι Text)} {p : Piece ι} (hp : p ∈ ts.map textPiece)
    {c : Leaf ι (Cell ι)} (hc : c ∈ p.cells) : c.val.kind = .text := by
  obtain ⟨t, -, rfl⟩ := List.mem_map.mp hp
  exact kind_of_mem_textPiece hc

mutual

/-- No cell of an expression is a statement. -/
theorem Expr.kind_ne_stmt (e : Expr ι) : ∀ p ∈ e.pieces, ∀ c ∈ p.cells, c.val.kind ≠ .stmt := by
  match e with
  | .node head children =>
    intro p hp c hc
    simp only [Expr.pieces, List.mem_cons, List.mem_append] at hp
    rcases hp with rfl | (hp | hp) | hp
    · rw [cells_single, List.mem_singleton] at hc
      rw [hc]
      exact nofun
    · rw [kind_of_mem_texts hp hc]
      exact nofun
    · rw [kind_of_mem_texts hp hc]
      exact nofun
    · exact Slots.kind_ne_stmt children p hp c hc

theorem Slots.kind_ne_stmt {n : Nat} (s : Slots ι n) :
    ∀ p ∈ s.pieces, ∀ c ∈ p.cells, c.val.kind ≠ .stmt := by
  match s with
  | .nil => exact fun _ h => (List.not_mem_nil h).elim
  | .empty slots => exact Slots.kind_ne_stmt slots
  | .full child slots =>
    intro p hp
    rcases List.mem_append.mp hp with hp | hp
    · exact Expr.kind_ne_stmt child p hp
    · exact Slots.kind_ne_stmt slots p hp

end

mutual

/-- A cell that is a statement's is that of a statement of the scope. -/
theorem Scope.exists_stmt_of_cell (s : Scope ι) :
    ∀ p ∈ s.pieces, ∀ c ∈ p.cells, c.val.kind = .stmt → ∃ t ∈ s.allStmts, c = ⟨t.id, t.cell⟩ := by
  match s with
  | ⟨id, locals, stmts⟩ =>
    intro p hp c hc hkind
    simp only [Scope.pieces, List.mem_cons, List.mem_append] at hp
    rcases hp with rfl | ((hp | hp) | hp) | hp
    · rw [cells_single, List.mem_singleton] at hc
      rw [hc] at hkind
      cases hkind
    · obtain ⟨l, -, rfl⟩ := List.mem_map.mp (mem_of_mem_arrayPieces hp hc)
      cases hkind
    · obtain ⟨l, -, rfl⟩ := List.mem_map.mp hp
      rw [kind_of_mem_textPiece hc] at hkind
      cases hkind
    · obtain ⟨t, ht, rfl⟩ := List.mem_map.mp (mem_of_mem_arrayPieces hp hc)
      exact ⟨t, mem_stmtListAllStmts ht, rfl⟩
    · exact stmtList_exists_stmt_of_cell stmts p hp c hc hkind

theorem Stmt.exists_stmt_of_cell (s : Stmt ι) :
    ∀ p ∈ s.pieces, ∀ c ∈ p.cells, c.val.kind = .stmt → ∃ t ∈ s.allStmts, c = ⟨t.id, t.cell⟩ := by
  match s with
  | ⟨head, scope, exprs⟩ =>
    intro p hp c hc hkind
    simp only [Stmt.pieces, List.mem_append, List.mem_flatMap] at hp
    rcases hp with ((hp | ⟨e, -, hp⟩) | hp) | hp
    · obtain ⟨t, ht, hcell⟩ := nested_exists_stmt_of_cell scope p hp c hc hkind
      exact ⟨t, List.mem_cons_of_mem _ ht, hcell⟩
    · exact absurd hkind (e.kind_ne_stmt p hp c hc)
    · rw [kind_of_mem_texts hp hc] at hkind
      cases hkind
    · obtain ⟨n, -, rfl⟩ := List.mem_map.mp (mem_of_mem_arrayPieces hp hc)
      cases hkind

theorem stmtList_exists_stmt_of_cell (ss : List (Stmt ι)) :
    ∀ p ∈ stmtListPieces ss, ∀ c ∈ p.cells, c.val.kind = .stmt →
      ∃ t ∈ stmtListAllStmts ss, c = ⟨t.id, t.cell⟩ := by
  match ss with
  | [] => exact fun _ h => (List.not_mem_nil h).elim
  | s :: ss =>
    intro p hp c hc hkind
    rw [stmtListAllStmts_cons]
    rcases List.mem_append.mp hp with hp | hp
    · obtain ⟨t, ht, hcell⟩ := Stmt.exists_stmt_of_cell s p hp c hc hkind
      exact ⟨t, List.mem_append_left _ ht, hcell⟩
    · obtain ⟨t, ht, hcell⟩ := stmtList_exists_stmt_of_cell ss p hp c hc hkind
      exact ⟨t, List.mem_append_right _ ht, hcell⟩

theorem nested_exists_stmt_of_cell (s : Option (Scope ι)) :
    ∀ p ∈ nestedPieces s, ∀ c ∈ p.cells, c.val.kind = .stmt →
      ∃ t ∈ nestedAllStmts s, c = ⟨t.id, t.cell⟩ := by
  match s with
  | none => exact fun _ h => (List.not_mem_nil h).elim
  | some s => exact Scope.exists_stmt_of_cell s

end

/-- A cell of the statement kind is the record of a statement of the tree. -/
theorem Function.exists_stmt_of_cell (f : Function ι) {c : Leaf ι (Cell ι)} (hc : c ∈ cellsOf f.pieces)
    (hkind : c.val.kind = .stmt) : ∃ t ∈ f.scope.allStmts, c = ⟨t.id, t.cell⟩ := by
  obtain ⟨p, hp, hcell⟩ := List.mem_flatMap.mp hc
  rcases List.mem_append.mp hp with hp | hp
  · exact f.scope.exists_stmt_of_cell p hp c hcell hkind
  · obtain ⟨t, -, rfl⟩ := List.mem_map.mp hp
    rw [argPiece, cells_single, List.mem_singleton] at hcell
    rw [hcell] at hkind
    cases hkind

/-- Of distinct identities, each belongs to one cell. -/
theorem eq_of_mem_cellsOf {ps : List (Piece ι)} (hids : (idsOf ps).Nodup) {c d : Leaf ι (Cell ι)}
    (hc : c ∈ cellsOf ps) (hd : d ∈ cellsOf ps) (hid : c.id = d.id) : c = d := by
  rw [← map_id_cellsOf] at hids
  exact List.inj_on_of_nodup_map hids hc hd hid

/-- Statements with one identity have one kind, which their record holds. -/
theorem Function.kind_eq_of_id_eq (f : Function ι) (hids : (idsOf f.pieces).Nodup) {s t : Stmt ι}
    (hs : s ∈ f.scope.allStmts) (ht : t ∈ f.scope.allStmts) (hid : s.id = t.id) :
    s.head.kind = t.head.kind := by
  have hcells := eq_of_mem_cellsOf hids (f.stmt_mem_cellsOf hs) (f.stmt_mem_cellsOf ht) hid
  have hraw : s.head.kind.toRaw = t.head.kind.toRaw := by
    injection hcells with _ hcell
    injection hcell with hrecord
    exact congrArg StmtRecord.kind hrecord
  have hsome : some s.head.kind = some t.head.kind := by
    rw [← StmtKind.ofRaw?_toRaw, hraw, StmtKind.ofRaw?_toRaw]
  exact Option.some.inj hsome

/-! ### What the ledger knows of a loop reference -/

variable [DecidableEq ι] [Hashable ι]

section

variable {f : Function ι} {ledger : Ledger ι} (hids : (idsOf f.pieces).Nodup)
  (hentered : Ledger.Entered Ledger.empty ledger (cellsOf f.pieces))

include hentered

/-- A node without an entry is no node of the function. -/
theorem Ledger.Entered.entry?_eq_none_iff {target : ι} :
    ledger.entry? target = none ↔ target ∉ idsOf f.pieces := by
  rw [← map_id_cellsOf]
  constructor
  · intro hnone hmem
    obtain ⟨c, hc, rfl⟩ := List.mem_map.mp hmem
    obtain ⟨o, hentry⟩ := hentered.cells c hc
    cases hentry.symm.trans hnone
  · intro hnot
    exact (hentered.others target hnot).trans Std.HashMap.getElem?_empty

/-- The ledger knows the identities of the function and no others. -/
theorem Ledger.Entered.exists_cell {target : ι} {entry : LedgerEntry}
    (h : ledger.entry? target = some entry) :
    ∃ c ∈ cellsOf f.pieces, c.id = target ∧ c.val.kind = entry.kind := by
  have hmem : target ∈ (cellsOf f.pieces).map (·.id) := by
    rw [map_id_cellsOf]
    by_contra hnot
    rw [hentered.entry?_eq_none_iff.mpr hnot] at h
    cases h
  obtain ⟨c, hc, rfl⟩ := List.mem_map.mp hmem
  obtain ⟨o, hentry⟩ := hentered.cells c hc
  rw [hentry] at h
  cases h
  exact ⟨c, hc, rfl, rfl⟩

theorem loopDefect?_eq_none_iff_namesLoop (target : ι) :
    loopDefect? ledger (loopTargets f.scope.allStmts) target = none ↔ f.NamesLoop target := by
  rw [loopDefect?_eq_none_iff, mem_loopTargets_iff]
  constructor
  · exact And.right
  · rintro ⟨t, ht, rfl, hkind⟩
    obtain ⟨o, hentry⟩ := hentered.cells _ (f.stmt_mem_cellsOf ht)
    exact ⟨⟨_, hentry, rfl⟩, t, ht, rfl, hkind⟩

/-- A loop reference that is refused is a bad one, in the way it is refused for. -/
theorem badRef_of_loopDefect? {target : ι} {d : Malformed ι}
    (h : loopDefect? ledger (loopTargets f.scope.allStmts) target = some d) : f.BadRef target d := by
  unfold loopDefect? at h
  cases hentry : ledger.entry? target with
  | none =>
    rw [hentry] at h
    cases h
    exact .dangling (hentered.entry?_eq_none_iff.mp hentry)
  | some entry =>
    obtain ⟨c, hc, hid, hkind⟩ := hentered.exists_cell hentry
    rw [hentry] at h
    by_cases hstmt : entry.kind = .stmt
    · -- The only statement that is not refused is one of a loop kind.
      obtain ⟨t, ht, rfl⟩ := f.exists_stmt_of_cell hc (hkind.trans hstmt)
      by_cases hloop : (loopTargets f.scope.allStmts).contains target
      · simp [hstmt, hloop] at h
      · simp only [hstmt, hloop, ne_eq, not_true_eq_false, ↓reduceIte, Bool.false_eq_true] at h
        cases h
        refine .notLoop t ht hid fun htarget => ?_
        exact hloop ((mem_loopTargets_iff _ _).mpr ⟨t, ht, hid, htarget⟩)
    · simp only [hstmt, ne_eq, not_false_eq_true, ↓reduceIte] at h
      cases h
      exact .notStatement c hc hid (by rw [hkind]; exact hstmt)

include hids

/-- A bad loop reference is refused for what is bad about it, as each identity stands for one node. -/
theorem loopDefect?_of_badRef {target : ι} {d : Malformed ι} (h : f.BadRef target d) :
    loopDefect? ledger (loopTargets f.scope.allStmts) target = some d := by
  unfold loopDefect?
  cases h with
  | dangling hnot => rw [hentered.entry?_eq_none_iff.mpr hnot]
  | notStatement c hc hid hkind =>
    obtain ⟨o, hentry⟩ := hentered.cells c hc
    rw [← hid, hentry]
    simp [hkind]
  | notLoop t ht hid hkind =>
    obtain ⟨o, hentry⟩ := hentered.cells _ (f.stmt_mem_cellsOf ht)
    have hloop : ¬(loopTargets f.scope.allStmts).contains target := by
      intro hcontains
      obtain ⟨u, hu, huid, hukind⟩ := (mem_loopTargets_iff _ _).mp hcontains
      rw [f.kind_eq_of_id_eq hids hu ht (huid.trans hid.symm)] at hukind
      exact hkind hukind
    rw [← hid] at hloop ⊢
    change ledger.entry? t.id = _ at hentry
    rw [hentry]
    simp [hloop, Cell.kind, Stmt.cell]

/-- A loop reference is refused for one of three reasons: its target is not in the tree, is a node
of another kind, or is a statement that is no loop. -/
theorem loopDefect?_eq_some_iff (target : ι) (d : Malformed ι) :
    loopDefect? ledger (loopTargets f.scope.allStmts) target = some d ↔ f.BadRef target d :=
  ⟨badRef_of_loopDefect? hentered, loopDefect?_of_badRef hids hentered⟩

/-- The defect that is found is that of the first statement with a bad reference. -/
theorem firstLoopDefect?_eq_some_iff (d : Malformed ι) :
    firstLoopDefect? ledger f.scope.allStmts = some d
      ↔ ∃ before s after target, f.scope.allStmts = before ++ s :: after
        ∧ (∀ t ∈ before, ∀ target ∈ t.head.loop, f.NamesLoop target)
        ∧ s.head.loop = some target ∧ f.BadRef target d := by
  let defect? (s : Stmt ι) : Option (Malformed ι) :=
    s.head.loop.bind (loopDefect? ledger (loopTargets f.scope.allStmts))
  have hfirst : firstLoopDefect? ledger f.scope.allStmts = f.scope.allStmts.findSome? defect? := by
    rw [firstLoopDefect?, ← List.head?_filterMap, List.filterMap_filterMap, List.head?_filterMap]
  have hnone (t : Stmt ι) : defect? t = none ↔ ∀ target ∈ t.head.loop, f.NamesLoop target := by
    simp only [defect?, Option.bind_eq_none_iff, loopDefect?_eq_none_iff_namesLoop hentered]
    rfl
  have hsome (t : Stmt ι) : defect? t = some d ↔ ∃ target, t.head.loop = some target ∧ f.BadRef target d := by
    simp only [defect?, Option.bind_eq_some_iff, loopDefect?_eq_some_iff hids hentered]
  rw [hfirst, List.findSome?_eq_some_iff]
  simp only [hnone, hsome]
  constructor
  · rintro ⟨before, s, after, hsplit, ⟨target, hloop, hbad⟩, hbefore⟩
    exact ⟨before, s, after, target, hsplit, hbefore, hloop, hbad⟩
  · rintro ⟨before, s, after, target, hsplit, hbefore, hloop, hbad⟩
    exact ⟨before, s, after, hsplit, ⟨target, hloop, hbad⟩, hbefore⟩

end

/-! ### Planning stops at the first defect -/

namespace Context

/-- A step with a defect is refused for it, before anything is reserved. -/
theorem planVisit_defect {v : Visit ι} {d : Malformed ι} (h : v.defect? = some d) (cx : Context ι) :
    planVisit v cx = .error (.malformedTree d) cx := by
  cases v with
  | enterLocal l =>
    by_cases hfun : l.isFunction
    · rw [Visit.defect?, Local.defect?, if_pos hfun] at h
      cases h
      rw [planVisit, if_pos hfun]
      rfl
    · rw [Visit.defect?, Local.defect?, if_neg hfun] at h
      cases h
  | enterStmt s =>
    by_cases hmany : maxExprs < s.exprs.length
    · rw [Visit.defect?, exprsDefect?, if_pos hmany] at h
      cases h
      rw [planVisit, if_pos hmany]
      rfl
    · rw [Visit.defect?, exprsDefect?, if_neg hmany] at h
      cases h
  | place p => cases h
  | leave => cases h

/-- A walk over new nodes is refused for the first of its defects. -/
theorem planVisits_defect {vs : List (Visit ι)} {cx : Context ι}
    (hfresh : cx.ledger.Fresh (idsOf (placedPieces vs))) {d : Malformed ι} {others : List (Malformed ι)}
    (h : defectsOf vs = d :: others) : ∃ cx', planVisits vs cx = .error (.malformedTree d) cx' := by
  -- On the steps: one without a defect is planned, as its identities are new, and leaves the first defect first.
  induction vs generalizing cx with
  | nil => cases h
  | cons v vs ih =>
    cases hv : v.defect? with
    | some d' =>
      rw [defectsOf_cons, hv] at h
      cases h
      exact ⟨cx, bind_of_error (planVisit_defect hv cx) _⟩
    | none =>
      rw [defectsOf_cons, hv] at h
      obtain ⟨mid, hstep, -, hrest⟩ := planVisit_fresh_cons ((Visit.defect?_eq_none_iff v).mp hv) hfresh
      obtain ⟨cx', hothers⟩ := ih hrest h
      exact ⟨cx', (bind_of_ok hstep _).trans hothers⟩

variable {f : Function ι} (hids : (idsOf f.pieces).Nodup)

include hids

/-- A defect of the shape is reported whatever the loop references are. -/
theorem plan_of_shapeDefects {d : Malformed ι} {others : List (Malformed ι)}
    (h : f.scope.shapeDefects = d :: others) (cx : Context ι) :
    ∃ cx', Context.plan f cx = .error (.malformedTree d) cx' := by
  have hfresh : (Context.empty : Context ι).ledger.Fresh (idsOf (placedPieces f.visits)) := by
    rw [placedPieces_visits]
    exact ⟨hids, fun _ _ => Std.HashMap.getElem?_empty⟩
  rw [← defectsOf_visits] at h
  obtain ⟨cx', hvisits⟩ := planVisits_defect hfresh h
  have hset : (set (Context.empty : Context ι) : CompactM ι PUnit) cx = .ok ⟨⟩ Context.empty := rfl
  refine ⟨cx', ?_⟩
  rw [Context.plan, bind_of_ok hset]
  exact bind_of_error hvisits _

/-- Without a defect of the shape, the whole walk is planned. -/
theorem exists_planVisits_of_shape (h : f.scope.shapeDefects = []) :
    ∃ mid, planVisits f.visits (Context.empty : Context ι) = .ok () mid
      ∧ Ledger.Entered Ledger.empty mid.ledger (cellsOf f.pieces) := by
  apply exists_planVisits hids
  apply (forall_visits (P := Visit.Allowed) (fun _ => trivial) trivial f).mpr
  exact f.shapeDefects_eq_nil_iff.mp h

/-- Whatever a tree is refused for, its plan says. -/
theorem plan_of_refused {d : Malformed ι} (h : f.Refused d) (cx : Context ι) :
    ∃ cx', Context.plan f cx = .error (.malformedTree d) cx' := by
  cases h with
  | shape d others h => exact plan_of_shapeDefects hids h cx
  | loop hshape before after s target d hstmts hbefore hloop hbad =>
    obtain ⟨mid, hvisits, hentered⟩ := exists_planVisits_of_shape hids hshape
    have hdefect := (firstLoopDefect?_eq_some_iff hids hentered d).mpr
      ⟨before, s, after, target, hstmts, hbefore, hloop, hbad⟩
    exact ⟨mid, (plan_of_visits hvisits cx).1 d hdefect⟩

/-- A plan refuses a tree only for the defect that comes first. -/
theorem refused_of_plan {e : CompactError ι} {cx cx' : Context ι} (h : Context.plan f cx = .error e cx') :
    ∃ d, f.Refused d ∧ e = .malformedTree d := by
  -- Defects of the shape are met on the walk, before any loop reference is looked at.
  cases hshape : f.scope.shapeDefects with
  | cons d others =>
    obtain ⟨cx'', hplan⟩ := plan_of_shapeDefects hids hshape cx
    rw [hplan] at h
    cases h
    exact ⟨d, .shape d others hshape, rfl⟩
  | nil =>
    obtain ⟨mid, hvisits, hentered⟩ := exists_planVisits_of_shape hids hshape
    obtain ⟨hsome, hnone⟩ := plan_of_visits hvisits cx
    cases hdefect : firstLoopDefect? mid.ledger f.scope.allStmts with
    | none =>
      obtain ⟨size, cx'', hplan⟩ := hnone hdefect
      rw [hplan] at h
      cases h
    | some d =>
      rw [hsome d hdefect] at h
      cases h
      obtain ⟨before, s, after, target, hstmts, hbefore, hloop, hbad⟩ :=
        (firstLoopDefect?_eq_some_iff hids hentered d).mp hdefect
      exact ⟨d, .loop hshape before after s target d hstmts hbefore hloop hbad, rfl⟩

/-- A function with distinct identities is planned just if it is well-formed, and otherwise it is refused for
its first defect. -/
theorem plan_outcome_iff (cx : Context ι) :
    ((∃ size cx', Context.plan f cx = .ok size cx') ↔ f.WellFormed)
      ∧ ∀ e, (∃ cx', Context.plan f cx = .error e cx') ↔ ∃ d, f.Refused d ∧ e = .malformedTree d := by
  refine ⟨⟨?_, fun hwell => exists_plan hids hwell cx⟩, fun e => ⟨?_, ?_⟩⟩
  · rintro ⟨size, cx', hplan⟩
    exact (plan_run hplan).wellFormed
  · rintro ⟨cx', hplan⟩
    exact refused_of_plan hids hplan
  · rintro ⟨d, hrefused, rfl⟩
    exact plan_of_refused hids hrefused cx

end Context

def manyDefects : Function Nat :=
  let name : Text := ⟨[103], by decide⟩
  let expr (id : Nat) : Expr Nat := .node ⟨id, .int, 0, .scalar .i32, none, none⟩ (.none maxChildren)
  { scope :=
      ⟨0, [],
        [⟨⟨1, .breakLoop, none, some 99, none, []⟩, none, []⟩,
          ⟨⟨2, .block, none, none, none, []⟩, some ⟨3, [⟨4, ⟨5, name⟩, .scalar .i32, true⟩], []⟩,
            [expr 6, expr 7, expr 8, expr 9, expr 10]⟩]⟩
    args := [] }

theorem plan_outcome_iff_manyDefects :
    (idsOf manyDefects.pieces).Nodup
      ∧ (¬∃ size cx', Context.plan manyDefects Context.empty = .ok size cx')
      ∧ ∃ cx', Context.plan manyDefects Context.empty
        = .error (.malformedTree (.tooManyExpressions 5 4)) cx' := by
  have hids : (idsOf manyDefects.pieces).Nodup := by decide
  have hrefused : manyDefects.Refused (.tooManyExpressions 5 4) := .shape _ [.functionLocal "g"] rfl
  obtain ⟨hok, herror⟩ := Context.plan_outcome_iff hids Context.empty
  refine ⟨hids, fun hplan => ?_, (herror _).mpr ⟨_, hrefused, rfl⟩⟩
  have hfew := (hok.mp hplan).fewExprs _ (List.mem_cons_of_mem _ List.mem_cons_self)
  exact absurd hfew (by decide)

end TreePack
