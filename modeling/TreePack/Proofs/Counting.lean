import Mathlib.Data.List.Perm.Basic
import TreePack.Proofs.Inventory
import TreePack.Proofs.Writing

namespace TreePack

variable {ι : Type}

def leaves : List (Visit ι) → Nat
  | [] => 0
  | .leave :: vs => leaves vs + 1
  | _ :: vs => leaves vs

@[simp] theorem leaves_nil : leaves ([] : List (Visit ι)) = 0 := rfl

@[simp] theorem leaves_leave (vs : List (Visit ι)) : leaves (.leave :: vs) = leaves vs + 1 := rfl

@[simp] theorem leaves_place (p : Piece ι) (vs : List (Visit ι)) : leaves (.place p :: vs) = leaves vs := rfl

@[simp] theorem leaves_enterStmt (s : Stmt ι) (vs : List (Visit ι)) :
    leaves (.enterStmt s :: vs) = leaves vs := rfl

def lookUps (ps : List (Piece ι)) : Nat := ps.foldr (fun p n => p.lookUps + n) 0

/-- What writing the steps of a walk adds to the counts. -/
theorem foldl_count (vs : List (Visit ι)) (stats : Stats) :
    vs.foldl Stats.count stats
      = { stats with
          resolutions := stats.resolutions + lookUps (placedPieces vs)
          writes := stats.writes + (placedPieces vs).length
          released := stats.released + leaves vs } := by
  induction vs generalizing stats with
  | nil => rfl
  | cons v vs ih =>
    rw [List.foldl_cons, ih]
    cases v with
    | enterLocal l | enterStmt s => rfl
    | leave => simp only [Stats.count, placedPieces_leave, leaves_leave, Nat.add_assoc, Nat.add_comm 1]
    | place p =>
      simp only [Stats.count, placedPieces_place, leaves_place, lookUps, List.foldr_cons, List.length_cons,
        Nat.add_assoc, Nat.add_comm 1]

@[simp] theorem leaves_optionText (rest : List (Visit ι)) (t : Option (Leaf ι Text)) :
    leaves (optionTextVisitsThen rest t) = leaves rest + t.toList.length := by
  cases t <;> rfl

@[simp] theorem leaves_locals (rest : List (Visit ι)) (locals : List (Local ι)) :
    leaves (localVisitsThen rest locals) = leaves rest + locals.length := by
  induction locals with
  | nil => rfl
  | cons l locals ih =>
    change leaves (localVisitsThen rest locals) + 1 = _
    rw [ih, List.length_cons, Nat.add_assoc]

/-- An array is finished once, after its contents. -/
theorem leaves_array (cells : List (Leaf ι (Cell ι))) (contents : List (Visit ι) → List (Visit ι)) (n : Nat)
    (rest : List (Visit ι)) (hcontents : ∀ rest, leaves (contents rest) = leaves rest + n)
    (hempty : cells = [] → n = 0) :
    leaves (arrayVisitsThen cells contents rest) = leaves rest + (arrayPieces cells).length + n := by
  cases cells with
  | nil => rw [hempty rfl]; rfl
  | cons first others => rw [arrayVisitsThen, leaves_place, hcontents, leaves_leave]; rfl

@[simp] theorem leaves_switch (rest : List (Visit ι)) (labels : List (Leaf ι UInt64)) :
    leaves (switchVisitsThen rest labels) = leaves rest + (arrayPieces (switchCells labels)).length :=
  leaves_array (switchCells labels) (fun rest => rest) 0 rest (fun _ => rfl) fun _ => rfl

mutual

theorem Expr.leaves_visits (rest : List (Visit ι)) (e : Expr ι) :
    leaves (e.visitsThen rest) = leaves rest + e.pieces.length := by
  match e with
  | .node head children =>
    have ih := Slots.leaves_visits (.leave :: rest) children
    simp only [Expr.visitsThen, Expr.pieces, leaves_place, leaves_optionText, ih, leaves_leave,
      List.length_cons, List.length_append, List.length_map]
    omega

theorem Slots.leaves_visits (rest : List (Visit ι)) {n : Nat} (s : Slots ι n) :
    leaves (s.visitsThen rest) = leaves rest + s.pieces.length := by
  match s with
  | .nil => rfl
  | .empty slots => exact Slots.leaves_visits rest slots
  | .full child slots =>
    rw [Slots.visitsThen, Expr.leaves_visits _ child, Slots.leaves_visits rest slots, Slots.pieces,
      List.length_append]
    omega

end

@[simp] theorem leaves_exprs (rest : List (Visit ι)) (exprs : List (Expr ι)) :
    leaves (exprListVisitsThen rest exprs) = leaves rest + (exprs.flatMap Expr.pieces).length := by
  induction exprs with
  | nil => rfl
  | cons e exprs ih =>
    change leaves (e.visitsThen (exprListVisitsThen rest exprs)) = _
    rw [Expr.leaves_visits, ih, List.flatMap_cons, List.length_append]
    omega

mutual

/-- The walk of a scope takes one leaving step for each piece it places. -/
theorem Scope.leaves_visits (rest : List (Visit ι)) (s : Scope ι) :
    leaves (s.visitsThen rest) = leaves rest + s.pieces.length := by
  match s with
  | ⟨id, locals, stmts⟩ =>
    -- The two arrays, each with its contents between its place and its end.
    have hlocals (rest : List (Visit ι)) := leaves_array (localCells locals)
      (fun rest => localVisitsThen rest locals) _ rest (fun rest => leaves_locals rest locals)
      (fun h => by rw [List.map_eq_nil_iff.mp h]; rfl)
    have hstmts (rest : List (Visit ι)) := leaves_array (stmtCells stmts)
      (fun rest => stmtListVisitsThen rest stmts) _ rest (fun rest => stmtList_leaves_visits rest stmts)
      (fun h => by rw [List.map_eq_nil_iff.mp h]; rfl)
    rw [localCells] at hlocals
    rw [stmtCells] at hstmts
    simp only [Scope.visitsThen, leaves_place, hlocals, hstmts, leaves_leave, Scope.pieces, localCells,
      stmtCells, List.length_cons, List.length_append, List.length_map]
    omega

theorem Stmt.leaves_visits (rest : List (Visit ι)) (s : Stmt ι) :
    leaves (s.visitsThen rest) = leaves rest + s.pieces.length := by
  match s with
  | ⟨head, scope, exprs⟩ =>
    simp only [Stmt.visitsThen, leaves_enterStmt, nested_leaves_visits _ scope, leaves_exprs,
      leaves_optionText, leaves_switch, Stmt.pieces, List.length_append, List.length_map]
    omega

theorem stmtList_leaves_visits (rest : List (Visit ι)) (ss : List (Stmt ι)) :
    leaves (stmtListVisitsThen rest ss) = leaves rest + (stmtListPieces ss).length := by
  match ss with
  | [] => rfl
  | s :: ss =>
    rw [stmtListVisitsThen, Stmt.leaves_visits _ s, stmtList_leaves_visits rest ss, stmtListPieces,
      List.length_append]
    omega

theorem nested_leaves_visits (rest : List (Visit ι)) (s : Option (Scope ι)) :
    leaves (nestedVisitsThen rest s) = leaves rest + (nestedPieces s).length := by
  match s with
  | none => rfl
  | some s => exact Scope.leaves_visits rest s

end

/-- The walk of the arguments takes one leaving step for each. -/
theorem leaves_args (rest : List (Visit ι)) (args : List (Leaf ι TypeDesc)) :
    leaves (argVisitsThen rest args) = leaves rest + args.length := by
  induction args with
  | nil => rfl
  | cons t args ih =>
    change leaves (argVisitsThen rest args) + 1 = _
    rw [ih, List.length_cons, Nat.add_assoc]

/-- Every piece of a function is finished once. -/
theorem leaves_visits (f : Function ι) : leaves f.visits = f.pieces.length := by
  rw [Function.visits, Scope.leaves_visits, leaves_args, leaves_nil, Function.pieces, List.length_append,
    List.length_map]
  omega

/-- The counts after a function is written. -/
theorem Function.foldl_count (f : Function ι) (stats : Stats) :
    f.visits.foldl Stats.count stats
      = { stats with
          resolutions := stats.resolutions + lookUps f.pieces
          writes := stats.writes + f.pieces.length
          released := stats.released + f.pieces.length } := by
  rw [TreePack.foldl_count, placedPieces_visits, leaves_visits]

/-- The elements of the reservations are the cells of the pieces. -/
theorem sum_counts_reservationsFrom (pos : Nat) (ps : List (Piece ι)) :
    (reservationsFrom pos ps).foldr (fun r n => r.count + n) 0 = (cellsOf ps).length := by
  induction ps generalizing pos with
  | nil => rfl
  | cons p ps ih => rw [reservationsFrom, List.foldr_cons, ih, cellsOf_cons, List.length_append]; rfl

/-- The lengths of the reservations add up to the size of the plan. -/
theorem sum_lens_reservationsFrom (pos : Nat) (ps : List (Piece ι)) :
    (reservationsFrom pos ps).foldr (fun r n => r.len + n) 0 = piecesSize ps := by
  induction ps generalizing pos with
  | nil => rfl
  | cons p ps ih => rw [reservationsFrom, List.foldr_cons, ih, piecesSize]; rfl

variable [DecidableEq ι] [Hashable ι]

/-- The entries of a ledger are the nodes it has an offset for. -/
theorem Ledger.mem_entries_iff (l : Ledger ι) (node : ι) :
    node ∈ l.entries ↔ ∃ entry, l.entry? node = some entry := by
  rw [Ledger.entry?, ← Option.isSome_iff_exists, Std.HashMap.isSome_getElem?_iff_mem]

/-- A ledger with just the entries of some nodes has as many entries as there are nodes. -/
theorem Ledger.size_eq_length {l : Ledger ι} {nodes : List ι} (hnodup : nodes.Nodup)
    (hmem : ∀ node, (∃ entry, l.entry? node = some entry) ↔ node ∈ nodes) : l.size = nodes.length := by
  have hkeys : l.entries.keys.Perm nodes := by
    apply (List.perm_ext_iff_of_nodup l.entries.nodup_keys hnodup).mpr
    intro node
    rw [Std.HashMap.mem_keys, l.mem_entries_iff, hmem]
  rw [Ledger.size, ← Std.HashMap.length_keys, hkeys.length_eq]

/-- A plan of a function with distinct identities enters just the cells of the function. -/
theorem Context.entered_of_plan {f : Function ι} {size : Nat} {cx cx' : Context ι}
    (hids : (idsOf f.pieces).Nodup) (h : Context.plan f cx = .ok size cx') :
    Ledger.Entered Ledger.empty cx'.ledger (cellsOf f.pieces) := by
  have hwell := (Context.plan_run h).wellFormed
  obtain ⟨mid, hvisits, -, -, rfl⟩ := Context.plan_eq_ok_iff.mp h
  have hallowed : ∀ v ∈ f.visits, v.Allowed :=
    (forall_visits (P := Visit.Allowed) (fun _ => trivial) trivial f).mpr
      ⟨hwell.noFunctions, hwell.fewExprs⟩
  -- The walk of this plan is the one that is known to succeed, and that one says what the ledger has.
  obtain ⟨mid', hvisits', hentered⟩ := Context.exists_planVisits hids hallowed
  rw [hvisits] at hvisits'
  cases hvisits'
  exact hentered

/-- A plan of a function with distinct identities leaves one entry for each cell and repeats none. -/
theorem Context.entries_of_plan {f : Function ι} {size : Nat} {cx cx' : Context ι}
    (hids : (idsOf f.pieces).Nodup) (h : Context.plan f cx = .ok size cx') :
    cx'.ledger.size = (cellsOf f.pieces).length ∧ cx'.ledger.duplicates = 0 := by
  have hentered := Context.entered_of_plan hids h
  have hknown := (Context.plan_run h).known
  have hmem : ∀ node, (∃ entry, cx'.ledger.entry? node = some entry) ↔ node ∈ idsOf f.pieces := by
    intro node
    constructor
    · rintro ⟨entry, hentry⟩
      exact hknown node (Option.isSome_of_mem hentry)
    · intro hnode
      rw [← map_id_cellsOf] at hnode
      obtain ⟨c, hc, rfl⟩ := List.mem_map.mp hnode
      obtain ⟨o, hentry⟩ := hentered.cells c hc
      exact ⟨_, hentry⟩
  refine ⟨?_, hentered.duplicates⟩
  rw [← List.length_map (·.id), map_id_cellsOf]
  exact Ledger.size_eq_length hids hmem

end TreePack
