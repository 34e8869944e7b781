import Mathlib.Data.List.Lattice
import Mathlib.Data.List.Nodup
import Mathlib.Data.List.Pairwise
import Mathlib.Data.List.Perm.Basic
import TreePack.Proofs.Walks

namespace TreePack

variable {ι : Type}

def turnsTo {α : Type} (turn : Nat → Turn) (node : α → Node ι) (xs : List (Option α)) :
    List (Turn × Node ι) :=
  xs.zipIdx.filterMap fun x => x.1.map fun a => (turn x.2, node a)

theorem mem_turnsTo {α : Type} (turn : Nat → Turn) (node : α → Node ι) {xs : List (Option α)} {i : Nat}
    {a : α} (h : xs[i]?.join = some a) : (turn i, node a) ∈ turnsTo turn node xs := by
  have hmem : (some a, i) ∈ xs.zipIdx := List.mk_mem_zipIdx_iff_getElem?.mpr (Option.join_eq_some_iff.mp h)
  exact List.mem_filterMap.mpr ⟨(some a, i), hmem, rfl⟩

namespace Node

def ids : Node ι → List ι
  | scope s => idsOf s.pieces
  | decl l => [l.id, l.name.id]
  | stmt s => s.id :: idsOf s.pieces
  | expr e => idsOf e.pieces

def branches : Node ι → List (Turn × Node ι)
  | scope s => turnsTo .toLocal decl (s.locals.map some) ++ turnsTo .toStmt stmt (s.stmts.map some)
  | decl _ => []
  | stmt s => turnsTo (fun _ => .toNested) scope [s.scope] ++ turnsTo .toExpr expr (s.exprs.map some)
  | expr e => turnsTo .toChild expr (List.ofFn e.children.get)

def idsBelow (bs : List (Turn × Node ι)) : List ι := bs.flatMap fun b => b.2.ids

theorem idsBelow_append (bs cs : List (Turn × Node ι)) : idsBelow (bs ++ cs) = idsBelow bs ++ idsBelow cs :=
  List.flatMap_append

theorem idsBelow_turnsTo {α : Type} (turn : Nat → Turn) (node : α → Node ι) (xs : List (Option α)) :
    idsBelow (turnsTo turn node xs) = xs.reduceOption.flatMap fun a => (node a).ids := by
  have hfrom (k : Nat) : idsBelow ((xs.zipIdx k).filterMap fun x => x.1.map fun a => (turn x.2, node a))
      = xs.reduceOption.flatMap fun a => (node a).ids := by
    induction xs generalizing k with
    | nil => rfl
    | cons x xs ih =>
      cases x with
      | none => exact ih (k + 1)
      | some a => exact congrArg ((node a).ids ++ ·) (ih (k + 1))
  exact hfrom 0

theorem idsBelow_list {α : Type} (turn : Nat → Turn) (node : α → Node ι) (xs : List α) :
    idsBelow (turnsTo turn node (xs.map some)) = xs.flatMap fun a => (node a).ids := by
  have hall : (xs.map some).reduceOption = xs := by
    rw [List.reduceOption, List.filterMap_map]
    exact List.filterMap_some
  rw [idsBelow_turnsTo, hall]

end Node

/-- The slots bring in what their expressions bring in. -/
theorem Slots.idsOf_pieces {n : Nat} (s : Slots ι n) :
    idsOf s.pieces = s.toList.flatMap fun e => idsOf e.pieces := by
  induction n with
  | zero =>
    cases s
    rfl
  | succ n ih =>
    cases s with
    | empty rest => exact ih rest
    | full child rest => rw [Slots.pieces, idsOf_append, ih, Slots.toList, List.flatMap_cons]

theorem idsOf_stmtListPieces (ss : List (Stmt ι)) :
    idsOf (stmtListPieces ss) = ss.flatMap fun s => idsOf s.pieces := by
  induction ss with
  | nil => rfl
  | cons s ss ih => rw [stmtListPieces, idsOf_append, ih, List.flatMap_cons]

theorem idsOf_names (locals : List (Local ι)) :
    idsOf (locals.map fun l => textPiece l.name) = locals.flatMap fun l => [l.name.id] := by
  induction locals with
  | nil => rfl
  | cons l ls ih => rw [List.map_cons, idsOf_cons, ih, cells_textPiece, List.flatMap_cons, List.map_singleton]

namespace Node

theorem ids_perm_scope (s : Scope ι) :
    (scope s).ids.Perm (s.id :: idsBelow (scope s).branches) := by
  cases s with
  | mk id locals stmts =>
    have hids : (scope ⟨id, locals, stmts⟩).ids
        = id :: ((locals.map (·.id) ++ locals.flatMap fun l => [l.name.id])
          ++ (stmts.map (·.id) ++ stmts.flatMap fun s => idsOf s.pieces)) := by
      rw [ids, Scope.pieces, idsOf_cons, idsOf_append, idsOf_append, idsOf_append, idsOf_arrayPieces,
        idsOf_arrayPieces, idsOf_names, idsOf_stmtListPieces, localCells, stmtCells, List.map_map,
        List.map_map, List.append_assoc]
      rfl
    rw [hids, branches, idsBelow_append, idsBelow_list, idsBelow_list]
    -- The arrays stand apart from what their elements own, so the elements have to be moved there.
    exact ((List.map_append_flatMap_perm locals _ _).append
      (List.map_append_flatMap_perm stmts _ _)).cons id

theorem ids_perm_stmt (s : Stmt ι) :
    ∃ own, (stmt s).ids.Perm (s.id :: (own ++ idsBelow (stmt s).branches)) := by
  cases s with
  | mk head nested exprs =>
    have hnested : idsBelow (turnsTo (fun _ => .toNested) scope [nested]) = idsOf (nestedPieces nested) := by
      rw [idsBelow_turnsTo]
      cases nested with
      | none => rfl
      | some s => exact List.append_nil _
    have hexprs : idsOf (exprs.flatMap Expr.pieces) = exprs.flatMap fun e => idsOf e.pieces :=
      List.flatMap_assoc
    -- The label and the switch labels are the statement's own; all else is below a branch.
    refine ⟨idsOf (head.label.toList.map textPiece) ++ idsOf (arrayPieces (switchCells head.switch)),
      List.Perm.cons _ ?_⟩
    rw [Stmt.pieces, idsOf_append, idsOf_append, idsOf_append, branches, idsBelow_append, hnested,
      idsBelow_list, hexprs, List.append_assoc _ _ (idsOf (arrayPieces _))]
    exact List.perm_append_comm

theorem ids_perm_expr (e : Expr ι) :
    ∃ own, (expr e).ids.Perm (e.id :: (own ++ idsBelow (expr e).branches)) := by
  cases e with
  | node head children =>
    refine ⟨idsOf (head.symbol.toList.map textPiece) ++ idsOf (head.method.toList.map textPiece), ?_⟩
    have hchildren : (List.ofFn children.get).reduceOption = children.toList := by
      have h := children.reduceOption_ofFn fun e => e
      simp only [Option.map_id', List.map_id'] at h
      exact h
    rw [ids, Expr.pieces, idsOf_cons, idsOf_append, idsOf_append, Slots.idsOf_pieces, branches,
      idsBelow_turnsTo]
    simp only [Expr.children, hchildren]
    exact List.Perm.refl _

/-- The identities of a node are its own, those of its texts and labels, and those below its branches. -/
theorem ids_perm (n : Node ι) : ∃ own, n.ids.Perm (n.id :: (own ++ idsBelow n.branches)) := by
  cases n with
  | scope s => exact ⟨[], ids_perm_scope s⟩
  | decl l => exact ⟨[l.name.id], List.Perm.refl _⟩
  | stmt s => exact ids_perm_stmt s
  | expr e => exact ids_perm_expr e

/-- Each turn that can be taken from a node is one of its branches. -/
theorem mem_branches {n m : Node ι} {t : Turn} (h : n.follow t = some m) : (t, m) ∈ n.branches := by
  have hlist {α : Type} {xs : List α} {i : Nat} {a : α} (ha : xs[i]? = some a) :
      (xs.map some)[i]?.join = some a := by
    rw [List.getElem?_map, ha]
    rfl
  -- Only the turns that the kind of node knows lead anywhere.
  cases n with
  | decl l => cases h
  | scope s =>
    cases t with
    | toLocal i =>
      obtain ⟨l, hl, rfl⟩ := Option.map_eq_some_iff.mp h
      exact List.mem_append_left _ (mem_turnsTo Turn.toLocal decl (hlist hl))
    | toStmt i =>
      obtain ⟨s, hs, rfl⟩ := Option.map_eq_some_iff.mp h
      exact List.mem_append_right _ (mem_turnsTo Turn.toStmt stmt (hlist hs))
    | toNested | toExpr _ | toChild _ | toLoop => cases h
  | stmt s =>
    cases t with
    | toNested =>
      obtain ⟨inner, hinner, rfl⟩ := Option.map_eq_some_iff.mp h
      have hfirst : [s.scope][0]?.join = some inner := hinner
      exact List.mem_append_left _ (mem_turnsTo (fun _ => Turn.toNested) scope hfirst)
    | toExpr i =>
      obtain ⟨e, he, rfl⟩ := Option.map_eq_some_iff.mp h
      exact List.mem_append_right _ (mem_turnsTo Turn.toExpr expr (hlist he))
    | toLocal _ | toStmt _ | toChild _ | toLoop => cases h
  | expr e =>
    cases t with
    | toChild slot =>
      obtain ⟨c, hc, rfl⟩ := Option.map_eq_some_iff.mp h
      exact mem_turnsTo Turn.toChild expr hc
    | toLocal _ | toStmt _ | toNested | toExpr _ | toLoop => cases h

variable {n m k : Node ι} {t u : Turn} {ts us : List Turn}

theorem id_mem_ids (n : Node ι) : n.id ∈ n.ids := by
  obtain ⟨own, hperm⟩ := n.ids_perm
  exact hperm.mem_iff.mpr List.mem_cons_self

theorem mem_idsBelow_of_follow (h : n.follow t = some m) {q : ι} (hq : q ∈ m.ids) :
    q ∈ idsBelow n.branches :=
  List.mem_flatMap.mpr ⟨(t, m), mem_branches h, hq⟩

theorem ids_subset_of_follow (h : n.follow t = some m) : ∀ q ∈ m.ids, q ∈ n.ids := by
  obtain ⟨own, hperm⟩ := n.ids_perm
  intro q hq
  apply hperm.mem_iff.mpr
  apply List.mem_cons_of_mem
  exact List.mem_append_right _ (mem_idsBelow_of_follow h hq)

/-- A walk stays inside the node it starts from. -/
theorem ids_subset_of_walk (h : n.walk ts = some m) : ∀ q ∈ m.ids, q ∈ n.ids := by
  apply preserved_by_walk (P := fun k => ∀ q ∈ k.ids, q ∈ n.ids) _ h fun _ hq => hq
  intro k l t hturn hk q hq
  exact hk q (ids_subset_of_follow hturn q hq)

theorem nodup_idsBelow (hnodup : n.ids.Nodup) : (idsBelow n.branches).Nodup := by
  obtain ⟨own, hperm⟩ := n.ids_perm
  have hrest : (own ++ idsBelow n.branches).Nodup := (List.nodup_cons.mp (hperm.nodup_iff.mp hnodup)).2
  exact (List.nodup_append.mp hrest).2.1

/-- What is distinct below a node is distinct below each of its branches. -/
theorem nodup_of_follow (hnodup : n.ids.Nodup) (h : n.follow t = some m) : m.ids.Nodup :=
  (List.nodup_flatMap.mp (nodup_idsBelow hnodup)).1 _ (mem_branches h)

/-- A node does not stand below itself. -/
theorem id_not_mem_of_follow (hnodup : n.ids.Nodup) (h : n.follow t = some m) : n.id ∉ m.ids := by
  obtain ⟨own, hperm⟩ := n.ids_perm
  obtain ⟨hnot, -⟩ := List.nodup_cons.mp (hperm.nodup_iff.mp hnodup)
  intro hmem
  exact hnot (List.mem_append_right _ (mem_idsBelow_of_follow h hmem))

/-- Different turns lead to nodes that have nothing below them in common. -/
theorem disjoint_of_follow (hnodup : n.ids.Nodup) (hm : n.follow t = some m) (hk : n.follow u = some k)
    (hne : t ≠ u) : m.ids.Disjoint k.ids := by
  have hapart := (List.nodup_flatMap.mp (nodup_idsBelow hnodup)).2
  have : Std.Symm (Function.onFun List.Disjoint fun b : Turn × Node ι => b.2.ids) :=
    ⟨fun _ _ h => List.Disjoint.symm h⟩
  have hpair : ((t, m) : Turn × Node ι) ≠ (u, k) := fun h => hne (congrArg Prod.fst h)
  exact hapart.forall (mem_branches hm) (mem_branches hk) hpair

/-- Two walks that end at one identity take the same turns. -/
theorem walk_unique (hnodup : n.ids.Nodup) (hm : n.walk ts = some m) (hk : n.walk us = some k)
    (hid : m.id = k.id) : ts = us := by
  -- On the first walk, for every node whose identities are distinct: those below each branch are again.
  induction ts generalizing n us with
  | nil =>
    cases us with
    | nil => rfl
    | cons u us =>
      -- The first walk stays here, where the second one cannot come back to.
      cases hm
      obtain ⟨k', hk', hrest⟩ := walk_cons_eq_some_iff.mp hk
      have hmem := ids_subset_of_walk hrest _ k.id_mem_ids
      rw [← hid] at hmem
      exact absurd hmem (id_not_mem_of_follow hnodup hk')
  | cons t ts ih =>
    obtain ⟨m', hm', hrest⟩ := walk_cons_eq_some_iff.mp hm
    have hmem := ids_subset_of_walk hrest _ m.id_mem_ids
    cases us with
    | nil =>
      cases hk
      rw [hid] at hmem
      exact absurd hmem (id_not_mem_of_follow hnodup hm')
    | cons u us =>
      obtain ⟨k', hk', hrest'⟩ := walk_cons_eq_some_iff.mp hk
      by_cases htu : t = u
      · subst htu
        obtain rfl : m' = k' := Option.some.inj (hm'.symm.trans hk')
        rw [ih (nodup_of_follow hnodup hm') hrest hrest']
      · -- The walks part here, and nothing is below both branches.
        have hmem' := ids_subset_of_walk hrest' _ k.id_mem_ids
        rw [← hid] at hmem'
        exact absurd hmem' (disjoint_of_follow hnodup hm' hk' htu hmem)

end Node

end TreePack
