import TreePack.Proofs.Views
/-!
Walks over the views of a packed function.

A walk takes one turn after the other: from a scope to a local or a statement of it, from a statement to its
nested scope, to an expression or to the statement that its loop reference names, from an expression to a
child. All turns but the loop reference lead from a node to one that it owns, so they can be taken in the tree
as well. In a block that holds the tree both walks reach the same node (`Node.HeldIn.walk`).
-/

namespace TreePack

variable {ι : Type}

/-! ### Turns -/

inductive Turn where
  | toLocal (i : Nat)
  | toStmt (i : Nat)
  | toNested
  | toExpr (i : Nat)
  | toChild (slot : Nat)
  /-- To the statement that a loop reference names. It is not owned. -/
  | toLoop
  deriving DecidableEq

def Turn.Owned (t : Turn) : Prop := t ≠ .toLoop

inductive View where
  | scope (v : ScopeView)
  | decl (v : DeclView)
  | stmt (v : StmtView)
  | expr (v : ExprView)

namespace View

def offset : View → Offset
  | scope v => v.offset
  | decl v => v.offset
  | stmt v => v.offset
  | expr v => v.offset

def follow : View → Turn → Except Fault (Option View)
  | scope v, .toLocal i => return (← v.local? i).map decl
  | scope v, .toStmt i => return (← v.stmt? i).map stmt
  | stmt v, .toNested => return (← v.scope).map scope
  | stmt v, .toExpr i => return (← v.exprs)[i]?.map expr
  | stmt v, .toLoop => return (← v.loop).map stmt
  | expr v, .toChild slot => return (← v.child slot).map expr
  | _, _ => .ok none

def walk : View → List Turn → Except Fault (Option View)
  | v, [] => .ok (some v)
  | v, t :: ts => do
    match ← v.follow t with
    | some w => w.walk ts
    | none => return none

theorem walk_cons_of_none {v : View} {t : Turn} (h : v.follow t = .ok none) (ts : List Turn) :
    v.walk (t :: ts) = .ok none := by
  rw [walk, h]
  rfl

theorem walk_cons_of_some {v w : View} {t : Turn} (h : v.follow t = .ok (some w)) (ts : List Turn) :
    v.walk (t :: ts) = w.walk ts := by
  rw [walk, h]
  rfl

end View

def Packed.walk (p : Packed) (ts : List Turn) : Except Fault (Option View) := (View.scope p.root).walk ts

/-! ### Walks along a tree -/

inductive Node (ι : Type) where
  | scope (s : Scope ι)
  | decl (l : Local ι)
  | stmt (s : Stmt ι)
  | expr (e : Expr ι)

namespace Node

def id : Node ι → ι
  | scope s => s.id
  | decl l => l.id
  | stmt s => s.id
  | expr e => e.id

def follow : Node ι → Turn → Option (Node ι)
  | scope s, .toLocal i => s.locals[i]?.map decl
  | scope s, .toStmt i => s.stmts[i]?.map stmt
  | stmt s, .toNested => s.scope.map scope
  | stmt s, .toExpr i => s.exprs[i]?.map expr
  | expr e, .toChild slot => (List.ofFn e.children.get)[slot]?.join.map expr
  | _, _ => none

def walk : Node ι → List Turn → Option (Node ι)
  | n, [] => some n
  | n, t :: ts => (n.follow t).bind fun m => m.walk ts

def allStmts : Node ι → List (Stmt ι)
  | scope s => s.allStmts
  | stmt s => s.allStmts
  | decl _ | expr _ => []

def view (b : Block) (place : ι → Offset) : Node ι → View
  | scope s => .scope ⟨b, place s.id⟩
  | decl l => .decl ⟨b, place l.id⟩
  | stmt s => .stmt ⟨b, place s.id⟩
  | expr e => .expr ⟨b, place e.id⟩

theorem offset_view (b : Block) (place : ι → Offset) (n : Node ι) :
    (n.view b place).offset = place n.id := by
  cases n <;> rfl

theorem walk_cons_eq_some_iff {n m : Node ι} {t : Turn} {ts : List Turn} :
    n.walk (t :: ts) = some m ↔ ∃ k, n.follow t = some k ∧ k.walk ts = some m := Option.bind_eq_some_iff

/-- A walk with one more turn at its end. -/
theorem walk_concat (n : Node ι) (ts : List Turn) (t : Turn) :
    n.walk (ts ++ [t]) = (n.walk ts).bind fun m => m.follow t := by
  induction ts generalizing n with
  | nil =>
    change (n.follow t).bind some = n.follow t
    exact Option.bind_fun_some _
  | cons u ts ih =>
    rw [List.cons_append, walk, walk]
    cases n.follow u with
    | none => rfl
    | some m => exact ih m

/-- What every turn preserves holds at the end of a walk. -/
theorem preserved_by_walk {P : Node ι → Prop} (hstep : ∀ n m t, n.follow t = some m → P n → P m)
    {n m : Node ι} {ts : List Turn} (h : n.walk ts = some m) (hn : P n) : P m := by
  induction ts generalizing n with
  | nil =>
    cases h
    exact hn
  | cons t ts ih =>
    obtain ⟨k, hk, hrest⟩ := walk_cons_eq_some_iff.mp h
    exact ih hrest (hstep n k t hk hn)

/-- A turn that leads somewhere in a tree is owned. -/
theorem owned_of_follow {n m : Node ι} {t : Turn} (h : n.follow t = some m) : t.Owned := by
  rintro rfl
  cases n <;> cases h

/-- A walk inside a tree takes turns to owned nodes only, as a loop reference is not followed
there. -/
theorem owned_of_walk {n m : Node ι} {ts : List Turn} (h : n.walk ts = some m) : ∀ t ∈ ts, t.Owned := by
  induction ts generalizing n with
  | nil => exact fun _ ht => (List.not_mem_nil ht).elim
  | cons t ts ih =>
    obtain ⟨k, hk, hrest⟩ := walk_cons_eq_some_iff.mp h
    exact List.forall_mem_cons.mpr ⟨owned_of_follow hk, ih hrest⟩

/-- No turn leads to a statement that was not below its start. -/
theorem allStmts_of_follow {n m : Node ι} {t : Turn} (h : n.follow t = some m) :
    ∀ u ∈ m.allStmts, u ∈ n.allStmts := by
  -- A turn leads to a part of the node, whose statements are among the node's.
  cases n with
  | decl l => cases h
  | scope s =>
    cases s with
    | mk sid locals stmts =>
      cases t with
      | toLocal i =>
        obtain ⟨l, -, rfl⟩ := Option.map_eq_some_iff.mp h
        exact fun u hu => (List.not_mem_nil hu).elim
      | toStmt i =>
        obtain ⟨s, hs, rfl⟩ := Option.map_eq_some_iff.mp h
        have hmem : s ∈ stmts := List.mem_of_getElem? hs
        exact forall_stmtListAllStmts.mp (fun u hu => hu) s hmem
      | toNested | toExpr _ | toChild _ | toLoop => cases h
  | stmt s =>
    cases s with
    | mk head scope exprs =>
      cases t with
      | toNested =>
        obtain ⟨s, hs, rfl⟩ := Option.map_eq_some_iff.mp h
        intro u hu
        exact List.mem_cons_of_mem _ (forall_nestedAllStmts.mp (fun u hu => hu) s hs u hu)
      | toExpr i =>
        obtain ⟨e, -, rfl⟩ := Option.map_eq_some_iff.mp h
        exact fun u hu => (List.not_mem_nil hu).elim
      | toLocal _ | toStmt _ | toChild _ | toLoop => cases h
  | expr e =>
    cases t with
    | toChild slot =>
      obtain ⟨c, -, rfl⟩ := Option.map_eq_some_iff.mp h
      exact fun u hu => (List.not_mem_nil hu).elim
    | toLocal _ | toStmt _ | toNested | toExpr _ | toLoop => cases h

theorem allStmts_of_walk {n m : Node ι} {ts : List Turn} (h : n.walk ts = some m) :
    ∀ u ∈ m.allStmts, u ∈ n.allStmts := by
  apply preserved_by_walk (P := fun k => ∀ u ∈ k.allStmts, u ∈ n.allStmts) _ h fun _ hu => hu
  intro k l t hturn hk u hu
  exact hk u (allStmts_of_follow hturn u hu)

end Node

/-- The child in a slot is one of the children. -/
theorem Slots.mem_toList_of_getElem? {n : Nat} {s : Slots ι n} {i : Nat} {e : Expr ι}
    (h : (List.ofFn s.get)[i]?.join = some e) : e ∈ s.toList := by
  have hslot : (List.ofFn s.get)[i]? = some (some e) := Option.join_eq_some_iff.mp h
  have hmem : e ∈ (List.ofFn fun i => (s.get i).map fun e => e).reduceOption := by
    apply List.reduceOption_mem_iff.mpr
    simp only [Option.map_id']
    exact List.mem_of_getElem? hslot
  rw [s.reduceOption_ofFn, List.map_id'] at hmem
  exact hmem

mutual

/-- Every statement of a scope can be walked to. -/
theorem Scope.exists_walk (s : Scope ι) :
    ∀ t ∈ s.allStmts, ∃ ts, (Node.scope s).walk ts = some (.stmt t) := by
  match s with
  | ⟨id, locals, stmts⟩ =>
    intro t ht
    obtain ⟨i, s, hs, ts, hwalk⟩ := stmtList_exists_walk stmts t ht
    refine ⟨.toStmt i :: ts, Node.walk_cons_eq_some_iff.mpr ⟨.stmt s, ?_, hwalk⟩⟩
    exact congrArg (Option.map Node.stmt) hs

/-- Every statement from a statement on can be walked to. -/
theorem Stmt.exists_walk (s : Stmt ι) :
    ∀ t ∈ s.allStmts, ∃ ts, (Node.stmt s).walk ts = some (.stmt t) := by
  match s with
  | ⟨head, scope, exprs⟩ =>
    intro t ht
    rcases List.mem_cons.mp ht with rfl | ht
    · exact ⟨[], rfl⟩
    · obtain ⟨inner, hinner, ts, hwalk⟩ := nested_exists_walk scope t ht
      refine ⟨.toNested :: ts, Node.walk_cons_eq_some_iff.mpr ⟨.scope inner, ?_, hwalk⟩⟩
      exact congrArg (Option.map Node.scope) hinner

theorem stmtList_exists_walk (ss : List (Stmt ι)) :
    ∀ t ∈ stmtListAllStmts ss,
      ∃ (i : Nat) (s : Stmt ι), ss[i]? = some s ∧ ∃ ts, (Node.stmt s).walk ts = some (.stmt t) := by
  match ss with
  | [] =>
    intro t ht
    cases ht
  | s :: ss =>
    intro t ht
    rw [stmtListAllStmts_cons, List.mem_append] at ht
    rcases ht with ht | ht
    · exact ⟨0, s, rfl, Stmt.exists_walk s t ht⟩
    · obtain ⟨i, u, hu, hwalk⟩ := stmtList_exists_walk ss t ht
      exact ⟨i + 1, u, hu, hwalk⟩

theorem nested_exists_walk (s : Option (Scope ι)) :
    ∀ t ∈ nestedAllStmts s, ∃ inner, s = some inner ∧ ∃ ts, (Node.scope inner).walk ts = some (.stmt t) := by
  match s with
  | none =>
    intro t ht
    cases ht
  | some s =>
    intro t ht
    exact ⟨s, rfl, Scope.exists_walk s t ht⟩

end

/-! ### Walks in a block that holds the tree -/

section

variable {b : Block} {place : ι → Offset} {n m : Node ι} {t : Turn} {ts : List Turn}

def Node.Held (b : Block) (place : ι → Offset) : Node ι → Prop
  | .scope s => TreePack.Held b place s.pieces
  | .decl l => l.HeldIn b place
  | .stmt s =>
    Stored.readAt b (place s.id) = .ok (s.recordAt place) ∧ TreePack.Held b place s.pieces
  | .expr e => TreePack.Held b place e.pieces

structure Node.HeldIn (b : Block) (place : ι → Offset) (n : Node ι) : Prop where
  held : n.Held b place
  fewExprs : ∀ s ∈ n.allStmts, s.exprs.length ≤ maxExprs

namespace Node.HeldIn

/-- An owned turn leads to the same node in the block and in the tree. -/
theorem follow (h : n.HeldIn b place) (ht : t.Owned) :
    (n.view b place).follow t = .ok ((n.follow t).map (Node.view b place)) := by
  -- The turns that a kind of node does not know lead nowhere, in the block as in the tree.
  cases n with
  | scope s =>
    cases s with
    | mk id locals stmts =>
      obtain ⟨⟨-, hread⟩, ⟨hlocalRow, hlocals⟩, ⟨hstmtRow, hstmts⟩, -⟩ :=
        (Scope.held_iff id locals stmts).mp h.held
      let s : Scope ι := ⟨id, locals, stmts⟩
      cases t with
      | toLocal i =>
        have hview := ScopeView.local?_of_held (s := s) hread hlocalRow hlocals i
        simp only [Node.view, View.follow, Node.follow, s] at hview ⊢
        rw [hview, Option.map_map]
        exact congrArg Except.ok (Option.map_map _ _ _)
      | toStmt i =>
        have hview := ScopeView.stmt?_of_held (s := s) hread hstmtRow hstmts i
        simp only [Node.view, View.follow, Node.follow, s] at hview ⊢
        rw [hview, Option.map_map]
        exact congrArg Except.ok (Option.map_map _ _ _)
      | toNested | toExpr _ | toChild _ | toLoop => rfl
  | decl l => rfl
  | stmt s =>
    obtain ⟨hread, -⟩ := h.held
    cases t with
    | toNested =>
      have hview := StmtView.scope_of_held hread
      simp only [Node.view, View.follow, Node.follow]
      rw [hview, Option.map_map]
      exact congrArg Except.ok (Option.map_map _ _ _)
    | toExpr i =>
      have hview := StmtView.exprs_of_held hread (h.fewExprs s s.mem_allStmts_self)
      simp only [Node.view, View.follow, Node.follow]
      rw [hview, Option.map_map]
      change Except.ok (((s.exprs.map _)[i]?).map View.expr) = _
      rw [List.getElem?_map, Option.map_map]
      rfl
    | toLoop => exact absurd rfl ht
    | toLocal _ | toStmt _ | toChild _ => rfl
  | expr e =>
    cases e with
    | node head children =>
      obtain ⟨⟨-, hread⟩, -⟩ := (Expr.held_iff head children).mp h.held
      cases t with
      | toChild slot =>
        have hview := ExprView.child_of_held (e := .node head children) hread slot
        simp only [Node.view, View.follow, Node.follow]
        rw [hview, Option.map_map]
        exact congrArg Except.ok (Option.map_map _ _ _)
      | toLocal _ | toStmt _ | toNested | toExpr _ | toLoop => rfl

/-- What a held node owns is held. -/
theorem of_follow (h : n.HeldIn b place) (hm : n.follow t = some m) : m.HeldIn b place := by
  refine ⟨?_, fun s hs => h.fewExprs s (Node.allStmts_of_follow hm s hs)⟩
  have hheld := h.held
  -- What is held of a node includes each of its parts.
  cases n with
  | decl l => cases hm
  | scope s =>
    cases s with
    | mk id locals stmts =>
      obtain ⟨-, ⟨-, hlocals⟩, ⟨-, hstmts⟩, hbelow⟩ := (Scope.held_iff id locals stmts).mp hheld
      cases t with
      | toLocal i =>
        obtain ⟨l, hl, rfl⟩ := Option.map_eq_some_iff.mp hm
        exact hlocals l (List.mem_of_getElem? hl)
      | toStmt i =>
        obtain ⟨s, hs, rfl⟩ := Option.map_eq_some_iff.mp hm
        have hmem : s ∈ stmts := List.mem_of_getElem? hs
        exact ⟨hstmts s hmem, (held_stmtListPieces stmts).mp hbelow s hmem⟩
      | toNested | toExpr _ | toChild _ | toLoop => cases hm
  | stmt s =>
    cases s with
    | mk head scope exprs =>
      obtain ⟨hnested, hexprs, -⟩ := (Stmt.held_iff head scope exprs).mp hheld.2
      cases t with
      | toNested =>
        obtain ⟨s, hs, rfl⟩ := Option.map_eq_some_iff.mp hm
        exact held_nestedPieces.mp hnested s hs
      | toExpr i =>
        obtain ⟨e, he, rfl⟩ := Option.map_eq_some_iff.mp hm
        exact hexprs e (List.mem_of_getElem? he)
      | toLocal _ | toStmt _ | toChild _ | toLoop => cases hm
  | expr e =>
    cases e with
    | node head children =>
      obtain ⟨-, -, -, hchildren⟩ := (Expr.held_iff head children).mp hheld
      cases t with
      | toChild slot =>
        obtain ⟨c, hc, rfl⟩ := Option.map_eq_some_iff.mp hm
        exact held_slots.mp hchildren c (Slots.mem_toList_of_getElem? hc)
      | toLocal _ | toStmt _ | toNested | toExpr _ | toLoop => cases hm

/-- A walk of owned turns reaches the same node in the block and in the tree. -/
theorem walk (h : n.HeldIn b place) (howned : ∀ t ∈ ts, t.Owned) :
    (n.view b place).walk ts = .ok ((n.walk ts).map (Node.view b place)) := by
  induction ts generalizing n with
  | nil => rfl
  | cons t ts ih =>
    obtain ⟨hself, howned⟩ := List.forall_mem_cons.mp howned
    have hstep := h.follow hself
    rw [Node.walk]
    cases hm : n.follow t with
    | none =>
      rw [hm] at hstep
      exact View.walk_cons_of_none hstep ts
    | some m =>
      rw [hm] at hstep
      rw [View.walk_cons_of_some hstep]
      exact ih (h.of_follow hm) howned

/-- What can be walked to is held, if its start is. -/
theorem of_walk (h : n.HeldIn b place) (hm : n.walk ts = some m) : m.HeldIn b place :=
  Node.preserved_by_walk (fun _ _ _ hturn hk => hk.of_follow hturn) hm h

end Node.HeldIn

/-- The outermost scope of a relocated function is held. -/
theorem Packed.Relocates.heldIn {p : Packed} {f : Function ι} (h : p.Relocates place f)
    (hwell : f.WellFormed) : (Node.scope f.scope).HeldIn p.block place :=
  ⟨((held_append f.scope.pieces (f.args.map argPiece)).mp h.held).1, hwell.fewExprs⟩

/-- Walks over the block start at the scope of the tree. -/
theorem Packed.Relocates.walk_eq {p : Packed} {f : Function ι} (h : p.Relocates place f) (ts : List Turn) :
    p.walk ts = ((Node.scope f.scope).view p.block place).walk ts := by
  rw [Packed.walk, Packed.root, h.root]
  rfl

end

end TreePack
