import Mathlib.Data.Set.Finite.List
import TreePack.Proofs.Accepting
import TreePack.Proofs.Branches
import TreePack.Proofs.PackedDumps

namespace TreePack

/-! ### Views that can be read -/

def Block.HasText (b : Block) (o : Offset) : Prop := ∃ t, b.textAt o.toNat = .text t

def Places.Inside (b : Block) (p : Places) : Prop :=
  ∀ i < p.count, ∃ o, p.get i = .ok o ∧ o.toNat + p.stride ≤ b.size

structure ScopeRecord.Readable (b : Block) (r : ScopeRecord Offset) : Prop where
  locals : r.localPlaces.Inside b
  stmts : r.stmtPlaces.Inside b

structure DeclRecord.Readable (b : Block) (r : DeclRecord Offset) : Prop where
  name : ∃ o, r.name = some o ∧ b.HasText o

structure StmtRecord.Readable (b : Block) (r : StmtRecord Offset) : Prop where
  kind : (StmtKind.ofRaw? r.kind).isSome
  label : ∀ o ∈ r.label, b.HasText o
  switch : r.switchPlaces.Inside b

structure ExprRecord.Readable (b : Block) (r : ExprRecord Offset) : Prop where
  kind : (ExprKind.ofRaw? r.kind).isSome
  symbol : ∀ o ∈ r.symbol, b.HasText o
  method : ∀ o ∈ r.method, b.HasText o

def View.Readable : View → Prop
  | .scope v => ∃ r, v.record = .ok r ∧ r.Readable v.block
  | .decl v => ∃ r, v.record = .ok r ∧ r.Readable v.block
  | .stmt v => ∃ r, v.record = .ok r ∧ r.Readable v.block
  | .expr v => ∃ r, v.record = .ok r ∧ r.Readable v.block

def View.Answers : View → Prop
  | .scope v => v.locals.isOk ∧ v.stmts.isOk
  | .decl v => v.name.isOk ∧ v.ty.isOk
  | .stmt v => v.kind.isOk ∧ v.loc.isOk ∧ v.loop.isOk ∧ v.scope.isOk ∧ v.exprs.isOk ∧ v.label.isOk ∧ v.switch.isOk
  | .expr v => v.kind.isOk ∧ v.value.isOk ∧ v.ty.isOk ∧ v.symbol.isOk ∧ v.method.isOk
      ∧ (∀ slot, (v.child slot).isOk)
      ∧ ∃ cs, v.children = .ok cs ∧ ∀ slot w, (slot, w) ∈ cs ↔ v.child slot = .ok (some w)

/-- A packed function whose views can be trusted. -/
structure Packed.Safe (p : Packed) : Prop where
  /-- No walk faults, and where it ends there is a view that can be read and answers. -/
  reads : ∀ ts, p.walk ts = .ok none ∨ ∃ v, p.walk ts = .ok (some v) ∧ v.Readable ∧ v.Answers
  /-- A loop reference leads to a loop that a walk of owned turns reaches. -/
  loops : ∀ ts v w, p.walk ts = .ok (some (.stmt v)) → v.loop = .ok (some w) →
    (∃ us, (∀ t ∈ us, t.Owned) ∧ p.walk us = .ok (some (.stmt w)))
      ∧ ∃ kind, w.kind = .ok kind ∧ kind.isLoopTarget
  argTypes : ∃ types, p.argTypes = .ok types
  /-- Walks of owned turns that end at one offset are the same. -/
  unique : ∀ ts us v w, (∀ t ∈ ts, t.Owned) → (∀ t ∈ us, t.Owned) → p.walk ts = .ok (some v) →
    p.walk us = .ok (some w) → v.offset = w.offset → ts = us
  /-- There are finitely many of them. -/
  finite : Set.Finite {ts | (∀ t ∈ ts, t.Owned) ∧ ∃ v, p.walk ts = .ok (some v)}
  /-- Following the owning pointers comes to an end, -/
  ends : ∃ s, p.readScope = .ok s
  /-- and so does printing. -/
  dumps : ∀ depth, ∃ text, p.root.dump depth = .ok text

variable {ι : Type} {b : Block} {place : ι → Offset}

theorem Block.hasText_of_held {t : Leaf ι Text} (h : (textPiece t).HeldIn b place) : b.HasText (place t.id) :=
  ⟨t.val, Block.textAt_eq_text_iff.mpr ((held_textPiece t).mp h).2⟩

theorem Block.hasText_of_held_option {t : Option (Leaf ι Text)} (h : ∀ u ∈ t, (textPiece u).HeldIn b place) :
    ∀ o ∈ t.map fun u => place u.id, b.HasText o := by
  intro o ho
  obtain ⟨u, hu, rfl⟩ := Option.map_eq_some_iff.mp ho
  exact Block.hasText_of_held (h u hu)

theorem Places.stride_ofArray (base : Option Offset) (count : UInt64) (stride : Nat) :
    (Places.ofArray base count stride).stride = stride := by
  cases base <;> rfl

/-- A row of offsets inside the block is a row of places inside it. -/
theorem Places.Lists.inside {p : Places} {os : List Offset} (h : p.Lists os)
    (hinside : ∀ o ∈ os, o.toNat + p.stride ≤ b.size) : p.Inside b := by
  intro i hi
  rw [h.count] at hi
  have hget : os[i]? = some os[i] := List.getElem?_eq_getElem hi
  exact ⟨os[i], h.get i _ hget, hinside _ (List.mem_of_getElem? hget)⟩

/-- The elements of a held array lie inside the block. -/
theorem InRow.inside {α : Type} {key : α → ι} {stride : Nat} {xs : List α}
    (hrow : InRow place stride (xs.map key)) (hstride : 0 < stride)
    (hinside : ∀ x ∈ xs, (place (key x)).toNat + stride ≤ b.size) :
    (Places.ofArray ((arrayBase (xs.map key)).map place) xs.length.toUInt64 stride).Inside b := by
  apply (hrow.placesOf hstride hinside).inside
  rw [Places.stride_ofArray]
  exact List.forall_mem_map.mpr hinside

/-- All that the record of a scope refers to can be read. -/
theorem Scope.readable_of_held {s : Scope ι} (h : Held b place s.pieces) :
    (s.recordAt place).Readable b := by
  cases s with
  | mk id locals stmts =>
    obtain ⟨-, ⟨hlocalRow, hlocals⟩, ⟨hstmtRow, hstmts⟩, -⟩ := (Scope.held_iff id locals stmts).mp h
    constructor
    · exact hlocalRow.inside (of_decide_eq_true rfl) fun l hl => (hlocals l hl).le
    · exact hstmtRow.inside (of_decide_eq_true rfl) fun s hs => Stored.le_of_readAt (hstmts s hs)

/-- All that the record of a statement refers to can be read. -/
theorem Stmt.readable_of_held {s : Stmt ι} (h : Held b place s.pieces) :
    (s.recordAt place).Readable b := by
  cases s with
  | mk head scope exprs =>
    obtain ⟨-, -, hlabel, hrow, hswitch⟩ := (Stmt.held_iff head scope exprs).mp h
    refine ⟨?_, Block.hasText_of_held_option hlabel, ?_⟩
    · change (StmtKind.ofRaw? head.kind.toRaw).isSome
      rw [StmtKind.ofRaw?_toRaw]
      rfl
    · exact hrow.inside (of_decide_eq_true rfl) fun n hn => Stored.le_of_readAt (hswitch n hn)

theorem Expr.readable_of_held {e : Expr ι} (h : Held b place e.pieces) :
    (e.recordAt place).Readable b := by
  cases e with
  | node head children =>
    obtain ⟨-, hsymbol, hmethod, -⟩ := (Expr.held_iff head children).mp h
    refine ⟨?_, Block.hasText_of_held_option hsymbol, Block.hasText_of_held_option hmethod⟩
    change (ExprKind.ofRaw? head.kind.toRaw).isSome
    rw [ExprKind.ofRaw?_toRaw]
    rfl

/-- The view of a held node can be read. -/
theorem Node.HeldIn.readable {n : Node ι} (h : n.HeldIn b place) : (n.view b place).Readable := by
  have hheld := h.held
  cases n with
  | scope s =>
    have hread : Stored.readAt b (place s.id) = .ok (s.recordAt place) := by
      cases s with
      | mk id locals stmts => exact ((Scope.held_iff id locals stmts).mp hheld).1.2
    exact ⟨_, hread, Scope.readable_of_held hheld⟩
  | decl l =>
    obtain ⟨⟨argCount, hread⟩, hname⟩ := hheld
    exact ⟨_, hread, ⟨_, rfl, Block.hasText_of_held hname⟩⟩
  | stmt s => exact ⟨_, hheld.1, Stmt.readable_of_held hheld.2⟩
  | expr e =>
    have hread : Stored.readAt b (place e.id) = .ok (e.recordAt place) := by
      cases e with
      | node head children => exact ((Expr.held_iff head children).mp hheld).1.2
    exact ⟨_, hread, Expr.readable_of_held hheld⟩

/-! ### Views that can be read answer -/

section

variable {β : Type} [Stored β] {p : Places}

theorem Places.Inside.collectFrom (h : p.Inside b) (hstride : p.stride = Stored.size β) (count i : Nat)
    (hcount : i + count ≤ p.count) : ∃ xs : List β, p.collectFrom (Stored.readAt b) count i = .ok xs := by
  induction count generalizing i with
  | zero => exact ⟨[], rfl⟩
  | succ count ih =>
    obtain ⟨o, hget, hinside⟩ := h i (by omega)
    rw [hstride] at hinside
    obtain ⟨x, hx⟩ := Stored.exists_readAt (α := β) hinside
    obtain ⟨xs, hxs⟩ := ih (i + 1) (by omega)
    refine ⟨x :: xs, ?_⟩
    rw [Places.collectFrom, hget, ok_bind, hx, ok_bind, hxs]
    rfl

/-- A row inside the block can be read element by element. -/
theorem Places.Inside.collect (h : p.Inside b) (hstride : p.stride = Stored.size β) :
    ∃ xs : List β, p.collect (Stored.readAt b) = .ok xs :=
  h.collectFrom hstride p.count 0 (Nat.zero_add _).le

end

theorem Block.HasText.exists_readText {o : Offset} (h : b.HasText o) : ∃ t, b.readText o = .ok t := by
  obtain ⟨t, ht⟩ := h
  exact ⟨t, by rw [Block.readText, ht]⟩

/-- The text at a pointer can be asked for, whether the pointer is there or not. -/
theorem isOk_readText {o : Option Offset} : (∀ o' ∈ o, b.HasText o') →
    (match o with
      | some o => return some (← b.readText o)
      | none => return none : Except Fault (Option Text)).isOk := by
  intro h
  cases o with
  | none => rfl
  | some o =>
    obtain ⟨t, ht⟩ := (h o rfl).exists_readText
    simp only [ht]
    rfl

/-- The children listed are the slots that are not empty, in order. -/
theorem ExprView.mem_children_iff {v : ExprView} {cs : List (Nat × ExprView)} (h : v.children = .ok cs)
    {slot : Nat} {w : ExprView} : (slot, w) ∈ cs ↔ v.child slot = .ok (some w) := by
  obtain ⟨r, hrecord, h⟩ := exists_of_bind_eq_ok h
  cases h
  rw [child, hrecord, ok_bind]
  simp only [List.mem_filterMap, Prod.exists, List.mem_zipIdx_iff_getElem?, Option.map_eq_some_iff, Prod.mk.injEq]
  constructor
  · rintro ⟨_, _, hget, o, rfl, rfl, rfl⟩
    rw [Vector.getElem?_toList] at hget
    rw [hget]
    rfl
  · intro hchild
    obtain ⟨o, hget, rfl⟩ := Option.map_eq_some_iff.mp (Except.ok.inj hchild)
    refine ⟨some o, slot, ?_, o, rfl, rfl, rfl⟩
    rw [Vector.getElem?_toList]
    exact Option.join_eq_some_iff.mp hget

/-- Every question that can be asked of a readable view has an answer. -/
theorem View.Readable.answers {v : View} (h : v.Readable) : v.Answers := by
  -- Every answer is read off the record, or off something the record refers to.
  cases v with
  | scope v =>
    obtain ⟨r, hrecord, -⟩ := h
    simp only [View.Answers, ScopeView.locals, ScopeView.stmts, hrecord]
    exact ⟨rfl, rfl⟩
  | decl v =>
    obtain ⟨r, hrecord, o, hname, htext⟩ := h
    obtain ⟨t, ht⟩ := htext.exists_readText
    simp only [View.Answers, DeclView.name, DeclView.ty, hrecord, ok_bind, hname, ht]
    exact ⟨rfl, rfl⟩
  | stmt v =>
    obtain ⟨r, hrecord, hreadable⟩ := h
    obtain ⟨ns, hns⟩ := hreadable.switch.collect (β := UInt64) (Places.stride_ofArray _ _ _)
    simp only [View.Answers, StmtView.kind, StmtView.loc, StmtView.loop, StmtView.scope, StmtView.exprs,
      StmtView.label, StmtView.switch, hrecord, ok_bind, hns]
    exact ⟨rfl, rfl, rfl, rfl, rfl, isOk_readText hreadable.label, rfl⟩
  | expr v =>
    obtain ⟨r, hrecord, hreadable⟩ := h
    simp only [View.Answers, ExprView.kind, ExprView.value, ExprView.ty, ExprView.symbol, ExprView.method,
      hrecord, ok_bind]
    refine ⟨rfl, rfl, rfl, isOk_readText hreadable.symbol, isOk_readText hreadable.method, fun slot => ?_, ?_⟩
    · rw [ExprView.child, hrecord]
      rfl
    · obtain ⟨cs, hcs⟩ : ∃ cs, v.children = .ok cs := ⟨_, by rw [ExprView.children, hrecord]; rfl⟩
      exact ⟨cs, hcs, fun slot w => ExprView.mem_children_iff hcs⟩

/-! ### Walks of a relocated function -/

def Function.Has (f : Function ι) (n : Node ι) : Prop := ∃ ts, (Node.scope f.scope).walk ts = some n

namespace Function.Has

variable {f : Function ι} {n m : Node ι} {t : Turn}

/-- What one turn leads to is part of the tree, if its start is. -/
theorem of_follow (h : f.Has n) (hm : n.follow t = some m) : f.Has m := by
  obtain ⟨ts, hwalk⟩ := h
  exact ⟨ts ++ [t], (Node.walk_concat _ ts t).trans (by rw [hwalk]; exact hm)⟩

theorem heldIn {p : Packed} (h : f.Has n) (hrelocates : p.Relocates place f) (hwell : f.WellFormed) :
    n.HeldIn p.block place := by
  obtain ⟨ts, hwalk⟩ := h
  exact (hrelocates.heldIn hwell).of_walk hwalk

/-- A loop reference of the function names a loop of it. -/
theorem exists_loop {s : Stmt ι} (h : f.Has (.stmt s)) (hwell : f.WellFormed) {target : ι}
    (htarget : s.head.loop = some target) :
    ∃ t, f.Has (.stmt t) ∧ t.id = target ∧ t.head.kind.isLoopTarget := by
  obtain ⟨ts, hwalk⟩ := h
  have hmem : s ∈ f.scope.allStmts := Node.allStmts_of_walk hwalk s s.mem_allStmts_self
  obtain ⟨t, ht, hid, hkind⟩ := hwell.loops s hmem target htarget
  exact ⟨t, f.scope.exists_walk t ht, hid, hkind⟩

/-- A turn from a node of the function leads to the same node in all blocks that hold the function at the
offsets of `place`, or nowhere. -/
theorem exists_follow (place : ι → Offset) (hn : f.Has n) (hwell : f.WellFormed) (t : Turn) :
    ∃ m : Option (Node ι), (∀ k ∈ m, f.Has k) ∧ ∀ p : Packed, p.Relocates place f →
      (n.view p.block place).follow t = .ok (m.map (Node.view p.block place)) := by
  by_cases howned : t.Owned
  · refine ⟨n.follow t, fun k hk => hn.of_follow hk, fun p h => ?_⟩
    exact (hn.heldIn h hwell).follow howned
  · -- Only a loop reference is not owned, and only a statement has one.
    obtain rfl : t = .toLoop := not_not.mp howned
    cases n with
    | stmt s =>
      have hview (p : Packed) (h : p.Relocates place f) := StmtView.loop_of_held (hn.heldIn h hwell).held.1
      cases hloop : s.head.loop with
      | none =>
        refine ⟨none, fun _ hk => absurd hk (Option.not_mem_none _), fun p h => ?_⟩
        simp only [Node.view, View.follow, hview p h, hloop]
        rfl
      | some target =>
        obtain ⟨u, hu, rfl, -⟩ := hn.exists_loop hwell hloop
        refine ⟨some (.stmt u), fun k hk => ?_, fun p h => ?_⟩
        · cases hk
          exact hu
        · simp only [Node.view, View.follow, hview p h, hloop]
          rfl
    | scope _ | decl _ | expr _ => exact ⟨none, fun _ hk => absurd hk (Option.not_mem_none _), fun _ _ => rfl⟩

/-- A walk from a node of the function ends at the same node in all blocks that hold the function at the offsets
of `place`, or nowhere. -/
theorem exists_walk (place : ι → Offset) (hn : f.Has n) (hwell : f.WellFormed) (ts : List Turn) :
    ∃ m : Option (Node ι), (∀ k ∈ m, f.Has k) ∧ ∀ p : Packed, p.Relocates place f →
      (n.view p.block place).walk ts = .ok (m.map (Node.view p.block place)) := by
  -- On the walk, for every node of the function: that the view is one of such a node is what each turn keeps.
  induction ts generalizing n with
  | nil =>
    refine ⟨some n, fun k hk => ?_, fun _ _ => rfl⟩
    cases hk
    exact hn
  | cons t ts ih =>
    obtain ⟨m, hm, hturn⟩ := hn.exists_follow place hwell t
    cases m with
    | none => exact ⟨none, hm, fun p h => View.walk_cons_of_none (hturn p h) ts⟩
    | some k =>
      obtain ⟨m, hm, hrest⟩ := ih (hm k rfl)
      exact ⟨m, hm, fun p h => (View.walk_cons_of_some (hturn p h) ts).trans (hrest p h)⟩

end Function.Has

/-- Every walk in blocks that hold the function at the offsets of `place` ends at one of its nodes, or nowhere. -/
theorem Function.exists_walk (place : ι → Offset) {f : Function ι} (hwell : f.WellFormed) (ts : List Turn) :
    ∃ m : Option (Node ι), (∀ k ∈ m, f.Has k) ∧ ∀ p : Packed, p.Relocates place f →
      p.walk ts = .ok (m.map (Node.view p.block place)) := by
  have hroot : f.Has (.scope f.scope) := ⟨[], rfl⟩
  obtain ⟨m, hm, hwalk⟩ := hroot.exists_walk place hwell ts
  exact ⟨m, hm, fun p h => (h.walk_eq ts).trans (hwalk p h)⟩

namespace Packed.Relocates

variable {p : Packed} {f : Function ι}

/-- A walk over the block never fails: it leads nowhere, or to the view of a node of the tree. -/
theorem walk (h : p.Relocates place f) (hwell : f.WellFormed) (ts : List Turn) :
    p.walk ts = .ok none ∨ ∃ m, f.Has m ∧ p.walk ts = .ok (some (m.view p.block place)) := by
  obtain ⟨m, hm, hwalk⟩ := f.exists_walk place hwell ts
  cases m with
  | none => exact .inl (hwalk p h)
  | some k => exact .inr ⟨k, hm k rfl, hwalk p h⟩

/-- A walk of owned turns is one along the tree. -/
theorem exists_of_owned_walk (h : p.Relocates place f) (hwell : f.WellFormed) {ts : List Turn} {v : View}
    (howned : ∀ t ∈ ts, t.Owned) (hwalk : p.walk ts = .ok (some v)) :
    ∃ m, (Node.scope f.scope).walk ts = some m ∧ v = m.view p.block place := by
  rw [h.walk_eq, (h.heldIn hwell).walk howned] at hwalk
  obtain ⟨m, hm, rfl⟩ := Option.map_eq_some_iff.mp (Except.ok.inj hwalk)
  exact ⟨m, hm, rfl⟩

end Packed.Relocates

/-- Walks of owned turns that end at one offset are the same. -/
theorem Packed.Relocates.walk_unique {p : Packed} {f : Function ι} {ts us : List Turn} {m k : Node ι}
    (h : p.Relocates place f) (hm : (Node.scope f.scope).walk ts = some m)
    (hk : (Node.scope f.scope).walk us = some k) (hplace : place m.id = place k.id) : ts = us := by
  have hplaces : (((Node.scope f.scope).ids).map place).Nodup := by
    have hall := h.nodup
    rw [Function.pieces, idsOf_append, List.map_append] at hall
    exact (List.nodup_append.mp hall).1
  have hid : m.id = k.id := by
    apply List.inj_on_of_nodup_map hplaces _ _ hplace
    · exact Node.ids_subset_of_walk hm _ m.id_mem_ids
    · exact Node.ids_subset_of_walk hk _ k.id_mem_ids
  exact Node.walk_unique (List.Nodup.of_map place hplaces) hm hk hid

/-- A loop reference that a walk finds leads to a loop statement, which a walk of owned turns reaches as well. -/
theorem Packed.Relocates.reaches_loop {p : Packed} {f : Function ι} (h : p.Relocates place f)
    (hwell : f.WellFormed) {ts : List Turn} {v w : StmtView} (hwalk : p.walk ts = .ok (some (.stmt v)))
    (hloop : v.loop = .ok (some w)) : (∃ us, (∀ t ∈ us, t.Owned) ∧ p.walk us = .ok (some (.stmt w)))
      ∧ ∃ kind, w.kind = .ok kind ∧ kind.isLoopTarget := by
  rcases h.walk hwell ts with hnone | ⟨m, hm, hsome⟩
  · rw [hnone] at hwalk
    cases hwalk
  · rw [hsome] at hwalk
    cases m with
    | stmt s =>
      cases hwalk
      rw [StmtView.loop_of_held (hm.heldIn h hwell).held.1] at hloop
      obtain ⟨target, htarget, rfl⟩ := Option.map_eq_some_iff.mp (Except.ok.inj hloop)
      obtain ⟨u, ⟨us, hus⟩, rfl, hkind⟩ := hm.exists_loop hwell htarget
      have howned := Node.owned_of_walk hus
      have hheld := (h.heldIn hwell).of_walk hus
      refine ⟨⟨us, howned, ?_⟩, u.head.kind, StmtView.kind_of_held hheld.held.1, hkind⟩
      rw [h.walk_eq, (h.heldIn hwell).walk howned, hus]
      rfl
    | scope _ | decl _ | expr _ => cases hwalk

/-- Walks of owned turns never meet, so they are no more than the nodes at which they end. -/
theorem Packed.Relocates.finite_walks {p : Packed} {f : Function ι} (h : p.Relocates place f)
    (hwell : f.WellFormed) : Set.Finite {ts | (∀ t ∈ ts, t.Owned) ∧ ∃ v, p.walk ts = .ok (some v)} := by
  let last (ts : List Turn) : Option Offset := ((Node.scope f.scope).walk ts).map fun m => place m.id
  let ends := (Node.scope f.scope).ids.map fun q => some (place q)
  apply Set.Finite.of_injOn (f := last) (t := {o | o ∈ ends})
  · rintro ts ⟨howned, v, hwalk⟩
    obtain ⟨m, hm, -⟩ := h.exists_of_owned_walk hwell howned hwalk
    have hmem := Node.ids_subset_of_walk hm _ m.id_mem_ids
    simp only [last, hm]
    exact List.mem_map_of_mem (f := fun q => some (place q)) hmem
  · rintro ts ⟨hts, v, hv⟩ us ⟨hus, w, hw⟩ heq
    obtain ⟨m, hm, -⟩ := h.exists_of_owned_walk hwell hts hv
    obtain ⟨k, hk, -⟩ := h.exists_of_owned_walk hwell hus hw
    simp only [last, hm, hk] at heq
    exact h.walk_unique hm hk (Option.some.inj heq)
  · exact List.finite_toSet ends

/-- A block that holds a well-formed tree is safe to walk. -/
theorem Packed.Relocates.safe {p : Packed} {f : Function ι} (h : p.Relocates place f)
    (hwell : f.WellFormed) : p.Safe := by
  constructor
  case reads =>
    intro ts
    rcases h.walk hwell ts with hnone | ⟨m, hm, hsome⟩
    · exact .inl hnone
    · have hreadable := (hm.heldIn h hwell).readable
      exact .inr ⟨_, hsome, hreadable, hreadable.answers⟩
  case loops => exact fun ts v w => h.reaches_loop hwell
  case argTypes => exact ⟨_, (h.shows hwell).argTypes⟩
  case unique =>
    intro ts us v w hts hus hv hw hoffset
    obtain ⟨m, hm, rfl⟩ := h.exists_of_owned_walk hwell hts hv
    obtain ⟨k, hk, rfl⟩ := h.exists_of_owned_walk hwell hus hw
    rw [Node.offset_view, Node.offset_view] at hoffset
    exact h.walk_unique hm hk hoffset
  case finite => exact h.finite_walks hwell
  case ends => exact ⟨_, h.readScope hwell⟩
  case dumps => exact fun depth => ⟨_, h.dump hwell depth⟩

/-- The views of a packed function that passes its check can be trusted. -/
theorem Packed.safe_of_verify {p : Packed} {report : Report} (h : p.verify = .ok report) : p.Safe := by
  obtain ⟨f, hwell, hrelocates⟩ := p.exists_report_iff.mp ⟨report, h⟩
  exact hrelocates.safe hwell

/-- A break in a loop, written and verified. -/
theorem safe_packed_breakInLoop :
    ∃ size planned allocated p cx' report, Context.plan breakInLoop Context.empty = .ok size planned
      ∧ Context.allocate Allocator.heap planned = .ok () allocated
      ∧ Context.write breakInLoop allocated = .ok p cx' ∧ p.verify = .ok report ∧ p.Safe := by
  obtain ⟨size, planned, allocated, hplan, halloc⟩ :=
    Context.exists_allocated (by decide) breakInLoop_wellFormed (by decide) Context.empty
  obtain ⟨p, cx', hwrite, hrelocates, hwell⟩ := Context.write_relocates hplan halloc
  obtain ⟨report, hverify⟩ := hrelocates.exists_report hwell
  exact ⟨size, planned, allocated, p, cx', report, hplan, halloc, hwrite, hverify,
    Packed.safe_of_verify hverify⟩

end TreePack
