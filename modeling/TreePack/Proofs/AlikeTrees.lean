import TreePack.Proofs.Renaming
import TreePack.Proofs.Views

namespace TreePack

variable {ι κ : Type}

def Function.shape (f : Function ι) : Function Unit := f.rename fun _ => ()

def Function.SamePlace (f : Function ι) (g : Function κ) (x : ι) (y : κ) : Prop :=
  ∀ i : Nat, (idsOf f.pieces)[i]? = some x ↔ (idsOf g.pieces)[i]? = some y

/-- Two functions agree in every field but the identities, and their loop references correspond. -/
structure Function.Alike (f : Function ι) (g : Function κ) : Prop where
  shape : f.shape = g.shape
  loops : List.Forall₂ (fun s t => ∀ x ∈ s.head.loop, ∀ y ∈ t.head.loop, f.SamePlace g x y)
    f.scope.allStmts g.scope.allStmts

def Function.SameLoopRef (f : Function ι) (g : Function κ) (x : ι) (y : κ) : Prop :=
  ∃ (i : Nat) (s : Stmt ι) (t : Stmt κ), f.scope.allStmts[i]? = some s ∧ g.scope.allStmts[i]? = some t
    ∧ s.head.loop = some x ∧ t.head.loop = some y

def Malformed.node? : Malformed ι → Option ι
  | functionLocal _ | tooManyExpressions _ _ => none
  | danglingLoopRef node | loopRefNotStatement node | loopRefNotLoop node => some node

/-! ### A pair of trees as a tree of pairs -/

section

variable {α β γ δ : Type} {first : γ → α} {second : γ → β} {a : α → δ} {b : β → δ}
  (hpair : ∀ x y, a x = b y → ∃ z, first z = x ∧ second z = y)

include hpair

theorem exists_pair_list {xs : List α} {ys : List β} (h : xs.map a = ys.map b) :
    ∃ zs : List γ, zs.map first = xs ∧ zs.map second = ys := by
  induction xs generalizing ys with
  | nil =>
    have hnil : ys = [] := List.map_eq_nil_iff.mp h.symm
    exact ⟨[], rfl, hnil.symm⟩
  | cons x xs ih =>
    cases ys with
    | nil => cases h
    | cons y ys =>
      -- Lists with equal images are of one length, so they are paired place by place.
      obtain ⟨hhead, htail⟩ := List.cons.inj h
      obtain ⟨z, rfl, rfl⟩ := hpair x y hhead
      obtain ⟨zs, rfl, rfl⟩ := ih htail
      exact ⟨z :: zs, rfl, rfl⟩

theorem exists_pair_option {x : Option α} {y : Option β} (h : x.map a = y.map b) :
    ∃ z : Option γ, z.map first = x ∧ z.map second = y := by
  cases x with
  | none =>
    cases y with
    | none => exact ⟨none, rfl, rfl⟩
    | some y => cases h
  | some x =>
    cases y with
    | none => cases h
    | some y =>
      obtain ⟨z, rfl, rfl⟩ := hpair x y (Option.some.inj h)
      exact ⟨some z, rfl, rfl⟩

end

abbrev anonymous {ι : Type} (_ : ι) : Unit := ()

theorem Leaf.exists_pair {α : Type} (t : Leaf ι α) (u : Leaf κ α) (h : t.rename anonymous = u.rename anonymous) :
    ∃ p : Leaf (ι × κ) α, p.rename Prod.fst = t ∧ p.rename Prod.snd = u := by
  have hval : t.val = u.val := congrArg Leaf.val h
  refine ⟨⟨(t.id, u.id), t.val⟩, rfl, ?_⟩
  rw [hval]
  rfl

theorem ExprHead.exists_pair (e : ExprHead ι) (e' : ExprHead κ) (h : e.rename anonymous = e'.rename anonymous) :
    ∃ p : ExprHead (ι × κ), p.rename Prod.fst = e ∧ p.rename Prod.snd = e' := by
  cases e with
  | mk id kind value ty symbol method =>
    cases e' with
    | mk id' kind' value' ty' symbol' method' =>
      injection h with _ hkind hvalue hty hsymbol hmethod
      cases hkind
      cases hvalue
      cases hty
      obtain ⟨symbols, rfl, rfl⟩ := exists_pair_option Leaf.exists_pair hsymbol
      obtain ⟨methods, rfl, rfl⟩ := exists_pair_option Leaf.exists_pair hmethod
      exact ⟨⟨(id, id'), kind, value, ty, symbols, methods⟩, rfl, rfl⟩

mutual

/-- Two expressions that differ in identities only are the two sides of one expression over pairs
of identities. The same holds of heads, slots, declarations and whole scopes below. -/
theorem Expr.exists_pair (e : Expr ι) (e' : Expr κ) (h : e.rename anonymous = e'.rename anonymous) :
    ∃ p : Expr (ι × κ), p.rename Prod.fst = e ∧ p.rename Prod.snd = e' := by
  match e, e', h with
  | .node head children, .node head' children', h =>
    obtain ⟨hhead, hchildren⟩ := Expr.node.inj h
    obtain ⟨heads, rfl, rfl⟩ := ExprHead.exists_pair head head' hhead
    obtain ⟨slots, rfl, rfl⟩ := Slots.exists_pair children children' hchildren
    exact ⟨.node heads slots, rfl, rfl⟩

theorem Slots.exists_pair {n : Nat} (s : Slots ι n) (s' : Slots κ n)
    (h : s.rename anonymous = s'.rename anonymous) :
    ∃ p : Slots (ι × κ) n, p.rename Prod.fst = s ∧ p.rename Prod.snd = s' := by
  match s, s', h with
  | .nil, .nil, _ => exact ⟨.nil, rfl, rfl⟩
  | .empty slots, .empty slots', h =>
    obtain ⟨pairs, rfl, rfl⟩ := Slots.exists_pair slots slots' (Slots.empty.inj h)
    exact ⟨.empty pairs, rfl, rfl⟩
  | .full child slots, .full child' slots', h =>
    obtain ⟨hchild, hslots⟩ := Slots.full.inj h
    obtain ⟨pair, rfl, rfl⟩ := Expr.exists_pair child child' hchild
    obtain ⟨pairs, rfl, rfl⟩ := Slots.exists_pair slots slots' hslots
    exact ⟨.full pair pairs, rfl, rfl⟩
  | .empty slots, .full child' slots', h => cases h
  | .full child slots, .empty slots', h => cases h

end

theorem Local.exists_pair (l : Local ι) (l' : Local κ) (h : l.rename anonymous = l'.rename anonymous) :
    ∃ p : Local (ι × κ), p.rename Prod.fst = l ∧ p.rename Prod.snd = l' := by
  cases l with
  | mk id name ty isFunction =>
    cases l' with
    | mk id' name' ty' isFunction' =>
      injection h with _ hname hty hfun
      cases hty
      cases hfun
      obtain ⟨names, rfl, rfl⟩ := Leaf.exists_pair name name' hname
      exact ⟨⟨(id, id'), names, ty, isFunction⟩, rfl, rfl⟩

/-- A loop reference is paired with the other tree's reference to it; `sameLoc` keeps the
locations, which have no identity. -/
theorem StmtHead.exists_pair (s : StmtHead ι) (s' : StmtHead κ)
    (h : s.relabel anonymous sameLoc = s'.relabel anonymous sameLoc) :
    ∃ p : StmtHead (ι × κ), p.relabel Prod.fst sameLoc = s ∧ p.relabel Prod.snd sameLoc = s' := by
  cases s with
  | mk id kind loc loop label switch =>
    cases s' with
    | mk id' kind' loc' loop' label' switch' =>
      -- All that differs are identities, of the statement, its target and its leaves.
      injection h with _ hkind hloc hloop hlabel hswitch
      cases hkind
      cases hloc
      have htarget (x : ι) (y : κ) (_ : anonymous x = anonymous y) : ∃ z : ι × κ, z.1 = x ∧ z.2 = y :=
        ⟨(x, y), rfl, rfl⟩
      obtain ⟨loops, rfl, rfl⟩ := exists_pair_option htarget hloop
      obtain ⟨labels, rfl, rfl⟩ := exists_pair_option Leaf.exists_pair hlabel
      obtain ⟨switches, rfl, rfl⟩ := exists_pair_list Leaf.exists_pair hswitch
      exact ⟨⟨(id, id'), kind, loc, loops, labels, switches⟩, rfl, rfl⟩

mutual

theorem Scope.exists_pair (s : Scope ι) (s' : Scope κ)
    (h : s.relabel anonymous sameLoc = s'.relabel anonymous sameLoc) :
    ∃ p : Scope (ι × κ), p.relabel Prod.fst sameLoc = s ∧ p.relabel Prod.snd sameLoc = s' := by
  match s, s', h with
  | ⟨id, locals, stmts⟩, ⟨id', locals', stmts'⟩, h =>
    obtain ⟨-, hlocals, hstmts⟩ := Scope.mk.inj h
    obtain ⟨localPairs, rfl, rfl⟩ := exists_pair_list Local.exists_pair hlocals
    obtain ⟨stmtPairs, rfl, rfl⟩ := stmtList_exists_pair stmts stmts' hstmts
    exact ⟨⟨(id, id'), localPairs, stmtPairs⟩, rfl, rfl⟩

theorem Stmt.exists_pair (s : Stmt ι) (s' : Stmt κ)
    (h : s.relabel anonymous sameLoc = s'.relabel anonymous sameLoc) :
    ∃ p : Stmt (ι × κ), p.relabel Prod.fst sameLoc = s ∧ p.relabel Prod.snd sameLoc = s' := by
  match s, s', h with
  | ⟨head, scope, exprs⟩, ⟨head', scope', exprs'⟩, h =>
    obtain ⟨hhead, hscope, hexprs⟩ := Stmt.mk.inj h
    obtain ⟨heads, rfl, rfl⟩ := StmtHead.exists_pair head head' hhead
    obtain ⟨scopes, rfl, rfl⟩ := nested_exists_pair scope scope' hscope
    obtain ⟨exprPairs, rfl, rfl⟩ := exists_pair_list Expr.exists_pair hexprs
    exact ⟨⟨heads, scopes, exprPairs⟩, rfl, rfl⟩

theorem stmtList_exists_pair (ss : List (Stmt ι)) (ss' : List (Stmt κ))
    (h : stmtListRelabel anonymous sameLoc ss = stmtListRelabel anonymous sameLoc ss') :
    ∃ ps : List (Stmt (ι × κ)), stmtListRelabel Prod.fst sameLoc ps = ss
      ∧ stmtListRelabel Prod.snd sameLoc ps = ss' := by
  match ss, ss', h with
  | [], [], _ => exact ⟨[], rfl, rfl⟩
  | s :: ss, s' :: ss', h =>
    obtain ⟨hhead, htail⟩ := List.cons.inj h
    obtain ⟨p, rfl, rfl⟩ := Stmt.exists_pair s s' hhead
    obtain ⟨ps, rfl, rfl⟩ := stmtList_exists_pair ss ss' htail
    exact ⟨p :: ps, rfl, rfl⟩
  | [], s' :: ss', h => cases h
  | s :: ss, [], h => cases h

theorem nested_exists_pair (s : Option (Scope ι)) (s' : Option (Scope κ))
    (h : nestedRelabel anonymous sameLoc s = nestedRelabel anonymous sameLoc s') :
    ∃ p : Option (Scope (ι × κ)), nestedRelabel Prod.fst sameLoc p = s
      ∧ nestedRelabel Prod.snd sameLoc p = s' := by
  match s, s', h with
  | none, none, _ => exact ⟨none, rfl, rfl⟩
  | some s, some s', h =>
    obtain ⟨p, rfl, rfl⟩ := Scope.exists_pair s s' (Option.some.inj h)
    exact ⟨some p, rfl, rfl⟩
  | none, some s', h => cases h
  | some s, none, h => cases h

end

/-- Functions of one shape are the two halves of a function. -/
theorem Function.exists_pair (f : Function ι) (g : Function κ) (h : f.shape = g.shape) :
    ∃ p : Function (ι × κ), p.rename Prod.fst = f ∧ p.rename Prod.snd = g := by
  cases f with
  | mk scope args =>
    cases g with
    | mk scope' args' =>
      injection h with hscope hargs
      obtain ⟨scopes, rfl, rfl⟩ := Scope.exists_pair scope scope' hscope
      obtain ⟨argPairs, rfl, rfl⟩ := exists_pair_list Leaf.exists_pair hargs
      exact ⟨⟨scopes, argPairs⟩, rfl, rfl⟩

/-! ### The node that a refusal names -/

/-- Defects of the shape name no node, so renaming has nothing to change in them. -/
theorem node?_of_mem_shapeDefects (f : Function ι) {d : Malformed ι} (h : d ∈ f.scope.shapeDefects) :
    d.node? = none := by
  -- A defect of the shape is met on the walk, where only locals and statements have one.
  rw [← defectsOf_visits] at h
  obtain ⟨v, -, hv⟩ := List.mem_filterMap.mp h
  cases v with
  | place p => cases hv
  | leave => cases hv
  | enterLocal l =>
    by_cases hfun : l.isFunction
    · rw [Visit.defect?, Local.defect?, if_pos hfun] at hv
      cases hv
      rfl
    · rw [Visit.defect?, Local.defect?, if_neg hfun] at hv
      cases hv
  | enterStmt s =>
    by_cases hmany : maxExprs < s.exprs.length
    · rw [Visit.defect?, exprsDefect?, if_pos hmany] at hv
      cases hv
      rfl
    · rw [Visit.defect?, exprsDefect?, if_neg hmany] at hv
      cases hv

/-- A refusal names at most a node, to which a loop reference leads. -/
theorem Function.Refused.exists_loop {f : Function ι} {d : Malformed ι} (h : f.Refused d) {q : ι}
    (hq : d.node? = some q) : ∃ (i : Nat) (s : Stmt ι), f.scope.allStmts[i]? = some s ∧ s.head.loop = some q := by
  cases h with
  | shape d others h =>
    have hnone : d.node? = none := by
      apply node?_of_mem_shapeDefects f
      rw [h]
      exact List.mem_cons_self
    rw [hnone] at hq
    cases hq
  | loop hshape before after s target d hstmts hbefore hloop hbad =>
    -- A bad reference is named by its target, whatever is bad about it.
    have htarget : d.node? = some target := by
      cases hbad with
      | dangling _ | notStatement _ _ _ _ | notLoop _ _ _ _ => rfl
    refine ⟨before.length, s, ?_, ?_⟩
    · rw [hstmts, List.getElem?_append_right (Nat.le_refl _), Nat.sub_self]
      rfl
    · rw [hloop, ← htarget, hq]

/-! ### The two halves of a function -/

section

variable {p : Function (ι × κ)} (halike : (p.rename Prod.fst).Alike (p.rename Prod.snd))

/-- A defect found in the tree of pairs names the same loop reference in both trees. -/
theorem Function.sameLoopRef_of_pair {d : Malformed (ι × κ)} (h : p.Refused d) :
    ∀ q ∈ d.node?, (p.rename Prod.fst).SameLoopRef (p.rename Prod.snd) q.1 q.2 := by
  intro q hq
  obtain ⟨i, s, hs, hloop⟩ := h.exists_loop hq
  refine ⟨i, s.relabel Prod.fst sameLoc, s.relabel Prod.snd sameLoc, ?_, ?_, ?_, ?_⟩
  · rw [p.allStmts_rename, List.getElem?_map, hs]
    rfl
  · rw [p.allStmts_rename, List.getElem?_map, hs]
    rfl
  · rw [Stmt.head_relabel]
    exact congrArg (Option.map Prod.fst) hloop
  · rw [Stmt.head_relabel]
    exact congrArg (Option.map Prod.snd) hloop

include halike

/-- Alike trees refer to loops at the same place of their visiting order. -/
theorem Function.Alike.samePlace {s : Stmt (ι × κ)} (hs : s ∈ p.scope.allStmts) {q : ι × κ}
    (hq : s.head.loop = some q) (i : Nat) :
    ((idsOf p.pieces).map Prod.fst)[i]? = some q.1 ↔ ((idsOf p.pieces).map Prod.snd)[i]? = some q.2 := by
  have hloops := halike.loops
  rw [p.allStmts_rename, p.allStmts_rename, List.forall₂_map_left_iff, List.forall₂_map_right_iff,
    List.forall₂_same] at hloops
  have hplace := hloops s hs q.1 (by rw [Stmt.head_relabel]; exact congrArg (Option.map Prod.fst) hq) q.2
    (by rw [Stmt.head_relabel]; exact congrArg (Option.map Prod.snd) hq) i
  rw [p.idsOf_rename, p.idsOf_rename] at hplace
  exact hplace

/-- Either half is a faithful renaming if its identities are distinct. -/
theorem Function.Alike.faithful (hfst : (idsOf (p.rename Prod.fst).pieces).Nodup)
    (hsnd : (idsOf (p.rename Prod.snd).pieces).Nodup) : p.Faithful Prod.fst ∧ p.Faithful Prod.snd := by
  rw [p.idsOf_rename] at hfst hsnd
  -- A target that is a node in one half stands at the same place in the other, so the pair of both is a node.
  constructor
  · refine ⟨hfst, fun s hs q hq hmem => ?_⟩
    obtain ⟨i, hi⟩ := List.mem_iff_getElem?.mp hmem
    have hi' := (halike.samePlace hs hq i).mp hi
    rw [List.getElem?_map] at hi hi'
    obtain ⟨node, hnode, hfirst⟩ := Option.map_eq_some_iff.mp hi
    rw [hnode] at hi'
    have heq : node = q := Prod.ext hfirst (Option.some.inj hi')
    rw [← heq]
    exact List.mem_of_getElem? hnode
  · refine ⟨hsnd, fun s hs q hq hmem => ?_⟩
    obtain ⟨i, hi⟩ := List.mem_iff_getElem?.mp hmem
    have hi' := (halike.samePlace hs hq i).mpr hi
    rw [List.getElem?_map] at hi hi'
    obtain ⟨node, hnode, hsecond⟩ := Option.map_eq_some_iff.mp hi
    rw [hnode] at hi'
    have heq : node = q := Prod.ext (Option.some.inj hi') hsecond
    rw [← heq]
    exact List.mem_of_getElem? hnode

end

/-! ### A function and a renaming of it -/

/-- A faithful renaming keeps the places to which the loop references lead. -/
theorem Function.Faithful.samePlace {f : Function ι} {r : ι → κ} (h : f.Faithful r) {s : Stmt ι}
    (hs : s ∈ f.scope.allStmts) {target : ι} (hloop : s.head.loop = some target) :
    f.SamePlace (f.rename r) target (r target) := by
  intro i
  rw [f.idsOf_rename, List.getElem?_map]
  constructor
  · intro hi
    rw [hi]
    rfl
  · intro hi
    obtain ⟨x, hx, hsame⟩ := Option.map_eq_some_iff.mp hi
    have hmem : x ∈ idsOf f.pieces := List.mem_of_getElem? hx
    -- A target with the name of a node is a node, and names of nodes are not shared.
    have hnode : target ∈ idsOf f.pieces := by
      apply h.loops s hs target hloop
      rw [← hsame]
      exact List.mem_map_of_mem hmem
    rw [hx, List.inj_on_of_nodup_map h.nodes hmem hnode hsame]

/-- A faithful renaming that keeps the shape gives an alike tree. -/
theorem Function.Faithful.alike {f : Function ι} {r : ι → κ} (h : f.Faithful r)
    (hshape : f.shape = (f.rename r).shape) :
    f.Alike (f.rename r) := by
  refine ⟨hshape, ?_⟩
  rw [f.allStmts_rename, List.forall₂_map_right_iff, List.forall₂_same]
  intro s hs target htarget target' htarget'
  have hloop : target' = r target := by
    rw [Stmt.head_relabel] at htarget'
    have hmap : s.head.loop.map r = some target' := htarget'
    rw [show s.head.loop = some target from htarget] at hmap
    exact (Option.some.inj hmap).symm
  rw [hloop]
  exact h.samePlace hs htarget

/-! ### Two compactions -/

variable [DecidableEq ι] [Hashable ι] [DecidableEq κ] [Hashable κ]

namespace Context

/-- The heap refuses exactly what no block can be made for. -/
theorem allocate_heap_of_none {f : Function ι} {size : Nat} {cx : Context ι} (hplan : Planned f size cx)
    (hzero : Block.zeroed? size = none) : allocate Allocator.heap cx = .error (.outOfMemory size) cx := by
  rw [allocate_of_planned hplan, Allocator.heap, hzero]

theorem allocate_heap_of_some {f : Function ι} {size : Nat} {cx : Context ι} {block : Block}
    (hplan : Planned f size cx) (hzero : Block.zeroed? size = some block) (hsize : block.size = size) :
    allocate Allocator.heap cx
      = .ok () { cx with stats := { cx.stats with blockBytes := size }, block := some block } := by
  rw [allocate_of_planned hplan, Allocator.heap, hzero]
  simp only [hsize, ↓reduceIte]

/-- After two plans of one size, the heap has no room for either tree, or both are written to the same bytes with
the same offsets and counts. -/
def SameWrites (f : Function ι) (g : Function κ) (size : Nat) (cx : Context ι) (cx' : Context κ) : Prop :=
  (allocate Allocator.heap cx = .error (.outOfMemory size) cx
      ∧ allocate Allocator.heap cx' = .error (.outOfMemory size) cx')
    ∨ ∃ allocated allocated' p done done', allocate Allocator.heap cx = .ok () allocated
      ∧ allocate Allocator.heap cx' = .ok () allocated' ∧ write f allocated = .ok p done
      ∧ write g allocated' = .ok p done' ∧ done'.stats = done.stats

/-- The two sides of one tree of pairs, planned alike, are allocated alike and write the same
block with the same statistics. Each side's ledger is the renamed ledger of the pair, so both are
compared with one run. -/
theorem sameWrites_of_pair {p : Function (ι × κ)} {size : Nat} {cx : Context (ι × κ)} {first : Context ι}
    {second : Context κ} (hplan : Planned p size cx) (hfirst : Planned (p.rename Prod.fst) size first)
    (hsecond : Planned (p.rename Prod.snd) size second) (hstats : first.stats = cx.stats)
    (hstats' : second.stats = cx.stats) :
    SameWrites (p.rename Prod.fst) (p.rename Prod.snd) size first second := by
  cases hzero : Block.zeroed? size with
  | none => exact .inl ⟨allocate_heap_of_none hfirst hzero, allocate_heap_of_none hsecond hzero⟩
  | some block =>
    right
    have hsize : block.size = size := Block.size_of_zeroed? hzero
    have halloc := allocate_heap_of_some hplan hzero hsize
    have halloc₁ := allocate_heap_of_some hfirst hzero hsize
    have halloc₂ := allocate_heap_of_some hsecond hzero hsize
    obtain ⟨hplan, -⟩ := allocate_run hplan halloc
    obtain ⟨hfirst, -⟩ := allocate_run hfirst halloc₁
    obtain ⟨hsecond, -⟩ := allocate_run hsecond halloc₂
    -- The tree of pairs is written once more for each half, with the same outcome.
    obtain ⟨q, done, done₁, hwrite, hwrite₁, hcounts₁⟩ := write_rename hplan hfirst
      (congrArg (fun stats : Stats => { stats with blockBytes := size }) hstats) rfl rfl hsize
    obtain ⟨q', done', done₂, hwrite', hwrite₂, hcounts₂⟩ := write_rename hplan hsecond
      (congrArg (fun stats : Stats => { stats with blockBytes := size }) hstats') rfl rfl hsize
    rw [hwrite] at hwrite'
    cases hwrite'
    exact ⟨_, _, q, done₁, done₂, halloc₁, halloc₂, hwrite₁, hwrite₂, hcounts₂.trans hcounts₁.symm⟩

/-- Functions that are alike are refused for the same reason, from any contexts, or they have the same plan, and
then the heap gives blocks that they fill with the same bytes. A reason names a node only if it is the target of
a loop reference, and then it names the targets of the same one. -/
theorem compact_alike {f : Function ι} {g : Function κ} (h : f.Alike g) (hf : (idsOf f.pieces).Nodup)
    (hg : (idsOf g.pieces).Nodup) (cx : Context ι) (cx' : Context κ) :
    (∃ d : Malformed (ι × κ), (∀ q ∈ d.node?, f.SameLoopRef g q.1 q.2)
        ∧ (∃ done, plan f cx = .error (.malformedTree (d.map Prod.fst)) done)
        ∧ ∃ done', plan g cx' = .error (.malformedTree (d.map Prod.snd)) done')
      ∨ ∃ size planned planned', plan f cx = .ok size planned ∧ plan g cx' = .ok size planned'
        ∧ planned'.reservations = planned.reservations ∧ planned'.stats = planned.stats
        ∧ SameWrites f g size planned planned' := by
  obtain ⟨p, rfl, rfl⟩ := f.exists_pair g h.shape
  obtain ⟨hfst, hsnd⟩ := h.faithful hf hg
  obtain ⟨hok₁, herror₁⟩ := plan_rename hfst Context.empty cx
  obtain ⟨hok₂, herror₂⟩ := plan_rename hsnd Context.empty cx'
  -- The outcome for the tree of pairs decides on both.
  cases hplan : plan p Context.empty with
  | error e done =>
    left
    obtain ⟨d, done₁, rfl, hrefused, hplan₁⟩ := herror₁ e done hplan
    obtain ⟨d', done₂, hsame, -, hplan₂⟩ := herror₂ _ done hplan
    cases hsame
    exact ⟨d, Function.sameLoopRef_of_pair hrefused, ⟨done₁, hplan₁⟩, done₂, hplan₂⟩
  | ok size done =>
    right
    obtain ⟨done₁, hplan₁, hreservations₁, hstats₁⟩ := hok₁ size done hplan
    obtain ⟨done₂, hplan₂, hreservations₂, hstats₂⟩ := hok₂ size done hplan
    refine ⟨size, done₁, done₂, hplan₁, hplan₂, hreservations₂.trans hreservations₁.symm,
      hstats₂.trans hstats₁.symm, ?_⟩
    exact sameWrites_of_pair (plan_run hplan) (plan_run hplan₁) (plan_run hplan₂) hstats₁ hstats₂

end Context

def renumberedBreakInLoop : Function Nat := breakInLoop.rename fun i => 100 - i

theorem compact_alike_breakInLoop :
    breakInLoop.Alike renumberedBreakInLoop ∧ (idsOf breakInLoop.pieces).Nodup
      ∧ (idsOf renumberedBreakInLoop.pieces).Nodup
      ∧ ∃ size planned planned', Context.plan breakInLoop Context.empty = .ok size planned
        ∧ Context.plan renumberedBreakInLoop planned = .ok size planned'
        ∧ Context.SameWrites breakInLoop renumberedBreakInLoop size planned planned' := by
  have hfaithful : breakInLoop.Faithful fun i => 100 - i := ⟨by decide, by decide⟩
  have halike : breakInLoop.Alike renumberedBreakInLoop := hfaithful.alike rfl
  have hids : (idsOf breakInLoop.pieces).Nodup := by decide
  have hids' : (idsOf renumberedBreakInLoop.pieces).Nodup := by decide
  obtain ⟨size, planned, hplan, -⟩ := exists_plan_breakInLoop Context.empty
  refine ⟨halike, hids, hids', ?_⟩
  cases Context.compact_alike halike hids hids' Context.empty planned with
  | inl hrefused =>
    obtain ⟨d, -, ⟨done, herror⟩, -⟩ := hrefused
    rw [hplan] at herror
    cases herror
  | inr hdone =>
    obtain ⟨size', planned₁, planned', hplan₁, hplan', -, -, hwrites⟩ := hdone
    rw [hplan] at hplan₁
    cases hplan₁
    exact ⟨size, planned, planned', hplan, hplan', hwrites⟩

end TreePack
