import TreePack.Proofs.LineTexts
import TreePack.Proofs.Nodes
import TreePack.Proofs.Relabeling
/-!
What the lines of a dump show of a tree.

Identities are not shown. What is left of a scope is `Scope.normalBy`: its nodes without identities, each loop
reference as the number of its target, and no nested scope that is vacant. This much can be recovered from the
lines even if the numbers in front of the statements are taken from them (`Scope.lines_iff`), as long as no
local is a function.

Where a node ends can be told by rank (`DumpLine.rank`): the line behind a node ranks no higher than the node,
and the line behind a list of nodes ranks lower than they. So a nested scope ends in front of the expressions of
its statement although both are indented alike.
-/

namespace TreePack

variable {ι κ : Type}

/-! ### What a dump can tell of a tree -/

abbrev nameless (_ : ι) : Option Nat := none

def ExprHead.normal (h : ExprHead ι) : ExprHead (Option Nat) :=
  { h.rename nameless with ty := h.ty.shown }

mutual

def Expr.normal : Expr ι → Expr (Option Nat)
  | .node head children => .node head.normal children.normal

def Slots.normal : {n : Nat} → Slots ι n → Slots (Option Nat) n
  | _, .nil => .nil
  | _, .empty slots => .empty slots.normal
  | _, .full child slots => .full child.normal slots.normal

end

def Local.normal (l : Local ι) : Local (Option Nat) := { l.rename nameless with ty := l.ty.shown }

def StmtHead.normal (number : ι → Option Nat) (h : StmtHead ι) : StmtHead (Option Nat) :=
  { h.relabel nameless sameLoc with loop := h.loop.map number }

def Scope.isVacant (s : Scope ι) : Bool := s.locals.isEmpty && s.stmts.isEmpty

mutual

def Scope.normalBy (number : ι → Option Nat) : Scope ι → Scope (Option Nat)
  | ⟨_, locals, stmts⟩ => ⟨none, locals.map Local.normal, stmtListNormalBy number stmts⟩

def Stmt.normalBy (number : ι → Option Nat) : Stmt ι → Stmt (Option Nat)
  | ⟨head, scope, exprs⟩ => ⟨head.normal number, nestedNormalBy number scope, exprs.map Expr.normal⟩

def stmtListNormalBy (number : ι → Option Nat) : List (Stmt ι) → List (Stmt (Option Nat))
  | [] => []
  | s :: ss => s.normalBy number :: stmtListNormalBy number ss

def nestedNormalBy (number : ι → Option Nat) : Option (Scope ι) → Option (Scope (Option Nat))
  | none => none
  | some s => if s.isVacant then none else some (s.normalBy number)

end

def Scope.number? [DecidableEq ι] (s : Scope ι) (target : ι) : Option Nat :=
  (s.allStmts.map Stmt.id).idxOf? target

/-- The scope without identities: a loop reference gives the number of the statement that it names, or none if
it names none of the scope. Vacant nested scopes are left out, and so are the structures that types name without
being one. -/
def Scope.normal [DecidableEq ι] (s : Scope ι) : Scope (Option Nat) := s.normalBy s.number?

/-! ### Lines without numbers -/

def DumpItem.bare : DumpItem → DumpItem
  | .stmt _ kind loc loop label switch => .stmt none kind loc loop label switch
  | item => item.shown

def DumpLine.bare (line : DumpLine) : DumpLine := ⟨line.depth, line.item.bare⟩

def DumpLine.rank : DumpLine → Nat
  | ⟨depth, .localDecl _ _⟩ => 3 * depth + 2
  | ⟨depth, .stmt _ _ _ _ _ _⟩ => 3 * depth + 1
  | ⟨depth, .expr _ _ _ _ _ _⟩ => 3 * depth

@[simp] theorem DumpLine.rank_bare (line : DumpLine) : line.bare.rank = line.rank := by
  obtain ⟨depth, item⟩ := line
  cases item <;> rfl

def Below (n : Nat) (lines : List DumpLine) : Prop := ∀ line ∈ lines.head?, line.rank < n

theorem Below.mono {n m : Nat} {lines : List DumpLine} (h : Below n lines) (hle : n ≤ m) : Below m lines :=
  fun line hline => Nat.lt_of_lt_of_le (h line hline) hle

/-- Only the first line decides where a block of lines ends. -/
theorem Below.cons {n : Nat} {line : DumpLine} {lines : List DumpLine} (h : line.rank < n) :
    Below n (line :: lines) := by
  intro l hl
  cases hl
  exact h

/-- Lines that begin with different ranks are different. -/
theorem Below.ne_cons {n : Nat} {lines lines' : List DumpLine} {line : DumpLine} (h : Below n lines)
    (hline : n ≤ line.rank) : lines.map DumpLine.bare ≠ (line :: lines').map DumpLine.bare := by
  intro heq
  cases lines with
  | nil => cases heq
  | cons l ls =>
    have hrank := congrArg DumpLine.rank (List.cons.inj heq).1
    rw [DumpLine.rank_bare, DumpLine.rank_bare] at hrank
    have hlt := h l rfl
    omega

/-! ### Lines of expressions -/

theorem Leaf.map_rename_eq_iff {α : Type} {t : Option (Leaf ι α)} {t' : Option (Leaf κ α)} :
    t.map (Leaf.rename nameless) = t'.map (Leaf.rename nameless) ↔ t.map (·.val) = t'.map (·.val) := by
  cases t <;> cases t' <;> simp [Leaf.rename]

/-- The line of an expression tells its slot and its whole head, identities apart. -/
theorem ExprHead.bare_eq_iff {h : ExprHead ι} {h' : ExprHead κ} {slot slot' : Option Nat} :
    (h.dumpItem slot).bare = (h'.dumpItem slot').bare ↔ slot = slot' ∧ h.normal = h'.normal := by
  simp only [dumpItem, DumpItem.bare, DumpItem.shown, normal, rename, DumpItem.expr.injEq, ExprHead.mk.injEq,
    Leaf.map_rename_eq_iff, true_and]

/-- The first line of the children shows a later slot, or it is the first line behind them. -/
theorem Slots.head_lines {rest : List DumpLine} {depth slot n : Nat} (s : Slots ι n) :
    ∀ line ∈ (s.linesThen rest depth slot).head?, line ∈ rest.head?
      ∨ ∃ (k : Nat) (h : ExprHead ι), slot ≤ k ∧ line = ⟨depth, h.dumpItem (some k)⟩ := by
  induction n generalizing slot with
  | zero =>
    cases s
    exact fun line h => .inl h
  | succ n ih =>
    cases s with
    -- An empty slot prints nothing, so the first line is that of a later slot.
    | empty slots =>
      intro line hline
      obtain hrest | ⟨k, h, hk, rfl⟩ := ih slots line hline
      · exact .inl hrest
      · exact .inr ⟨k, h, Nat.le_of_succ_le hk, rfl⟩
    | full child slots =>
      intro line hline
      cases child with
      | node head children =>
        cases hline
        exact .inr ⟨slot, head, Nat.le_refl slot, rfl⟩

theorem Slots.below_lines {rest : List DumpLine} {depth slot n : Nat} (h : Below (3 * depth) rest)
    (s : Slots ι n) : Below (3 * depth + 1) (s.linesThen rest depth slot) := by
  intro line hline
  obtain hrest | ⟨k, head, -, rfl⟩ := s.head_lines line hline
  · exact Nat.lt_succ_of_lt (h line hrest)
  · exact Nat.lt_succ_self _

/-- An empty slot in front is told from a full one by the slot number of the first line. -/
theorem Slots.empty_ne_full {rest rest' : List DumpLine} {depth slot n : Nat} (h : Below (3 * depth) rest)
    (s : Slots ι n) (child : Expr κ) :
    (s.linesThen rest depth (slot + 1)).map DumpLine.bare
      ≠ (child.linesThen rest' depth (some slot)).map DumpLine.bare := by
  intro heq
  cases child with
  | node head children =>
    have hhead := congrArg List.head? heq
    rw [List.head?_map, Expr.linesThen, List.map_cons, List.head?_cons, Option.map_eq_some_iff] at hhead
    obtain ⟨line, hline, hbare⟩ := hhead
    -- The first line is one of the rest, of a lower rank, or that of a later slot.
    obtain hrest | ⟨k, head', hk, rfl⟩ := s.head_lines line hline
    · have hrank := congrArg DumpLine.rank hbare
      rw [DumpLine.rank_bare, DumpLine.rank_bare] at hrank
      have hlt := h line hrest
      have hexpr : DumpLine.rank ⟨depth, head.dumpItem (some slot)⟩ = 3 * depth := rfl
      omega
    · have hitem := ExprHead.bare_eq_iff.mp (DumpLine.mk.inj hbare).2
      have hslot := Option.some.inj hitem.1
      omega

mutual

/-- The lines of an expression with some lines behind it show the expression and what is behind. -/
theorem Expr.lines_iff (e : Expr ι) (e' : Expr κ) {rest rest' : List DumpLine} {depth : Nat}
    {slot slot' : Option Nat} (h : Below (3 * depth + 1) rest) (h' : Below (3 * depth + 1) rest') :
    (e.linesThen rest depth slot).map DumpLine.bare = (e'.linesThen rest' depth slot').map DumpLine.bare
      ↔ (slot = slot' ∧ e.normal = e'.normal) ∧ rest.map DumpLine.bare = rest'.map DumpLine.bare := by
  match e, e' with
  | .node head children, .node head' children' =>
    -- What follows the expression also ranks below its children.
    have hbelow : 3 * depth + 1 ≤ 3 * (depth + 1) := by omega
    have hline : DumpLine.bare ⟨depth, head.dumpItem slot⟩ = DumpLine.bare ⟨depth, head'.dumpItem slot'⟩
        ↔ slot = slot' ∧ head.normal = head'.normal := by
      rw [DumpLine.bare, DumpLine.bare, DumpLine.mk.injEq, ExprHead.bare_eq_iff]
      exact and_iff_right rfl
    rw [Expr.linesThen, Expr.linesThen, List.map_cons, List.map_cons, List.cons.injEq, hline,
      Slots.lines_iff children children' (h.mono hbelow) (h'.mono hbelow), Expr.normal, Expr.normal,
      Expr.node.injEq]
    simp only [and_assoc]

/-- Slots followed by anything of lower rank can be read back: equal lines come from equal slots
and an equal rest. -/
theorem Slots.lines_iff {n : Nat} (s : Slots ι n) (s' : Slots κ n) {rest rest' : List DumpLine}
    {depth slot : Nat} (h : Below (3 * depth) rest) (h' : Below (3 * depth) rest') :
    (s.linesThen rest depth slot).map DumpLine.bare = (s'.linesThen rest' depth slot).map DumpLine.bare
      ↔ s.normal = s'.normal ∧ rest.map DumpLine.bare = rest'.map DumpLine.bare := by
  match s, s' with
  | .nil, .nil => exact (and_iff_right rfl).symm
  | .empty slots, .empty slots' =>
    rw [Slots.linesThen, Slots.linesThen, Slots.lines_iff slots slots' h h', Slots.normal, Slots.normal,
      Slots.empty.injEq]
  | .full child slots, .full child' slots' =>
    rw [Slots.linesThen, Slots.linesThen,
      Expr.lines_iff child child' (Slots.below_lines h slots) (Slots.below_lines h' slots'),
      Slots.lines_iff slots slots' h h', Slots.normal, Slots.normal, Slots.full.injEq]
    simp only [true_and, and_assoc]
  -- The first line shows the number of the slot that is full only on one side.
  | .empty slots, .full child' slots' =>
    rw [Slots.linesThen, Slots.linesThen, Slots.normal, Slots.normal]
    exact iff_of_false (Slots.empty_ne_full h slots child') fun hno => nomatch hno.1
  | .full child slots, .empty slots' =>
    rw [Slots.linesThen, Slots.linesThen, Slots.normal, Slots.normal]
    exact iff_of_false (fun heq => Slots.empty_ne_full h' slots' child heq.symm) fun hno => nomatch hno.1

end

theorem Expr.below_lines {rest : List DumpLine} {depth : Nat} {slot : Option Nat} (e : Expr ι) :
    Below (3 * depth + 1) (e.linesThen rest depth slot) := by
  cases e with
  | node head children => exact Below.cons (Nat.lt_succ_self _)

theorem exprList_below_lines {rest : List DumpLine} {depth : Nat} (h : Below (3 * depth) rest)
    (es : List (Expr ι)) : Below (3 * depth + 1) (exprListLinesThen rest depth es) := by
  cases es with
  | nil => exact h.mono (Nat.le_succ _)
  | cons e es => exact e.below_lines

/-- The expressions of a statement can be read back from their lines, whatever stands behind them. -/
theorem exprList_lines_iff (es : List (Expr ι)) (es' : List (Expr κ)) {rest rest' : List DumpLine} {depth : Nat}
    (h : Below (3 * depth) rest) (h' : Below (3 * depth) rest') :
    (exprListLinesThen rest depth es).map DumpLine.bare = (exprListLinesThen rest' depth es').map DumpLine.bare
      ↔ es.map Expr.normal = es'.map Expr.normal ∧ rest.map DumpLine.bare = rest'.map DumpLine.bare := by
  induction es generalizing es' with
  | nil =>
    cases es' with
    | nil => exact (and_iff_right rfl).symm
    | cons e' es' =>
      cases e' with
      | node head' children' =>
        -- No expression on one side: the other starts with a line that the rest cannot start with.
        exact iff_of_false (h.ne_cons (Nat.le_refl _)) fun hno => nomatch hno.1
  | cons e es ih =>
    cases es' with
    | nil =>
      cases e with
      | node head children =>
        exact iff_of_false (fun heq => h'.ne_cons (Nat.le_refl _) heq.symm) fun hno => nomatch hno.1
    | cons e' es' =>
      have hcons {ι : Type} (rest : List DumpLine) (e : Expr ι) (es : List (Expr ι)) :
          exprListLinesThen rest depth (e :: es)
            = e.linesThen (exprListLinesThen rest depth es) depth none := rfl
      -- What follows the first expression is of lower rank, so the two first ones are cut off alike.
      rw [hcons, hcons, Expr.lines_iff e e' (exprList_below_lines h es) (exprList_below_lines h' es'), ih,
        List.map_cons, List.map_cons, List.cons.injEq]
      simp only [true_and, and_assoc]

/-! ### Lines of locals and statements -/

/-- Two lists are mapped to one if their elements are, pair by pair. -/
theorem map_eq_map_iff_of_forall {α β γ δ : Type} {f : α → γ} {f' : β → γ} {g : α → δ} {g' : β → δ}
    {as : List α} {bs : List β} (h : ∀ a ∈ as, ∀ b ∈ bs, f a = f' b ↔ g a = g' b) :
    as.map f = bs.map f' ↔ as.map g = bs.map g' := by
  induction as generalizing bs with
  | nil => cases bs <;> simp
  | cons a as ih =>
    cases bs with
    | nil => simp
    | cons b bs =>
      rw [List.map_cons, List.map_cons, List.map_cons, List.map_cons, List.cons.injEq, List.cons.injEq,
        h a List.mem_cons_self b List.mem_cons_self,
        ih fun x hx y hy => h x (List.mem_cons_of_mem a hx) y (List.mem_cons_of_mem b hy)]

/-- What the lines of locals show. -/
theorem locals_lines_iff {locals : List (Local ι)} {locals' : List (Local κ)} {depth : Nat}
    (h : ∀ l ∈ locals, l.isFunction = false) (h' : ∀ l ∈ locals', l.isFunction = false) :
    (locals.map fun l => DumpLine.mk depth (.localDecl l.name.val l.ty)).map DumpLine.bare
        = (locals'.map fun l => DumpLine.mk depth (.localDecl l.name.val l.ty)).map DumpLine.bare
      ↔ locals.map Local.normal = locals'.map Local.normal := by
  rw [List.map_map, List.map_map]
  apply map_eq_map_iff_of_forall
  intro l hl l' hl'
  simp only [Function.comp, DumpLine.bare, DumpItem.bare, DumpItem.shown, Local.normal, Local.rename,
    Leaf.rename, DumpLine.mk.injEq, DumpItem.localDecl.injEq, Local.mk.injEq, Leaf.mk.injEq, h l hl, h' l' hl',
    true_and, and_true]

/-- The first line behind lines of one rank is the first of a lower one. -/
theorem cut_lines_iff {n : Nat} {front front' rest rest' : List DumpLine} (hfront : ∀ l ∈ front, l.rank = n)
    (hfront' : ∀ l ∈ front', l.rank = n) (h : Below n rest) (h' : Below n rest') :
    (front ++ rest).map DumpLine.bare = (front' ++ rest').map DumpLine.bare
      ↔ front.map DumpLine.bare = front'.map DumpLine.bare
        ∧ rest.map DumpLine.bare = rest'.map DumpLine.bare := by
  have hrank {lines : List DumpLine} (hlines : ∀ l ∈ lines, l.rank = n) :
      ∀ l ∈ lines.map DumpLine.bare, l.rank = n :=
    List.forall_mem_map.mpr fun l hl => l.rank_bare.trans (hlines l hl)
  -- The rest starts with a line of lower rank, so the front ends where the rank drops.
  have hstop {lines : List DumpLine} (hlines : Below n lines) :
      ∀ l ∈ (lines.map DumpLine.bare).head?, ¬l.rank = n := by
    intro l hl
    rw [List.head?_map] at hl
    obtain ⟨line, hline, rfl⟩ := Option.map_eq_some_iff.mp hl
    rw [DumpLine.rank_bare]
    exact Nat.ne_of_lt (hlines line hline)
  rw [List.map_append, List.map_append]
  constructor
  · exact append_cut (hrank hfront) (hrank hfront') (hstop h) (hstop h')
  · rintro ⟨hfronts, hrests⟩
    rw [hfronts, hrests]

section

variable [DecidableEq ι] [Hashable ι] [DecidableEq κ] [Hashable κ] {numbers : StmtNumbers ι}
  {numbers' : StmtNumbers κ}

/-- The line of a statement tells its head, with a loop reference known by its number only. -/
theorem StmtHead.bare_eq_iff {h : StmtHead ι} {h' : StmtHead κ} :
    (h.dumpItem numbers).bare = (h'.dumpItem numbers').bare
      ↔ h.normal (fun target => numbers[target]?) = h'.normal (fun target => numbers'[target]?) := by
  have hswitch : h.switch.map (·.val) = h'.switch.map (·.val)
      ↔ h.switch.map (Leaf.rename nameless) = h'.switch.map (Leaf.rename nameless) :=
    map_eq_map_iff_of_forall fun l _ l' _ => by simp [Leaf.rename]
  simp only [dumpItem, DumpItem.bare, normal, relabel, DumpItem.stmt.injEq, StmtHead.mk.injEq, hswitch,
    Leaf.map_rename_eq_iff, true_and]

theorem Stmt.lines_cons (numbers : StmtNumbers ι) (rest : List DumpLine) (depth : Nat) (s : Stmt ι) :
    ∃ line lines, s.linesThen numbers rest depth = line :: lines ∧ line.rank = 3 * depth + 1 := by
  obtain ⟨head, scope, exprs⟩ := s
  exact ⟨_, _, rfl, rfl⟩

theorem stmtList_below_lines {rest : List DumpLine} {depth : Nat} (h : Below (3 * depth + 1) rest)
    (ss : List (Stmt ι)) : Below (3 * depth + 2) (stmtListLinesThen numbers rest depth ss) := by
  cases ss with
  | nil => exact h.mono (Nat.le_succ _)
  | cons s ss =>
    obtain ⟨line, lines, heq, hrank⟩ := s.lines_cons numbers (stmtListLinesThen numbers rest depth ss) depth
    rw [stmtListLinesThen, heq]
    exact Below.cons (by omega)

/-- A vacant scope prints nothing, which is why the dump cannot tell it from no scope at all. -/
theorem nested_lines_of_vacant {s : Scope ι} (h : s.isVacant = true) (rest : List DumpLine) (depth : Nat) :
    nestedLinesThen numbers rest depth (some s) = rest := by
  obtain ⟨id, locals, stmts⟩ := s
  rw [Scope.isVacant, Bool.and_eq_true, List.isEmpty_iff, List.isEmpty_iff] at h
  obtain ⟨rfl, rfl⟩ := h
  rfl

omit [DecidableEq ι] [Hashable ι] in
theorem nested_normalBy_of_vacant {s : Scope ι} (h : s.isVacant = true) (number : ι → Option Nat) :
    nestedNormalBy number (some s) = none := by
  rw [nestedNormalBy, if_pos h]

theorem Scope.lines_cons {s : Scope ι} (h : s.isVacant = false) (numbers : StmtNumbers ι) (rest : List DumpLine)
    (depth : Nat) :
    ∃ line lines, s.linesThen numbers rest depth = line :: lines ∧ 3 * depth + 1 ≤ line.rank := by
  obtain ⟨id, locals, stmts⟩ := s
  cases locals with
  | cons l locals => exact ⟨_, _, rfl, Nat.le_succ _⟩
  | nil =>
    cases stmts with
    | nil => cases h
    | cons s ss =>
      obtain ⟨line, lines, heq, hrank⟩ := s.lines_cons numbers (stmtListLinesThen numbers rest depth ss) depth
      exact ⟨line, lines, heq, Nat.le_of_eq hrank.symm⟩

variable (numbers numbers')

/-- No line shows a nested scope just if it is vacant or not there. -/
theorem nested_lines_none_iff (s : Option (Scope ι)) {rest rest' : List DumpLine} {depth : Nat}
    (h : Below (3 * depth + 1) rest') :
    (nestedLinesThen numbers rest depth s).map DumpLine.bare = rest'.map DumpLine.bare
      ↔ nestedNormalBy (fun t => numbers[t]?) s = none ∧ rest.map DumpLine.bare = rest'.map DumpLine.bare := by
  cases s with
  | none => exact (and_iff_right rfl).symm
  | some s =>
    cases hvacant : s.isVacant with
    | true =>
      rw [nested_lines_of_vacant hvacant]
      exact (and_iff_right (nested_normalBy_of_vacant hvacant _)).symm
    | false =>
      obtain ⟨line, lines, heq, hrank⟩ := s.lines_cons hvacant numbers rest depth
      rw [nestedLinesThen, nestedNormalBy, hvacant, heq]
      exact iff_of_false (fun hlines => h.ne_cons hrank hlines.symm) fun hno => nomatch hno.1

mutual

/-- A scope is read back from its lines up to its normal form: first the declarations, which stand
in front, then the statements. -/
theorem Scope.lines_iff (s : Scope ι) (s' : Scope κ) {rest rest' : List DumpLine} {depth : Nat}
    (hf : ∀ l ∈ s.allLocals, l.isFunction = false) (hf' : ∀ l ∈ s'.allLocals, l.isFunction = false)
    (h : Below (3 * depth + 1) rest) (h' : Below (3 * depth + 1) rest') :
    (s.linesThen numbers rest depth).map DumpLine.bare = (s'.linesThen numbers' rest' depth).map DumpLine.bare
      ↔ s.normalBy (fun t => numbers[t]?) = s'.normalBy (fun t => numbers'[t]?)
        ∧ rest.map DumpLine.bare = rest'.map DumpLine.bare := by
  match s, s' with
  | ⟨id, locals, stmts⟩, ⟨id', locals', stmts'⟩ =>
    rw [Scope.allLocals, List.forall_mem_append] at hf hf'
    -- The locals rank above the first statement and above what follows the scope.
    rw [Scope.linesThen, Scope.linesThen,
      cut_lines_iff (n := 3 * depth + 2) (List.forall_mem_map.mpr fun _ _ => rfl)
        (List.forall_mem_map.mpr fun _ _ => rfl) (stmtList_below_lines h stmts)
        (stmtList_below_lines h' stmts'),
      locals_lines_iff hf.1 hf'.1, stmtList_lines_iff stmts stmts' hf.2 hf'.2 h h', Scope.normalBy,
      Scope.normalBy, Scope.mk.injEq]
    simp only [true_and, and_assoc]

/-- A statement is read back from its lines up to its normal form. The line of the head is
followed by deeper lines only, and the first line that is not deeper starts what comes next. -/
theorem Stmt.lines_iff (s : Stmt ι) (s' : Stmt κ) {rest rest' : List DumpLine} {depth : Nat}
    (hf : ∀ l ∈ s.allLocals, l.isFunction = false) (hf' : ∀ l ∈ s'.allLocals, l.isFunction = false)
    (h : Below (3 * depth + 2) rest) (h' : Below (3 * depth + 2) rest') :
    (s.linesThen numbers rest depth).map DumpLine.bare = (s'.linesThen numbers' rest' depth).map DumpLine.bare
      ↔ s.normalBy (fun t => numbers[t]?) = s'.normalBy (fun t => numbers'[t]?)
        ∧ rest.map DumpLine.bare = rest'.map DumpLine.bare := by
  match s, s' with
  | ⟨head, scope, exprs⟩, ⟨head', scope', exprs'⟩ =>
    -- The expressions are as deep as the nested scope, but rank below its locals and its statements.
    have hbelow : 3 * depth + 2 ≤ 3 * (depth + 1) := by omega
    have hline : DumpLine.bare ⟨depth, head.dumpItem numbers⟩ = DumpLine.bare ⟨depth, head'.dumpItem numbers'⟩
        ↔ head.normal (fun t => numbers[t]?) = head'.normal (fun t => numbers'[t]?) := by
      rw [DumpLine.bare, DumpLine.bare, DumpLine.mk.injEq, StmtHead.bare_eq_iff]
      exact and_iff_right rfl
    rw [Stmt.allLocals] at hf hf'
    rw [Stmt.linesThen, Stmt.linesThen, List.map_cons, List.map_cons, List.cons.injEq, hline,
      nested_lines_iff scope scope' hf hf' (exprList_below_lines (h.mono hbelow) exprs)
        (exprList_below_lines (h'.mono hbelow) exprs'),
      exprList_lines_iff exprs exprs' (h.mono hbelow) (h'.mono hbelow), Stmt.normalBy, Stmt.normalBy,
      Stmt.mk.injEq]
    simp only [and_assoc]

/-- Statements of one scope are separated by their heads, which stand at one depth. -/
theorem stmtList_lines_iff (ss : List (Stmt ι)) (ss' : List (Stmt κ)) {rest rest' : List DumpLine} {depth : Nat}
    (hf : ∀ l ∈ stmtListAllLocals ss, l.isFunction = false)
    (hf' : ∀ l ∈ stmtListAllLocals ss', l.isFunction = false)
    (h : Below (3 * depth + 1) rest) (h' : Below (3 * depth + 1) rest') :
    (stmtListLinesThen numbers rest depth ss).map DumpLine.bare
        = (stmtListLinesThen numbers' rest' depth ss').map DumpLine.bare
      ↔ stmtListNormalBy (fun t => numbers[t]?) ss = stmtListNormalBy (fun t => numbers'[t]?) ss'
        ∧ rest.map DumpLine.bare = rest'.map DumpLine.bare := by
  match ss, ss' with
  | [], [] => exact (and_iff_right rfl).symm
  | s :: ss, s' :: ss' =>
    rw [stmtListAllLocals, List.forall_mem_append] at hf hf'
    rw [stmtListLinesThen, stmtListLinesThen, Stmt.lines_iff s s' hf.1 hf'.1 (stmtList_below_lines h ss)
      (stmtList_below_lines h' ss'), stmtList_lines_iff ss ss' hf.2 hf'.2 h h', stmtListNormalBy,
      stmtListNormalBy, List.cons.injEq]
    simp only [and_assoc]
  | [], s' :: ss' =>
    obtain ⟨line, lines, heq, hrank⟩ :=
      s'.lines_cons numbers' (stmtListLinesThen numbers' rest' depth ss') depth
    rw [stmtListLinesThen, stmtListLinesThen, heq]
    exact iff_of_false (h.ne_cons (Nat.le_of_eq hrank.symm)) fun hno => nomatch hno.1
  | s :: ss, [] =>
    obtain ⟨line, lines, heq, hrank⟩ := s.lines_cons numbers (stmtListLinesThen numbers rest depth ss) depth
    rw [stmtListLinesThen, stmtListLinesThen, heq]
    exact iff_of_false (fun hlines => h'.ne_cons (Nat.le_of_eq hrank.symm) hlines.symm) fun hno => nomatch hno.1

/-- A nested scope is read back unless it is vacant. -/
theorem nested_lines_iff (s : Option (Scope ι)) (s' : Option (Scope κ)) {rest rest' : List DumpLine}
    {depth : Nat} (hf : ∀ l ∈ nestedAllLocals s, l.isFunction = false)
    (hf' : ∀ l ∈ nestedAllLocals s', l.isFunction = false)
    (h : Below (3 * depth + 1) rest) (h' : Below (3 * depth + 1) rest') :
    (nestedLinesThen numbers rest depth s).map DumpLine.bare
        = (nestedLinesThen numbers' rest' depth s').map DumpLine.bare
      ↔ nestedNormalBy (fun t => numbers[t]?) s = nestedNormalBy (fun t => numbers'[t]?) s'
        ∧ rest.map DumpLine.bare = rest'.map DumpLine.bare := by
  match s, s' with
  | none, s' => exact eq_comm.trans ((nested_lines_none_iff numbers' s' h).trans (and_congr eq_comm eq_comm))
  | some s, none => exact nested_lines_none_iff numbers (some s) h'
  | some s, some s' =>
    -- A vacant scope is shown as little as none, so only two that are not are compared.
    cases hvacant : s.isVacant with
    | true =>
      rw [nested_lines_of_vacant hvacant, nested_normalBy_of_vacant hvacant]
      exact eq_comm.trans ((nested_lines_none_iff numbers' (some s') h).trans (and_congr eq_comm eq_comm))
    | false =>
      cases hvacant' : s'.isVacant with
      | true =>
        rw [nested_lines_of_vacant hvacant', nested_normalBy_of_vacant hvacant']
        exact nested_lines_none_iff numbers (some s) h'
      | false =>
        rw [nestedLinesThen, nestedLinesThen, nestedNormalBy, nestedNormalBy, hvacant, hvacant',
          Scope.lines_iff s s' hf hf' h h']
        exact and_congr_left' Option.some_inj.symm

end

end

end TreePack
