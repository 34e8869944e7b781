import Mathlib.Data.List.ReduceOption
import TreePack.Proofs.Rows

namespace TreePack

variable {ι : Type}

def Expr.recordAt (place : ι → Offset) (e : Expr ι) : ExprRecord Offset :=
  { kind := e.head.kind.toRaw
    value := e.head.value
    ty := e.head.ty
    symbol := e.head.symbol.map fun t => place t.id
    method := e.head.method.map fun t => place t.id
    children := Vector.ofFn fun i => (e.children.get i).map fun c => place c.id }

def Local.recordAt (place : ι → Offset) (l : Local ι) (argCount : UInt32) : DeclRecord Offset :=
  { name := some (place l.name.id)
    ty := l.ty
    isFunction := false
    argCount
    args := none
    body := none }

def Stmt.recordAt (place : ι → Offset) (s : Stmt ι) : StmtRecord Offset :=
  { kind := s.head.kind.toRaw
    exprCount := exprCountWord s.exprs.length
    loc := locWord s.head.loc
    loop := s.head.loop.map place
    scope := s.scope.map fun t => place t.id
    exprs := Vector.ofFn fun i => (s.exprs[i.val]?).map fun e => place e.id
    label := s.head.label.map fun t => place t.id
    switch := (arrayBase (s.head.switch.map (·.id))).map place
    switchCount := s.head.switch.length.toUInt64 }

def Scope.recordAt (place : ι → Offset) (s : Scope ι) : ScopeRecord Offset :=
  { locals := (arrayBase (s.locals.map (·.id))).map place
    localCount := s.locals.length.toUInt64
    stmts := (arrayBase (s.stmts.map (·.id))).map place
    stmtCount := s.stmts.length.toUInt64 }

theorem Expr.cell_map (place : ι → Offset) (e : Expr ι) :
    e.cell.map place = .expr (e.recordAt place) := by
  simp only [Expr.cell, Expr.recordAt, Cell.map, ExprRecord.map, Vector.map_ofFn, Function.comp_def,
    Option.map_map]

theorem Stmt.cell_map (place : ι → Offset) (s : Stmt ι) :
    s.cell.map place = .stmt (s.recordAt place) := by
  simp only [Stmt.cell, Stmt.recordAt, Cell.map, StmtRecord.map, Vector.map_ofFn, Function.comp_def,
    Option.map_map]

theorem Scope.cell_map (place : ι → Offset) (s : Scope ι) :
    s.cell.map place = .scope (s.recordAt place) := rfl

section

variable {b : Block} {place : ι → Offset}

structure Local.HeldIn (b : Block) (place : ι → Offset) (l : Local ι) : Prop where
  record : ∃ argCount, Stored.readAt b (place l.id) = .ok (l.recordAt place argCount)
  name : (textPiece l.name).HeldIn b place

theorem held_texts (t : Option (Leaf ι Text)) :
    Held b place (t.toList.map textPiece) ↔ ∀ u ∈ t, (textPiece u).HeldIn b place := by
  cases t with
  | none => simp
  | some t => simp

/-- An expression is held where its record is and its texts and children are held. -/
theorem Expr.held_iff (head : ExprHead ι) (children : Slots ι maxChildren) :
    Held b place (Expr.node head children).pieces
      ↔ ((place head.id).toNat % alignment = 0
          ∧ Stored.readAt b (place head.id) = .ok ((Expr.node head children).recordAt place))
        ∧ (∀ t ∈ head.symbol, (textPiece t).HeldIn b place)
        ∧ (∀ t ∈ head.method, (textPiece t).HeldIn b place) ∧ Held b place children.pieces := by
  rw [Expr.pieces, held_cons, held_append, held_append, held_texts, held_texts, held_single,
    Expr.cell_map, and_assoc (b := ∀ t ∈ head.method, _)]
  rfl

theorem held_slots {n : Nat} {s : Slots ι n} :
    Held b place s.pieces ↔ ∀ e ∈ s.toList, Held b place e.pieces := by
  induction n with
  | zero =>
    cases s
    simp [Slots.pieces, Slots.toList]
  | succ n ih =>
    cases s with
    | empty slots => exact ih
    | full child slots => rw [Slots.pieces, held_append, ih, Slots.toList, List.forall_mem_cons]

/-- The row of declarations and their names, declaration by declaration. -/
theorem held_localPieces (locals : List (Local ι)) :
    Held b place (arrayPieces (localCells locals) ++ locals.map fun l => textPiece l.name)
      ↔ InRow place (Stored.size (DeclRecord Offset)) (locals.map (·.id))
        ∧ ∀ l ∈ locals, l.HeldIn b place := by
  rw [held_append, held_arrayPieces size_of_mem_localCells, localCells, List.map_map]
  constructor
  · rintro ⟨⟨hrow, hcells⟩, hnames⟩
    refine ⟨hrow, fun l hl => ⟨?_, hnames _ (List.mem_map_of_mem hl)⟩⟩
    exact hcells ⟨l.id, l.cell⟩ (List.mem_map_of_mem hl)
  · rintro ⟨hrow, hlocals⟩
    refine ⟨⟨hrow, fun c hc => ?_⟩, fun p hp => ?_⟩
    · obtain ⟨l, hl, rfl⟩ := List.mem_map.mp hc
      exact (hlocals l hl).record
    · obtain ⟨l, hl, rfl⟩ := List.mem_map.mp hp
      exact (hlocals l hl).name

/-- The row of statements is their records, in line. -/
theorem held_stmtCells (stmts : List (Stmt ι)) :
    Held b place (arrayPieces (stmtCells stmts))
      ↔ InRow place (Stored.size (StmtRecord Offset)) (stmts.map (·.id))
        ∧ ∀ s ∈ stmts, Stored.readAt b (place s.id) = .ok (s.recordAt place) := by
  rw [held_arrayPieces size_of_mem_stmtCells, stmtCells, List.map_map]
  simp only [List.forall_mem_map, Stmt.cell_map]
  rfl

theorem held_switchCells (labels : List (Leaf ι UInt64)) :
    Held b place (arrayPieces (switchCells labels))
      ↔ InRow place (Stored.size UInt64) (labels.map (·.id))
        ∧ ∀ n ∈ labels, Stored.readAt b (place n.id) = .ok n.val := by
  rw [held_arrayPieces size_of_mem_switchCells, switchCells, List.map_map]
  simp only [List.forall_mem_map]
  rfl

/-- A scope is held where its record is, its declarations and statements stand in rows with their
records, and all that is below the statements is held. -/
theorem Scope.held_iff (id : ι) (locals : List (Local ι)) (stmts : List (Stmt ι)) :
    Held b place (Scope.mk id locals stmts).pieces
      ↔ ((place id).toNat % alignment = 0
          ∧ Stored.readAt b (place id) = .ok ((Scope.mk id locals stmts).recordAt place))
        ∧ (InRow place (Stored.size (DeclRecord Offset)) (locals.map (·.id))
          ∧ ∀ l ∈ locals, l.HeldIn b place)
        ∧ (InRow place (Stored.size (StmtRecord Offset)) (stmts.map (·.id))
          ∧ ∀ s ∈ stmts, Stored.readAt b (place s.id) = .ok (s.recordAt place))
        ∧ Held b place (stmtListPieces stmts) := by
  rw [Scope.pieces, held_cons, held_append, held_append, held_localPieces, held_stmtCells, held_single,
    Scope.cell_map, and_assoc (c := Held b place (stmtListPieces stmts))]
  rfl

/-- What is below a statement: its nested scope, its expressions, its label and its switch labels. -/
theorem Stmt.held_iff (head : StmtHead ι) (scope : Option (Scope ι)) (exprs : List (Expr ι)) :
    Held b place (Stmt.mk head scope exprs).pieces
      ↔ Held b place (nestedPieces scope) ∧ (∀ e ∈ exprs, Held b place e.pieces)
        ∧ (∀ t ∈ head.label, (textPiece t).HeldIn b place)
        ∧ InRow place (Stored.size UInt64) (head.switch.map (·.id))
        ∧ ∀ n ∈ head.switch, Stored.readAt b (place n.id) = .ok n.val := by
  have hexprs : Held b place (exprs.flatMap Expr.pieces) ↔ ∀ e ∈ exprs, Held b place e.pieces := by
    unfold Held
    rw [List.forall_mem_flatMap]
  rw [Stmt.pieces, held_append, held_append, held_append, held_texts, held_switchCells, hexprs]
  simp only [and_assoc]

theorem held_stmtListPieces (ss : List (Stmt ι)) :
    Held b place (stmtListPieces ss) ↔ ∀ s ∈ ss, Held b place s.pieces := by
  induction ss with
  | nil => simp [stmtListPieces]
  | cons s ss ih => rw [stmtListPieces, held_append, ih, List.forall_mem_cons]

theorem held_nestedPieces {s : Option (Scope ι)} :
    Held b place (nestedPieces s) ↔ ∀ t ∈ s, Held b place t.pieces := by
  cases s with
  | none => simp [nestedPieces]
  | some t => simp [nestedPieces]

end

/-- What is left of a location when it is stored: the one whose word stands for absence is lost. -/
def storedLoc (loc : Option SourceLoc) : Option SourceLoc := loc.filter fun l => l.pack ≠ Offset.absent

/-- Slots that hold the elements of a short list are filled in front and empty behind. -/
theorem ofFn_getElem? {α β : Type} {n : Nat} {xs : List α} (h : xs.length ≤ n) (g : α → β) :
    (List.ofFn fun i : Fin n => (xs[i.val]?).map g)
      = xs.map (some ∘ g) ++ List.replicate (n - xs.length) none := by
  apply List.ext_getElem?
  intro i
  rw [List.getElem?_ofFn, List.getElem?_append, List.length_map]
  by_cases hi : i < xs.length
  · have hn : i < n := by omega
    simp [hi, hn]
  · rw [if_neg hi, List.getElem?_replicate]
    by_cases hn : i < n
    · have hlt : i - xs.length < n - xs.length := by omega
      simp [hn, hlt, hi]
    · have hge : ¬i - xs.length < n - xs.length := by omega
      simp [hn, hge]

/-- The number of expressions that a record can hold fits its word. -/
theorem exprCountWord_of_le {count : Nat} (h : count ≤ maxExprs) :
    (exprCountWord count).toNat = count := by
  have hlt : count < range32 := by
    unfold maxExprs at h
    unfold range32
    omega
  rw [exprCountWord, if_pos hlt]
  exact UInt32.toNat_ofNat_of_lt' hlt

section

variable (place : ι → Offset)

@[simp] theorem Expr.exprKind_recordAt (e : Expr ι) : (e.recordAt place).exprKind = e.head.kind := by
  rw [Expr.recordAt, ExprRecord.exprKind, ExprKind.ofRaw?_toRaw, Option.getD_some]

@[simp] theorem Stmt.stmtKind_recordAt (s : Stmt ι) : (s.recordAt place).stmtKind = s.head.kind := by
  rw [Stmt.recordAt, StmtRecord.stmtKind, StmtKind.ofRaw?_toRaw, Option.getD_some]

/-- A location is stored as one word, and one location is lost in it. -/
@[simp] theorem Stmt.sourceLoc_recordAt (s : Stmt ι) :
    (s.recordAt place).sourceLoc = storedLoc s.head.loc := by
  rw [Stmt.recordAt, StmtRecord.sourceLoc]
  cases s.head.loc with
  | none => rfl
  | some loc =>
    rw [locWord, SourceLoc.unpack_pack]
    by_cases habsent : loc.pack = Offset.absent
    · rw [if_pos habsent, storedLoc, Option.filter_some, if_neg (by simp [habsent])]
    · rw [if_neg habsent, storedLoc, Option.filter_some, if_pos (by simp [habsent])]

/-- A statement's record lists its expressions, which are at most as many as it has slots. -/
theorem Stmt.exprOffsets_recordAt (s : Stmt ι) (hfew : s.exprs.length ≤ maxExprs) :
    (s.recordAt place).exprOffsets = s.exprs.map fun e => place e.id := by
  have hslots : (s.recordAt place).exprs.toList
      = s.exprs.map (some ∘ fun e => place e.id) ++ List.replicate (maxExprs - s.exprs.length) none := by
    rw [Stmt.recordAt, Vector.toList_ofFn]
    exact ofFn_getElem? hfew _
  have hcount : (s.recordAt place).exprCount.toNat = s.exprs.length := exprCountWord_of_le hfew
  have hlen : (s.exprs.map (some ∘ fun e => place e.id)).length = s.exprs.length := List.length_map _
  rw [StmtRecord.exprOffsets, hslots, hcount, List.take_left' hlen, List.reduceOption, List.filterMap_map]
  rw [Function.id_comp]
  exact congrFun List.filterMap_eq_map s.exprs

end

section

variable {b : Block} {place : ι → Offset}

theorem Local.HeldIn.le {l : Local ι} (h : l.HeldIn b place) :
    (place l.id).toNat + Stored.size (DeclRecord Offset) ≤ b.size := by
  obtain ⟨argCount, hread⟩ := h.record
  exact Stored.le_of_readAt hread

/-- A scope record lists its declarations. -/
theorem lists_localPlaces {s : Scope ι}
    (hrow : InRow place (Stored.size (DeclRecord Offset)) (s.locals.map (·.id)))
    (hlocals : ∀ l ∈ s.locals, l.HeldIn b place) :
    (s.recordAt place).localPlaces.Lists (s.locals.map fun l => place l.id) :=
  hrow.placesOf (of_decide_eq_true rfl) fun l hl => (hlocals l hl).le

/-- A scope record lists its statements. -/
theorem lists_stmtPlaces {s : Scope ι}
    (hrow : InRow place (Stored.size (StmtRecord Offset)) (s.stmts.map (·.id)))
    (hstmts : ∀ t ∈ s.stmts, Stored.readAt b (place t.id) = .ok (t.recordAt place)) :
    (s.recordAt place).stmtPlaces.Lists (s.stmts.map fun t => place t.id) :=
  hrow.placesOf (of_decide_eq_true rfl) fun t ht => Stored.le_of_readAt (hstmts t ht)

theorem lists_switchPlaces {s : Stmt ι}
    (hrow : InRow place (Stored.size UInt64) (s.head.switch.map (·.id)))
    (hlabels : ∀ n ∈ s.head.switch, Stored.readAt b (place n.id) = .ok n.val) :
    (s.recordAt place).switchPlaces.Lists (s.head.switch.map fun n => place n.id) :=
  hrow.placesOf (of_decide_eq_true rfl) fun n hn => Stored.le_of_readAt (hlabels n hn)

end

end TreePack
