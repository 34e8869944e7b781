import TreePack.Proofs.Pointers

namespace TreePack

variable {ι κ : Type}

def Leaf.rename {α : Type} (r : ι → κ) (t : Leaf ι α) : Leaf κ α := ⟨r t.id, t.val⟩

def ExprHead.rename (r : ι → κ) (h : ExprHead ι) : ExprHead κ :=
  { id := r h.id
    kind := h.kind
    value := h.value
    ty := h.ty
    symbol := h.symbol.map (Leaf.rename r)
    method := h.method.map (Leaf.rename r) }

mutual

def Expr.rename (r : ι → κ) : Expr ι → Expr κ
  | .node head children => .node (head.rename r) (children.rename r)

def Slots.rename (r : ι → κ) : {n : Nat} → Slots ι n → Slots κ n
  | _, .nil => .nil
  | _, .empty slots => .empty (slots.rename r)
  | _, .full child slots => .full (child.rename r) (slots.rename r)

end

def Local.rename (r : ι → κ) (l : Local ι) : Local κ :=
  { id := r l.id, name := l.name.rename r, ty := l.ty, isFunction := l.isFunction }

section

variable (r : ι → κ) (loc : Option SourceLoc → Option SourceLoc)

def StmtHead.relabel (h : StmtHead ι) : StmtHead κ :=
  { id := r h.id
    kind := h.kind
    loc := loc h.loc
    loop := h.loop.map r
    label := h.label.map (Leaf.rename r)
    switch := h.switch.map (Leaf.rename r) }

mutual

def Scope.relabel : Scope ι → Scope κ
  | ⟨id, locals, stmts⟩ => ⟨r id, locals.map (Local.rename r), stmtListRelabel stmts⟩

def Stmt.relabel : Stmt ι → Stmt κ
  | ⟨head, scope, exprs⟩ => ⟨head.relabel r loc, nestedRelabel scope, exprs.map (Expr.rename r)⟩

def stmtListRelabel : List (Stmt ι) → List (Stmt κ)
  | [] => []
  | s :: ss => s.relabel :: stmtListRelabel ss

def nestedRelabel : Option (Scope ι) → Option (Scope κ)
  | none => none
  | some s => some s.relabel

end

def Function.relabel (f : Function ι) : Function κ :=
  ⟨f.scope.relabel r loc, f.args.map (Leaf.rename r)⟩

end

abbrev sameLoc (loc : Option SourceLoc) : Option SourceLoc := loc

def Function.rename (r : ι → κ) (f : Function ι) : Function κ := f.relabel r sameLoc

section

variable (r : ι → κ) (loc : Option SourceLoc → Option SourceLoc)

theorem stmtListRelabel_eq (ss : List (Stmt ι)) :
    stmtListRelabel r loc ss = ss.map (Stmt.relabel r loc) := by
  induction ss with
  | nil => rfl
  | cons s ss ih => rw [stmtListRelabel, ih, List.map_cons]

theorem nestedRelabel_eq (s : Option (Scope ι)) : nestedRelabel r loc s = s.map (Scope.relabel r loc) := by
  cases s <;> rfl

@[simp] theorem Expr.id_rename (e : Expr ι) : (e.rename r).id = r e.id := by
  cases e
  rfl

@[simp] theorem Scope.id_relabel (s : Scope ι) : (s.relabel r loc).id = r s.id := by
  cases s
  rfl

@[simp] theorem Stmt.id_relabel (s : Stmt ι) : (s.relabel r loc).id = r s.id := by
  cases s
  rfl

@[simp] theorem Stmt.head_relabel (s : Stmt ι) : (s.relabel r loc).head = s.head.relabel r loc := by
  cases s
  rfl

@[simp] theorem Stmt.exprs_relabel (s : Stmt ι) :
    (s.relabel r loc).exprs = s.exprs.map (Expr.rename r) := by
  cases s
  rfl

theorem Slots.get_rename {n : Nat} (s : Slots ι n) (i : Fin n) :
    (s.rename r).get i = (s.get i).map (Expr.rename r) := by
  induction n with
  | zero => exact i.elim0
  | succ n ih =>
    match s, i with
    | .empty _, ⟨0, _⟩ => rfl
    | .full _ _, ⟨0, _⟩ => rfl
    | .empty slots, ⟨i + 1, h⟩ => exact ih slots ⟨i, Nat.lt_of_succ_lt_succ h⟩
    | .full _ slots, ⟨i + 1, h⟩ => exact ih slots ⟨i, Nat.lt_of_succ_lt_succ h⟩

/-! ### Cells -/

omit r loc in
theorem Cell.map_map {π ρ σ : Type} (g : π → ρ) (g' : ρ → σ) (c : Cell π) :
    (c.map g).map g' = c.map (g' ∘ g) := by
  cases c <;> simp [Cell.map, ScopeRecord.map, DeclRecord.map, StmtRecord.map, ExprRecord.map]

theorem arrayBase_map (ids : List ι) : arrayBase (ids.map r) = (arrayBase ids).map r := List.head?_map

/-- The record of a renamed expression is the renamed record. -/
theorem Expr.cell_rename (e : Expr ι) : (e.rename r).cell = e.cell.map r := by
  cases e with
  | node head children =>
    have hchildren : (fun i => ((children.rename r).get i).map Expr.id)
        = fun i => ((children.get i).map Expr.id).map r := by
      funext i
      rw [Slots.get_rename, Option.map_map, Option.map_map]
      exact congrFun (congrArg Option.map (funext (Expr.id_rename r))) _
    simp only [Expr.rename, Expr.cell, Expr.head, Expr.children, ExprHead.rename, Cell.map, ExprRecord.map,
      hchildren, Vector.map_ofFn, Option.map_map, Function.comp_def]
    rfl

/-- The record of a relabelled statement is the renamed record, as far as the locations are stored
alike. -/
theorem Stmt.cell_relabel (hloc : ∀ l, locWord (loc l) = locWord l) (s : Stmt ι) :
    (s.relabel r loc).cell = s.cell.map r := by
  cases s with
  | mk head scope exprs =>
    -- Every pointer of the record is renamed where it stands.
    have hexprs : (fun i : Fin maxExprs => ((exprs.map (Expr.rename r))[i.val]?).map Expr.id)
        = fun i : Fin maxExprs => ((exprs[i.val]?).map Expr.id).map r := by
      funext i
      rw [List.getElem?_map, Option.map_map, Option.map_map]
      exact congrFun (congrArg Option.map (funext (Expr.id_rename r))) _
    have hscope : (scope.map (Scope.relabel r loc)).map (·.id) = (scope.map (·.id)).map r := by
      rw [Option.map_map, Option.map_map]
      exact congrFun (congrArg Option.map (funext (Scope.id_relabel r loc))) _
    have hswitch : (head.switch.map (Leaf.rename r)).map (·.id) = (head.switch.map (·.id)).map r := by
      rw [List.map_map, List.map_map]
      rfl
    simp only [Stmt.relabel, Stmt.cell, StmtHead.relabel, Cell.map, StmtRecord.map, nestedRelabel_eq, hexprs,
      hscope, hswitch, Vector.map_ofFn, hloc, List.length_map, arrayBase_map, Option.map_map,
      Function.comp_def]
    rfl

theorem Scope.cell_relabel (s : Scope ι) : (s.relabel r loc).cell = s.cell.map r := by
  cases s with
  | mk id locals stmts =>
    have hlocals : (locals.map (Local.rename r)).map (·.id) = (locals.map (·.id)).map r := by
      rw [List.map_map, List.map_map]
      rfl
    have hstmts : (stmts.map (Stmt.relabel r loc)).map (·.id) = (stmts.map (·.id)).map r := by
      rw [List.map_map, List.map_map]
      exact congrFun (congrArg List.map (funext (Stmt.id_relabel r loc))) _
    simp only [Scope.relabel, Scope.cell, Cell.map, ScopeRecord.map, stmtListRelabel_eq, hlocals, hstmts,
      List.length_map, arrayBase_map]

end

/-! ### Pieces -/

def renameCell (r : ι → κ) (c : Leaf ι (Cell ι)) : Leaf κ (Cell κ) := ⟨r c.id, c.val.map r⟩

def Piece.rename (r : ι → κ) (p : Piece ι) : Piece κ := ⟨renameCell r p.first, p.others.map (renameCell r)⟩

section

variable (r : ι → κ)

theorem Piece.cells_rename (p : Piece ι) : (p.rename r).cells = p.cells.map (renameCell r) := rfl

theorem rowSize_map_renameCell (cs : List (Leaf ι (Cell ι))) : rowSize (cs.map (renameCell r)) = rowSize cs := by
  induction cs with
  | nil => rfl
  | cons c cs ih => rw [List.map_cons, rowSize_cons, rowSize_cons, ih, renameCell, Cell.size_map]

theorem Piece.size_rename (p : Piece ι) : (p.rename r).size = p.size := by
  rw [Piece.size_eq, Piece.size_eq, Piece.cells_rename, rowSize_map_renameCell]

/-- Renamed pieces have the renamed identities, in the same order. -/
theorem idsOf_map_rename (ps : List (Piece ι)) : idsOf (ps.map (Piece.rename r)) = (idsOf ps).map r := by
  rw [idsOf, idsOf, List.flatMap_map, List.map_flatMap]
  apply congrFun (congrArg List.flatMap (funext fun p => _)) ps
  intro p
  rw [Piece.cells_rename, List.map_map, List.map_map]
  rfl

theorem arrayPieces_map (cells : List (Leaf ι (Cell ι))) :
    arrayPieces (cells.map (renameCell r)) = (arrayPieces cells).map (Piece.rename r) := by
  cases cells <;> rfl

theorem map_textPiece_rename (t : Option (Leaf ι Text)) :
    (t.map (Leaf.rename r)).toList.map textPiece = (t.toList.map textPiece).map (Piece.rename r) := by
  cases t <;> rfl

mutual

theorem Expr.pieces_rename (e : Expr ι) : (e.rename r).pieces = e.pieces.map (Piece.rename r) := by
  match e with
  | .node head children =>
    have hcell := Expr.cell_rename r (.node head children)
    rw [Expr.rename] at hcell
    rw [Expr.rename, Expr.pieces, Expr.pieces, hcell, Slots.pieces_rename children, List.map_cons,
      List.map_append, List.map_append, ← map_textPiece_rename, ← map_textPiece_rename]
    rfl

theorem Slots.pieces_rename {n : Nat} (s : Slots ι n) :
    (s.rename r).pieces = s.pieces.map (Piece.rename r) := by
  match s with
  | .nil => rfl
  | .empty slots => exact Slots.pieces_rename slots
  | .full child slots =>
    rw [Slots.rename, Slots.pieces, Slots.pieces, Expr.pieces_rename child, Slots.pieces_rename slots,
      List.map_append]

end

variable (loc : Option SourceLoc → Option SourceLoc)

section

variable (hloc : ∀ l, locWord (loc l) = locWord l)

-- The theorems of the block use the hypothesis through each other.
set_option linter.unusedSectionVars false

include hloc

mutual

/-- A relabelled scope is laid out as before, node for node. -/
theorem Scope.pieces_relabel (s : Scope ι) : (s.relabel r loc).pieces = s.pieces.map (Piece.rename r) := by
  match s with
  | ⟨id, locals, stmts⟩ =>
    have hcell := Scope.cell_relabel r loc ⟨id, locals, stmts⟩
    rw [Scope.relabel] at hcell
    have hlocals : localCells (locals.map (Local.rename r)) = (localCells locals).map (renameCell r) := by
      rw [localCells, localCells, List.map_map, List.map_map]
      rfl
    have hnames : (locals.map (Local.rename r)).map (fun l => textPiece l.name)
        = (locals.map fun l => textPiece l.name).map (Piece.rename r) := by
      rw [List.map_map, List.map_map]
      rfl
    -- The row of statements keeps its order, and each record is renamed.
    have hstmts : stmtCells (stmtListRelabel r loc stmts) = (stmtCells stmts).map (renameCell r) := by
      rw [stmtListRelabel_eq, stmtCells, stmtCells, List.map_map, List.map_map]
      apply List.map_congr_left
      intro t _
      change (⟨(t.relabel r loc).id, (t.relabel r loc).cell⟩ : Leaf κ (Cell κ)) = _
      rw [Stmt.id_relabel, Stmt.cell_relabel r loc hloc]
      rfl
    rw [Scope.relabel, Scope.pieces, Scope.pieces, hcell, hlocals, hnames, hstmts, arrayPieces_map,
      arrayPieces_map, stmtList_pieces_relabel stmts]
    simp only [List.map_cons, List.map_append]
    rfl

theorem Stmt.pieces_relabel (s : Stmt ι) : (s.relabel r loc).pieces = s.pieces.map (Piece.rename r) := by
  match s with
  | ⟨head, scope, exprs⟩ =>
    have hexprs : (exprs.map (Expr.rename r)).flatMap Expr.pieces
        = (exprs.flatMap Expr.pieces).map (Piece.rename r) := by
      rw [List.flatMap_map, List.map_flatMap]
      exact congrFun (congrArg List.flatMap (funext (Expr.pieces_rename r))) exprs
    have hswitch : switchCells (head.switch.map (Leaf.rename r))
        = (switchCells head.switch).map (renameCell r) := by
      rw [switchCells, switchCells, List.map_map, List.map_map]
      rfl
    rw [Stmt.relabel, Stmt.pieces, Stmt.pieces, nested_pieces_relabel scope, hexprs, StmtHead.relabel,
      map_textPiece_rename, hswitch, arrayPieces_map]
    simp only [List.map_append]

theorem stmtList_pieces_relabel (ss : List (Stmt ι)) :
    stmtListPieces (stmtListRelabel r loc ss) = (stmtListPieces ss).map (Piece.rename r) := by
  match ss with
  | [] => rfl
  | s :: ss =>
    rw [stmtListRelabel, stmtListPieces, stmtListPieces, Stmt.pieces_relabel s, stmtList_pieces_relabel ss,
      List.map_append]

theorem nested_pieces_relabel (s : Option (Scope ι)) :
    nestedPieces (nestedRelabel r loc s) = (nestedPieces s).map (Piece.rename r) := by
  match s with
  | none => rfl
  | some s => exact Scope.pieces_relabel s

end

/-- A relabelled tree is laid out as before, node for node. -/
theorem Function.pieces_relabel (f : Function ι) :
    (f.relabel r loc).pieces = f.pieces.map (Piece.rename r) := by
  rw [Function.relabel, Function.pieces, Function.pieces, Scope.pieces_relabel r loc hloc, List.map_append,
    List.map_map, List.map_map]
  rfl

end

theorem Function.pieces_rename (f : Function ι) : (f.rename r).pieces = f.pieces.map (Piece.rename r) :=
  f.pieces_relabel r sameLoc fun _ => rfl

/-! ### Nodes -/

mutual

/-- The statements of a relabelled scope are the relabelled statements. -/
theorem Scope.allStmts_relabel (s : Scope ι) :
    (s.relabel r loc).allStmts = s.allStmts.map (Stmt.relabel r loc) := by
  match s with
  | ⟨id, locals, stmts⟩ => exact stmtList_allStmts_relabel stmts

theorem Stmt.allStmts_relabel (s : Stmt ι) :
    (s.relabel r loc).allStmts = s.allStmts.map (Stmt.relabel r loc) := by
  match s with
  | ⟨head, scope, exprs⟩ =>
    rw [Stmt.allStmts_mk, List.map_cons, ← nested_allStmts_relabel scope]
    rfl

theorem stmtList_allStmts_relabel (ss : List (Stmt ι)) :
    stmtListAllStmts (stmtListRelabel r loc ss) = (stmtListAllStmts ss).map (Stmt.relabel r loc) := by
  match ss with
  | [] => rfl
  | s :: ss =>
    rw [stmtListRelabel, stmtListAllStmts_cons, stmtListAllStmts_cons, Stmt.allStmts_relabel s,
      stmtList_allStmts_relabel ss, List.map_append]

theorem nested_allStmts_relabel (s : Option (Scope ι)) :
    nestedAllStmts (nestedRelabel r loc s) = (nestedAllStmts s).map (Stmt.relabel r loc) := by
  match s with
  | none => rfl
  | some s => exact Scope.allStmts_relabel s

end

mutual

theorem Scope.allLocals_relabel (s : Scope ι) :
    (s.relabel r loc).allLocals = s.allLocals.map (Local.rename r) := by
  match s with
  | ⟨id, locals, stmts⟩ =>
    rw [Scope.relabel, Scope.allLocals, Scope.allLocals, stmtList_allLocals_relabel stmts, List.map_append]

theorem Stmt.allLocals_relabel (s : Stmt ι) :
    (s.relabel r loc).allLocals = s.allLocals.map (Local.rename r) := by
  match s with
  | ⟨head, scope, exprs⟩ =>
    rw [Stmt.relabel, Stmt.allLocals, Stmt.allLocals, nested_allLocals_relabel scope]

theorem stmtList_allLocals_relabel (ss : List (Stmt ι)) :
    stmtListAllLocals (stmtListRelabel r loc ss) = (stmtListAllLocals ss).map (Local.rename r) := by
  match ss with
  | [] => rfl
  | s :: ss =>
    rw [stmtListRelabel, stmtListAllLocals, stmtListAllLocals, Stmt.allLocals_relabel s,
      stmtList_allLocals_relabel ss, List.map_append]

theorem nested_allLocals_relabel (s : Option (Scope ι)) :
    nestedAllLocals (nestedRelabel r loc s) = (nestedAllLocals s).map (Local.rename r) := by
  match s with
  | none => rfl
  | some s => exact Scope.allLocals_relabel s

end

end

/-- Relabelling keeps a tree well-formed: the shape stays, and a loop reference follows its
target. -/
theorem Function.WellFormed.relabel {f : Function ι} (h : f.WellFormed) (r : ι → κ)
    (loc : Option SourceLoc → Option SourceLoc) : (f.relabel r loc).WellFormed := by
  constructor
  · intro l hl
    rw [Function.relabel, Scope.allLocals_relabel] at hl
    obtain ⟨original, horiginal, rfl⟩ := List.mem_map.mp hl
    exact h.noFunctions original horiginal
  · intro s hs
    rw [Function.relabel, Scope.allStmts_relabel] at hs
    obtain ⟨original, horiginal, rfl⟩ := List.mem_map.mp hs
    rw [Stmt.exprs_relabel, List.length_map]
    exact h.fewExprs original horiginal
  · -- A loop reference of the new tree is a renamed one, and so is its target.
    intro s hs target htarget
    rw [Function.relabel, Scope.allStmts_relabel] at hs ⊢
    obtain ⟨original, horiginal, rfl⟩ := List.mem_map.mp hs
    rw [Stmt.head_relabel] at htarget
    obtain ⟨named, hnamed, rfl⟩ := Option.map_eq_some_iff.mp htarget
    obtain ⟨t, ht, rfl, hkind⟩ := h.loops original horiginal named hnamed
    refine ⟨t.relabel r loc, List.mem_map_of_mem ht, t.id_relabel r loc, ?_⟩
    rw [Stmt.head_relabel]
    exact hkind

end TreePack
