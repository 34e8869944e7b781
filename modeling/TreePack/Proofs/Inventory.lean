import Mathlib.Data.List.Perm.Basic
import TreePack.Proofs.Plannable

namespace TreePack

variable {ι : Type}

mutual

def Expr.allExprs : Expr ι → List (Expr ι)
  | .node head children => .node head children :: children.allExprs

def Slots.allExprs : {n : Nat} → Slots ι n → List (Expr ι)
  | _, .nil => []
  | _, .empty slots => slots.allExprs
  | _, .full child slots => child.allExprs ++ slots.allExprs

end

def Stmt.ownExprs (s : Stmt ι) : List (Expr ι) := s.exprs.flatMap Expr.allExprs

def Expr.ownTexts (e : Expr ι) : List (Leaf ι Text) := e.head.symbol.toList ++ e.head.method.toList

namespace Function

def scopes (f : Function ι) : List (Scope ι) :=
  f.scope :: f.scope.allStmts.flatMap fun s => s.scope.toList

def locals (f : Function ι) : List (Local ι) := f.scopes.flatMap (·.locals)

def exprs (f : Function ι) : List (Expr ι) := f.scope.allStmts.flatMap Stmt.ownExprs

def texts (f : Function ι) : List (Leaf ι Text) :=
  f.locals.map (·.name) ++ (f.scope.allStmts.flatMap fun s => s.head.label.toList)
    ++ f.exprs.flatMap Expr.ownTexts

def switchLabels (f : Function ι) : List (Leaf ι UInt64) := f.scope.allStmts.flatMap fun s => s.head.switch

def nodeCount (f : Function ι) : Nat :=
  f.scopes.length + f.locals.length + f.scope.allStmts.length + f.exprs.length + f.texts.length
    + f.switchLabels.length + f.args.length

end Function

def scopeCell (s : Scope ι) : Leaf ι (Cell ι) := ⟨s.id, s.cell⟩

def stmtCell (s : Stmt ι) : Leaf ι (Cell ι) := ⟨s.id, s.cell⟩

def exprCell (e : Expr ι) : Leaf ι (Cell ι) := ⟨e.id, e.cell⟩

def textCell (t : Leaf ι Text) : Leaf ι (Cell ι) := ⟨t.id, .text t.val⟩

def argCell (t : Leaf ι TypeDesc) : Leaf ι (Cell ι) := ⟨t.id, .type t.val⟩

def Scope.ownCells (s : Scope ι) : List (Leaf ι (Cell ι)) :=
  [scopeCell s] ++ localCells s.locals ++ s.locals.map fun l => textCell l.name

def Expr.ownCells (e : Expr ι) : List (Leaf ι (Cell ι)) := [exprCell e] ++ e.ownTexts.map textCell

def Stmt.ownCells (s : Stmt ι) : List (Leaf ι (Cell ι)) :=
  [stmtCell s] ++ s.scope.toList.flatMap Scope.ownCells ++ s.ownExprs.flatMap Expr.ownCells
    ++ s.head.label.toList.map textCell ++ switchCells s.head.switch

@[simp] theorem cellsOf_cons (p : Piece ι) (ps : List (Piece ι)) :
    cellsOf (p :: ps) = p.cells ++ cellsOf ps := List.flatMap_cons

@[simp] theorem cellsOf_append (ps qs : List (Piece ι)) : cellsOf (ps ++ qs) = cellsOf ps ++ cellsOf qs :=
  List.flatMap_append

@[simp] theorem cellsOf_arrayPieces (cells : List (Leaf ι (Cell ι))) : cellsOf (arrayPieces cells) = cells := by
  cases cells with
  | nil => rfl
  | cons first others => exact List.append_nil _

/-- Pieces of one cell each. -/
theorem cellsOf_map {α : Type} (piece : α → Piece ι) (cell : α → Leaf ι (Cell ι))
    (hcells : ∀ a, (piece a).cells = [cell a]) (xs : List α) : cellsOf (xs.map piece) = xs.map cell := by
  induction xs with
  | nil => rfl
  | cons x xs ih => rw [List.map_cons, cellsOf_cons, hcells, ih, List.map_cons, List.singleton_append]

theorem cellsOf_texts (ts : List (Leaf ι Text)) : cellsOf (ts.map textPiece) = ts.map textCell :=
  cellsOf_map textPiece textCell (fun _ => rfl) ts

mutual

/-- The cells below an expression are those of its nodes, one after the other. -/
theorem Expr.cells_eq (e : Expr ι) : cellsOf e.pieces = e.allExprs.flatMap Expr.ownCells := by
  match e with
  | .node head children =>
    have hbelow := Slots.cells_eq children
    rw [Expr.pieces, cellsOf_cons, cellsOf_append, cellsOf_append, cellsOf_texts, cellsOf_texts, hbelow,
      Expr.allExprs, List.flatMap_cons, Expr.ownCells, Expr.ownTexts, List.map_append]
    rfl

theorem Slots.cells_eq {n : Nat} (s : Slots ι n) : cellsOf s.pieces = s.allExprs.flatMap Expr.ownCells := by
  match s with
  | .nil => rfl
  | .empty slots => exact Slots.cells_eq slots
  | .full child slots =>
    rw [Slots.pieces, cellsOf_append, Expr.cells_eq child, Slots.cells_eq slots, Slots.allExprs,
      List.flatMap_append]

end

theorem exprList_cells_eq (exprs : List (Expr ι)) :
    cellsOf (exprs.flatMap Expr.pieces) = (exprs.flatMap Expr.allExprs).flatMap Expr.ownCells := by
  induction exprs with
  | nil => rfl
  | cons e es ih =>
    rw [List.flatMap_cons, cellsOf_append, e.cells_eq, ih, List.flatMap_cons, List.flatMap_append]

section

-- Cells are counted, which takes a decision whether two of them are equal.
open Classical

mutual

/-- The cells below a scope are its own and those of the statements below it. Only the order
differs, for the planner takes whole rows first. -/
theorem Scope.cells_perm (s : Scope ι) :
    (cellsOf s.pieces).Perm (s.ownCells ++ s.allStmts.flatMap Stmt.ownCells) := by
  match s with
  | ⟨id, locals, stmts⟩ =>
    have hnames : cellsOf (locals.map fun l => textPiece l.name) = locals.map fun l => textCell l.name :=
      cellsOf_map _ _ (fun _ => rfl) locals
    have hbelow := stmtList_cells_perm stmts
    apply List.perm_iff_count.mpr
    intro c
    have hcount := hbelow.count_eq c
    rw [List.count_append] at hcount
    -- The array of the statements stands in front of what lies below them.
    have hself : (Piece.single id (Scope.mk id locals stmts).cell).cells
        = [scopeCell ⟨id, locals, stmts⟩] := rfl
    simp only [Scope.pieces, cellsOf_cons, hself, cellsOf_append, cellsOf_arrayPieces, hnames,
      Scope.ownCells, Scope.allStmts_mk, List.count_append, ← hcount]
    omega

/-- With its own record, which stands in the row of its scope, a statement has the cells of all
statements from it on. -/
theorem Stmt.cells_perm (s : Stmt ι) :
    (stmtCell s :: cellsOf s.pieces).Perm (s.allStmts.flatMap Stmt.ownCells) := by
  match s with
  | ⟨head, scope, exprs⟩ =>
    have hbelow := nested_cells_perm scope
    apply List.perm_iff_count.mpr
    intro c
    have hcount := hbelow.count_eq c
    rw [List.count_append] at hcount
    -- What lies in the nested scope is counted with its own statements.
    rw [Stmt.allStmts_mk, List.flatMap_cons, List.count_append, Stmt.ownCells, Stmt.pieces]
    simp only [cellsOf_append, cellsOf_texts, cellsOf_arrayPieces, exprList_cells_eq, Stmt.ownExprs,
      List.count_append, List.count_cons, List.count_nil, hcount]
    omega

/-- The row of a scope's statements with what stands below them. -/
theorem stmtList_cells_perm (ss : List (Stmt ι)) :
    (stmtCells ss ++ cellsOf (stmtListPieces ss)).Perm
      ((stmtListAllStmts ss).flatMap Stmt.ownCells) := by
  match ss with
  | [] => exact List.Perm.nil
  | s :: ss =>
    have hfirst := Stmt.cells_perm s
    have hothers := stmtList_cells_perm ss
    apply List.perm_iff_count.mpr
    intro c
    have hcount := hfirst.count_eq c
    have hcount' := hothers.count_eq c
    have hcells : stmtCells (s :: ss) = stmtCell s :: stmtCells ss := rfl
    rw [List.count_cons] at hcount
    rw [List.count_append] at hcount'
    rw [hcells, stmtListPieces, cellsOf_append, stmtListAllStmts_cons, List.flatMap_append, List.count_append,
      List.count_append, List.count_append, List.count_cons, ← hcount, ← hcount']
    omega

theorem nested_cells_perm (s : Option (Scope ι)) :
    (cellsOf (nestedPieces s)).Perm
      (s.toList.flatMap Scope.ownCells ++ (nestedAllStmts s).flatMap Stmt.ownCells) := by
  match s with
  | none => exact List.Perm.nil
  | some s =>
    have hscope := Scope.cells_perm s
    rw [nestedPieces, nestedAllStmts_some, Option.toList_some, List.flatMap_singleton]
    exact hscope

end

theorem perm_of_scopes (ss : List (Scope ι)) :
    (ss.flatMap Scope.ownCells).Perm (ss.map scopeCell ++ localCells (ss.flatMap (·.locals))
      ++ (ss.flatMap (·.locals)).map fun l => textCell l.name) := by
  apply List.perm_iff_count.mpr
  intro c
  induction ss with
  | nil => rfl
  | cons s ss ih =>
    simp only [List.flatMap_cons, List.map_cons, List.map_append, localCells, Scope.ownCells, List.count_append,
      List.count_cons, List.count_nil] at ih ⊢
    omega

theorem perm_of_exprs (es : List (Expr ι)) :
    (es.flatMap Expr.ownCells).Perm (es.map exprCell ++ (es.flatMap Expr.ownTexts).map textCell) := by
  rw [List.map_flatMap]
  exact (List.map_append_flatMap_perm es exprCell _).symm

/-- The cells of statements, sorted by their kind. -/
theorem perm_of_stmts (ss : List (Stmt ι)) :
    (ss.flatMap Stmt.ownCells).Perm (stmtCells ss ++ (ss.flatMap fun s => s.scope.toList).flatMap Scope.ownCells
      ++ (ss.flatMap Stmt.ownExprs).flatMap Expr.ownCells
      ++ (ss.flatMap fun s => s.head.label.toList).map textCell
      ++ switchCells (ss.flatMap fun s => s.head.switch)) := by
  apply List.perm_iff_count.mpr
  intro c
  induction ss with
  | nil => rfl
  | cons s ss ih =>
    simp only [List.flatMap_cons, List.map_cons, List.map_append, List.flatMap_append, stmtCells, stmtCell,
      switchCells, Stmt.ownCells, List.count_append, List.count_cons, List.count_nil] at ih ⊢
    omega

/-- The pieces of a function have one cell for each of its nodes. -/
theorem Function.cells_perm (f : Function ι) :
    (cellsOf f.pieces).Perm (f.scopes.map scopeCell ++ localCells f.locals ++ stmtCells f.scope.allStmts
      ++ f.exprs.map exprCell ++ f.texts.map textCell ++ switchCells f.switchLabels ++ f.args.map argCell) := by
  have hargs : cellsOf (f.args.map argPiece) = f.args.map argCell := cellsOf_map _ _ (fun _ => rfl) f.args
  apply List.perm_iff_count.mpr
  intro c
  -- The nested scopes and the expressions are found through the statements.
  have hall := f.scope.cells_perm.count_eq c
  have hscopes := (perm_of_scopes f.scopes).count_eq c
  have hstmts := (perm_of_stmts f.scope.allStmts).count_eq c
  have hexprs := (perm_of_exprs f.exprs).count_eq c
  rw [scopes, List.flatMap_cons] at hscopes
  simp only [List.count_append] at hall hscopes hstmts hexprs
  simp only [Function.pieces, cellsOf_append, hargs, texts, List.map_append, List.map_map, List.count_append]
  change _ = _ + _ + _ + _ + (List.count c (f.locals.map fun l => textCell l.name) + _ + _) + _ + _
  unfold locals scopes exprs switchLabels at *
  omega

end

/-- A tree has as many cells as nodes. -/
theorem Function.length_cells (f : Function ι) : (cellsOf f.pieces).length = f.nodeCount := by
  rw [f.cells_perm.length_eq, nodeCount]
  simp only [List.length_append, List.length_map, localCells, stmtCells, switchCells]

/-- If no two nodes of a function have one identity, no two of its statements have. -/
theorem Function.nodup_stmts {f : Function ι} (h : (idsOf f.pieces).Nodup) :
    (f.scope.allStmts.map Stmt.id).Nodup := by
  rw [← map_id_cellsOf, (f.cells_perm.map (·.id)).nodup_iff] at h
  have hids : (stmtCells f.scope.allStmts).map (·.id) = f.scope.allStmts.map Stmt.id := by
    rw [stmtCells, List.map_map]
    rfl
  simp only [List.map_append, hids, List.nodup_append] at h
  obtain ⟨⟨⟨⟨⟨-, hstmts, -⟩, -⟩, -⟩, -⟩, -⟩ := h
  exact hstmts

end TreePack
