import TreePack.Layout.Visit

namespace TreePack

variable {ι : Type}

/-! ### Sizes -/

@[simp] theorem Cell.size_map {π ρ : Type} (f : π → ρ) (c : Cell π) : (c.map f).size = c.size := by
  cases c <;> rfl

/-- No cell is empty: an empty text still has its terminator. -/
theorem Cell.size_pos {π : Type} (c : Cell π) : 0 < c.size := by
  cases c with
  | text t =>
    rw [Cell.size, Text.length_stored]
    omega
  | scope _ | decl _ | stmt _ | expr _ | switchLabel _ | type _ => exact of_decide_eq_true rfl

def rowSize (cs : List (Leaf ι (Cell ι))) : Nat := cs.foldr (fun c n => c.val.size + n) 0

theorem Piece.size_eq (p : Piece ι) : p.size = rowSize p.cells := rfl

theorem rowSize_cons (c : Leaf ι (Cell ι)) (cs : List (Leaf ι (Cell ι))) :
    rowSize (c :: cs) = c.val.size + rowSize cs := rfl

/-- No piece is empty, since no cell is. -/
theorem Piece.size_pos (p : Piece ι) : 0 < p.size := by
  have hfirst := p.first.val.size_pos
  rw [Piece.size_eq, Piece.cells, rowSize_cons]
  omega

/-! ### Pieces -/

def Visit.piece? : Visit ι → Option (Piece ι)
  | .place p => some p
  | _ => none

theorem Visit.eq_place_of_piece? {v : Visit ι} {p : Piece ι} (h : v.piece? = some p) : v = .place p := by
  cases v with
  | place q =>
    cases h
    rfl
  | enterLocal _ | enterStmt _ | leave => cases h

def placedPieces (vs : List (Visit ι)) : List (Piece ι) := vs.filterMap Visit.piece?

theorem placedPieces_cons (v : Visit ι) (vs : List (Visit ι)) :
    placedPieces (v :: vs) = placedPieces [v] ++ placedPieces vs := List.filterMap_append (l := [v])

theorem placedPieces_skip {v : Visit ι} (hv : v.piece? = none) (vs : List (Visit ι)) :
    placedPieces (v :: vs) = placedPieces vs := List.filterMap_cons_none hv

@[simp] theorem placedPieces_nil : placedPieces ([] : List (Visit ι)) = [] := rfl

@[simp] theorem placedPieces_place (p : Piece ι) (vs : List (Visit ι)) :
    placedPieces (.place p :: vs) = p :: placedPieces vs := rfl

@[simp] theorem placedPieces_leave (vs : List (Visit ι)) :
    placedPieces (.leave :: vs) = placedPieces vs := rfl

@[simp] theorem placedPieces_enterStmt (s : Stmt ι) (vs : List (Visit ι)) :
    placedPieces (.enterStmt s :: vs) = placedPieces vs := rfl

def textPiece (t : Leaf ι Text) : Piece ι := .single t.id (.text t.val)

def arrayPieces : List (Leaf ι (Cell ι)) → List (Piece ι)
  | [] => []
  | first :: others => [⟨first, others⟩]

mutual

def Expr.pieces : Expr ι → List (Piece ι)
  | .node head children =>
    .single head.id (Expr.node head children).cell ::
      (head.symbol.toList.map textPiece ++ head.method.toList.map textPiece ++ children.pieces)

def Slots.pieces : {n : Nat} → Slots ι n → List (Piece ι)
  | _, .nil => []
  | _, .empty slots => slots.pieces
  | _, .full child slots => child.pieces ++ slots.pieces

end

def switchCells (labels : List (Leaf ι UInt64)) : List (Leaf ι (Cell ι)) :=
  labels.map fun n => ⟨n.id, .switchLabel n.val⟩

def localCells (locals : List (Local ι)) : List (Leaf ι (Cell ι)) := locals.map fun l => ⟨l.id, l.cell⟩

def stmtCells (stmts : List (Stmt ι)) : List (Leaf ι (Cell ι)) := stmts.map fun s => ⟨s.id, s.cell⟩

mutual

def Scope.pieces : Scope ι → List (Piece ι)
  | ⟨id, locals, stmts⟩ =>
    .single id (Scope.mk id locals stmts).cell ::
      (arrayPieces (localCells locals) ++ locals.map (fun l => textPiece l.name)
        ++ arrayPieces (stmtCells stmts) ++ stmtListPieces stmts)

/-- The pieces below a statement. Its own record belongs to the array in which it stands. -/
def Stmt.pieces : Stmt ι → List (Piece ι)
  | ⟨head, scope, exprs⟩ =>
    nestedPieces scope ++ exprs.flatMap Expr.pieces ++ head.label.toList.map textPiece
      ++ arrayPieces (switchCells head.switch)

def stmtListPieces : List (Stmt ι) → List (Piece ι)
  | [] => []
  | s :: ss => s.pieces ++ stmtListPieces ss

def nestedPieces : Option (Scope ι) → List (Piece ι)
  | none => []
  | some s => s.pieces

end

def argPiece (t : Leaf ι TypeDesc) : Piece ι := .single t.id (.type t.val)

def Function.pieces (f : Function ι) : List (Piece ι) := f.scope.pieces ++ f.args.map argPiece

/-! ### What kinds of pieces there are -/

section

variable {Q : Piece ι → Prop} (hsingle : ∀ id cell, Q (.single id cell))
  (hlocals : ∀ locals, ∀ p ∈ arrayPieces (localCells locals), Q p)
  (hstmts : ∀ stmts, ∀ p ∈ arrayPieces (stmtCells stmts), Q p)
  (hswitch : ∀ labels, ∀ p ∈ arrayPieces (switchCells labels), Q p)

include hsingle in
theorem forall_textPieces (ts : List (Leaf ι Text)) : ∀ p ∈ ts.map textPiece, Q p := by
  intro p hp
  obtain ⟨t, -, rfl⟩ := List.mem_map.mp hp
  exact hsingle _ _

mutual

/-- An expression has single pieces only. -/
theorem Expr.forall_pieces (hsingle : ∀ id cell, Q (.single id cell)) (e : Expr ι) :
    ∀ p ∈ e.pieces, Q p := by
  match e with
  | .node head children =>
    intro p hp
    simp only [Expr.pieces, List.mem_cons, List.mem_append] at hp
    rcases hp with rfl | (hp | hp) | hp
    · exact hsingle _ _
    · exact forall_textPieces hsingle _ p hp
    · exact forall_textPieces hsingle _ p hp
    · exact Slots.forall_pieces hsingle children p hp

theorem Slots.forall_pieces (hsingle : ∀ id cell, Q (.single id cell)) {n : Nat} (s : Slots ι n) :
    ∀ p ∈ s.pieces, Q p := by
  match s with
  | .nil => exact fun _ h => (List.not_mem_nil h).elim
  | .empty slots => exact Slots.forall_pieces hsingle slots
  | .full child slots =>
    intro p hp
    rcases List.mem_append.mp hp with hp | hp
    · exact Expr.forall_pieces hsingle child p hp
    · exact Slots.forall_pieces hsingle slots p hp

end

-- The theorems of the block use the hypotheses through each other.
set_option linter.unusedSectionVars false

include hsingle hlocals hstmts hswitch

mutual

theorem Scope.forall_pieces (s : Scope ι) : ∀ p ∈ s.pieces, Q p := by
  match s with
  | ⟨id, locals, stmts⟩ =>
    intro p hp
    simp only [Scope.pieces, List.mem_cons, List.mem_append] at hp
    rcases hp with rfl | ((hp | hp) | hp) | hp
    · exact hsingle _ _
    · exact hlocals locals p hp
    · obtain ⟨l, -, rfl⟩ := List.mem_map.mp hp
      exact hsingle _ _
    · exact hstmts stmts p hp
    · exact stmtList_forall_pieces stmts p hp

theorem Stmt.forall_pieces (s : Stmt ι) : ∀ p ∈ s.pieces, Q p := by
  match s with
  | ⟨head, scope, exprs⟩ =>
    intro p hp
    simp only [Stmt.pieces, List.mem_append, List.mem_flatMap] at hp
    rcases hp with ((hp | ⟨e, -, hp⟩) | hp) | hp
    · exact nested_forall_pieces scope p hp
    · exact Expr.forall_pieces hsingle e p hp
    · exact forall_textPieces hsingle _ p hp
    · exact hswitch _ p hp

theorem stmtList_forall_pieces (ss : List (Stmt ι)) : ∀ p ∈ stmtListPieces ss, Q p := by
  match ss with
  | [] => exact fun _ h => (List.not_mem_nil h).elim
  | s :: ss =>
    intro p hp
    rcases List.mem_append.mp hp with hp | hp
    · exact Stmt.forall_pieces s p hp
    · exact stmtList_forall_pieces ss p hp

theorem nested_forall_pieces (s : Option (Scope ι)) : ∀ p ∈ nestedPieces s, Q p := by
  match s with
  | none => exact fun _ h => (List.not_mem_nil h).elim
  | some s => exact Scope.forall_pieces s

end

/-- What holds of single nodes and of arrays holds of all pieces of a function. -/
theorem Function.forall_pieces (f : Function ι) : ∀ p ∈ f.pieces, Q p := by
  intro p hp
  rcases List.mem_append.mp hp with hp | hp
  · exact f.scope.forall_pieces hsingle hlocals hstmts hswitch p hp
  · obtain ⟨t, -, rfl⟩ := List.mem_map.mp hp
    exact hsingle _ _

end

def Piece.Uniform (p : Piece ι) : Prop := ∀ c ∈ p.cells, c.val.size = p.first.val.size

/-- The cells of an array are of one size. -/
theorem uniform_of_mem_arrayPieces {cells : List (Leaf ι (Cell ι))} {stride : Nat}
    (hsize : ∀ c ∈ cells, c.val.size = stride) : ∀ p ∈ arrayPieces cells, p.Uniform := by
  cases cells with
  | nil => exact fun _ h => (List.not_mem_nil h).elim
  | cons first others =>
    intro p hp c hc
    rw [List.mem_singleton.mp hp] at hc ⊢
    rw [hsize c hc, hsize first List.mem_cons_self]

theorem size_of_mem_localCells {locals : List (Local ι)} :
    ∀ c ∈ localCells locals, c.val.size = Stored.size (DeclRecord Offset) := by
  intro c hc
  obtain ⟨l, -, rfl⟩ := List.mem_map.mp hc
  rfl

theorem size_of_mem_stmtCells {stmts : List (Stmt ι)} :
    ∀ c ∈ stmtCells stmts, c.val.size = Stored.size (StmtRecord Offset) := by
  intro c hc
  obtain ⟨s, -, rfl⟩ := List.mem_map.mp hc
  rfl

theorem size_of_mem_switchCells {labels : List (Leaf ι UInt64)} :
    ∀ c ∈ switchCells labels, c.val.size = Stored.size UInt64 := by
  intro c hc
  obtain ⟨n, -, rfl⟩ := List.mem_map.mp hc
  rfl

/-- The cells of each piece of a tree are of one size, so that an element's place follows from its
index. -/
theorem Function.uniform (f : Function ι) : ∀ p ∈ f.pieces, p.Uniform := by
  refine f.forall_pieces (fun id cell c hc => ?_) (fun locals => ?_) (fun stmts => ?_) fun labels => ?_
  · rw [List.mem_singleton.mp hc]
  · exact uniform_of_mem_arrayPieces size_of_mem_localCells
  · exact uniform_of_mem_arrayPieces size_of_mem_stmtCells
  · exact uniform_of_mem_arrayPieces size_of_mem_switchCells

/-! ### The walk sets aside the pieces of the tree -/

@[simp] theorem placedPieces_optionText (rest : List (Visit ι)) (t : Option (Leaf ι Text)) :
    placedPieces (optionTextVisitsThen rest t) = t.toList.map textPiece ++ placedPieces rest := by
  cases t <;> rfl

@[simp] theorem placedPieces_locals (rest : List (Visit ι)) (locals : List (Local ι)) :
    placedPieces (localVisitsThen rest locals)
      = locals.map (fun l => textPiece l.name) ++ placedPieces rest := by
  induction locals with
  | nil => rfl
  | cons l locals ih =>
    change textPiece l.name :: placedPieces (localVisitsThen rest locals) = _
    rw [ih]
    rfl

/-- The contents may be whatever an empty array does not have. -/
theorem placedPieces_array (cells : List (Leaf ι (Cell ι))) (contents : List (Visit ι) → List (Visit ι))
    (inner : List (Piece ι)) (rest : List (Visit ι))
    (hcontents : ∀ rest, placedPieces (contents rest) = inner ++ placedPieces rest)
    (hempty : cells = [] → inner = []) :
    placedPieces (arrayVisitsThen cells contents rest)
      = arrayPieces cells ++ inner ++ placedPieces rest := by
  cases cells with
  | nil => rw [hempty rfl]; rfl
  | cons first others =>
    rw [arrayVisitsThen, placedPieces_place, hcontents, placedPieces_leave]
    rfl

@[simp] theorem placedPieces_switch (rest : List (Visit ι)) (labels : List (Leaf ι UInt64)) :
    placedPieces (switchVisitsThen rest labels)
      = arrayPieces (switchCells labels) ++ placedPieces rest := by
  have h := placedPieces_array (switchCells labels) (fun rest => rest) [] rest (fun _ => rfl)
    (fun _ => rfl)
  rw [List.append_nil] at h
  exact h

mutual

theorem Expr.placedPieces_visits (rest : List (Visit ι)) (e : Expr ι) :
    placedPieces (e.visitsThen rest) = e.pieces ++ placedPieces rest := by
  match e with
  | .node head children =>
    have ih := Slots.placedPieces_visits (.leave :: rest) children
    simp only [Expr.visitsThen, Expr.pieces, placedPieces_place, placedPieces_optionText, ih,
      placedPieces_leave, List.cons_append, List.append_assoc]

theorem Slots.placedPieces_visits (rest : List (Visit ι)) {n : Nat} (s : Slots ι n) :
    placedPieces (s.visitsThen rest) = s.pieces ++ placedPieces rest := by
  match s with
  | .nil => rfl
  | .empty slots => exact Slots.placedPieces_visits rest slots
  | .full child slots =>
    rw [Slots.visitsThen, Expr.placedPieces_visits _ child, Slots.placedPieces_visits rest slots,
      Slots.pieces, List.append_assoc]

end

@[simp] theorem placedPieces_exprs (rest : List (Visit ι)) (exprs : List (Expr ι)) :
    placedPieces (exprListVisitsThen rest exprs) = exprs.flatMap Expr.pieces ++ placedPieces rest := by
  induction exprs with
  | nil => rfl
  | cons e exprs ih =>
    change placedPieces (e.visitsThen (exprListVisitsThen rest exprs)) = _
    rw [Expr.placedPieces_visits, ih, List.flatMap_cons, List.append_assoc]

mutual

/-- The walk of a scope places the pieces of the scope, in order. -/
theorem Scope.placedPieces_visits (rest : List (Visit ι)) (s : Scope ι) :
    placedPieces (s.visitsThen rest) = s.pieces ++ placedPieces rest := by
  match s with
  | ⟨id, locals, stmts⟩ =>
    have hlocals (rest : List (Visit ι)) := placedPieces_array (localCells locals)
      (fun rest => localVisitsThen rest locals) _ rest (fun rest => placedPieces_locals rest locals)
      (fun h => by rw [List.map_eq_nil_iff.mp h]; rfl)
    have hstmts (rest : List (Visit ι)) := placedPieces_array (stmtCells stmts)
      (fun rest => stmtListVisitsThen rest stmts) _ rest
      (fun rest => stmtList_placedPieces_visits rest stmts)
      (fun h => by rw [List.map_eq_nil_iff.mp h]; rfl)
    rw [localCells] at hlocals
    rw [stmtCells] at hstmts
    simp only [Scope.visitsThen, placedPieces_place, hlocals, hstmts, placedPieces_leave, Scope.pieces,
      localCells, stmtCells, List.cons_append, List.append_assoc]

/-- The walk of a statement places the pieces of what is below it, in order. -/
theorem Stmt.placedPieces_visits (rest : List (Visit ι)) (s : Stmt ι) :
    placedPieces (s.visitsThen rest) = s.pieces ++ placedPieces rest := by
  match s with
  | ⟨head, scope, exprs⟩ =>
    simp only [Stmt.visitsThen, placedPieces_enterStmt, nested_placedPieces_visits _ scope,
      placedPieces_exprs, placedPieces_optionText, placedPieces_switch, Stmt.pieces, List.append_assoc]

theorem stmtList_placedPieces_visits (rest : List (Visit ι)) (ss : List (Stmt ι)) :
    placedPieces (stmtListVisitsThen rest ss) = stmtListPieces ss ++ placedPieces rest := by
  match ss with
  | [] => rfl
  | s :: ss =>
    rw [stmtListVisitsThen, Stmt.placedPieces_visits _ s, stmtList_placedPieces_visits rest ss,
      stmtListPieces, List.append_assoc]

theorem nested_placedPieces_visits (rest : List (Visit ι)) (s : Option (Scope ι)) :
    placedPieces (nestedVisitsThen rest s) = nestedPieces s ++ placedPieces rest := by
  match s with
  | none => rfl
  | some s => exact Scope.placedPieces_visits rest s

end

theorem placedPieces_args (rest : List (Visit ι)) (args : List (Leaf ι TypeDesc)) :
    placedPieces (argVisitsThen rest args) = args.map argPiece ++ placedPieces rest := by
  induction args with
  | nil => rfl
  | cons t args ih =>
    change argPiece t :: placedPieces (argVisitsThen rest args) = _
    rw [ih]
    rfl

/-- The walk of a tree places its pieces, in order, and no others. -/
theorem placedPieces_visits (f : Function ι) : placedPieces f.visits = f.pieces := by
  rw [Function.visits, Scope.placedPieces_visits, placedPieces_args, placedPieces_nil, List.append_nil,
    Function.pieces]

end TreePack
