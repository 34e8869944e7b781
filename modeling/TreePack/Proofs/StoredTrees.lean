import TreePack.Proofs.Records
import TreePack.Proofs.Relabeling
import TreePack.Proofs.Relocation

namespace TreePack

variable {ι : Type}

def Leaf.stored {α : Type} (place : ι → Offset) (t : Leaf ι α) : Leaf Offset α := ⟨place t.id, t.val⟩

def ExprHead.stored (place : ι → Offset) (h : ExprHead ι) : ExprHead Offset :=
  { id := place h.id
    kind := h.kind
    value := h.value
    ty := h.ty
    symbol := h.symbol.map (Leaf.stored place)
    method := h.method.map (Leaf.stored place) }

mutual

def Expr.stored (place : ι → Offset) : Expr ι → Expr Offset
  | .node head children => .node (head.stored place) (children.stored place)

def Slots.stored (place : ι → Offset) : {n : Nat} → Slots ι n → Slots Offset n
  | _, .nil => .nil
  | _, .empty slots => .empty (slots.stored place)
  | _, .full child slots => .full (child.stored place) (slots.stored place)

end

def Local.stored (place : ι → Offset) (l : Local ι) : Local Offset :=
  { id := place l.id, name := l.name.stored place, ty := l.ty, isFunction := l.isFunction }

def StmtHead.stored (place : ι → Offset) (h : StmtHead ι) : StmtHead Offset :=
  { id := place h.id
    kind := h.kind
    loc := storedLoc h.loc
    loop := h.loop.map place
    label := h.label.map (Leaf.stored place)
    switch := h.switch.map (Leaf.stored place) }

mutual

def Scope.stored (place : ι → Offset) : Scope ι → Scope Offset
  | ⟨id, locals, stmts⟩ => ⟨place id, locals.map (Local.stored place), stmtListStored place stmts⟩

def Stmt.stored (place : ι → Offset) : Stmt ι → Stmt Offset
  | ⟨head, scope, exprs⟩ =>
    ⟨head.stored place, nestedStored place scope, exprs.map (Expr.stored place)⟩

def stmtListStored (place : ι → Offset) : List (Stmt ι) → List (Stmt Offset)
  | [] => []
  | s :: ss => s.stored place :: stmtListStored place ss

def nestedStored (place : ι → Offset) : Option (Scope ι) → Option (Scope Offset)
  | none => none
  | some s => some (s.stored place)

end

def Function.stored (place : ι → Offset) (f : Function ι) : Function Offset :=
  ⟨f.scope.stored place, f.args.map (Leaf.stored place)⟩

section

variable (place : ι → Offset)

/-- A stored location has the word of the location itself. -/
theorem locWord_storedLoc (loc : Option SourceLoc) : locWord (storedLoc loc) = locWord loc := by
  cases loc with
  | none => rfl
  | some loc =>
    rw [storedLoc, Option.filter_some]
    by_cases habsent : loc.pack = Offset.absent
    · rw [if_neg (by simp [habsent])]
      exact habsent.symm
    · rw [if_pos (by simp [habsent])]

mutual

theorem Expr.stored_eq (e : Expr ι) : e.stored place = e.rename place := by
  match e with
  | .node head children =>
    rw [Expr.stored, Expr.rename, Slots.stored_eq children]
    rfl

theorem Slots.stored_eq {n : Nat} (s : Slots ι n) : s.stored place = s.rename place := by
  match s with
  | .nil => rfl
  | .empty slots => rw [Slots.stored, Slots.rename, Slots.stored_eq slots]
  | .full child slots => rw [Slots.stored, Slots.rename, Expr.stored_eq child, Slots.stored_eq slots]

end

mutual

theorem Scope.stored_eq (s : Scope ι) : s.stored place = s.relabel place storedLoc := by
  match s with
  | ⟨id, locals, stmts⟩ =>
    rw [Scope.stored, Scope.relabel, stmtListStored_eq stmts]
    rfl

theorem Stmt.stored_eq (s : Stmt ι) : s.stored place = s.relabel place storedLoc := by
  match s with
  | ⟨head, scope, exprs⟩ =>
    rw [Stmt.stored, Stmt.relabel, nestedStored_eq scope, funext (Expr.stored_eq place)]
    rfl

theorem stmtListStored_eq (ss : List (Stmt ι)) :
    stmtListStored place ss = stmtListRelabel place storedLoc ss := by
  match ss with
  | [] => rfl
  | s :: ss => rw [stmtListStored, stmtListRelabel, Stmt.stored_eq s, stmtListStored_eq ss]

theorem nestedStored_eq (s : Option (Scope ι)) :
    nestedStored place s = nestedRelabel place storedLoc s := by
  match s with
  | none => rfl
  | some s => rw [nestedStored, nestedRelabel, Scope.stored_eq s]

end

/-- What is read back of a tree is the tree relabelled: identities become offsets, and locations
go through their word. -/
theorem Function.stored_eq (f : Function ι) : f.stored place = f.relabel place storedLoc := by
  rw [Function.stored, Function.relabel, Scope.stored_eq]
  rfl

@[simp] theorem Stmt.id_stored (s : Stmt ι) : (s.stored place).id = place s.id := by
  cases s
  rfl

@[simp] theorem Stmt.exprs_stored (s : Stmt ι) :
    (s.stored place).exprs = s.exprs.map (Expr.stored place) := by
  cases s
  rfl

theorem Scope.allStmts_stored (s : Scope ι) :
    (s.stored place).allStmts = s.allStmts.map (Stmt.stored place) := by
  rw [Scope.stored_eq, Scope.allStmts_relabel, funext (Stmt.stored_eq place)]

theorem Function.pieces_stored (f : Function ι) :
    (f.stored place).pieces = f.pieces.map (Piece.rename place) := by
  rw [Function.stored_eq, f.pieces_relabel place storedLoc locWord_storedLoc]

end

section

variable {κ : Type} {r : ι → κ} {place : κ → Offset}

/-- A renamed piece is held where the piece is held under the composed placement. -/
theorem Piece.heldIn_rename_iff {b : Block} {p : Piece ι} :
    (p.rename r).HeldIn b place ↔ p.HeldIn b (place ∘ r) := by
  -- Cells of the renamed piece are renamed cells, of the same size and in the same order.
  constructor
  · intro h
    refine ⟨h.aligned, fun i c hc => ?_, fun c hc => ?_⟩
    · have hc' : (p.rename r).cells[i]? = some (renameCell r c) := by
        rw [Piece.cells_rename, List.getElem?_map, hc]
        rfl
      have hrow := h.inRow i _ hc'
      change _ = _ + i * (p.first.val.map r).size at hrow
      rw [Cell.size_map] at hrow
      exact hrow
    · have hheld := h.held (renameCell r c) (List.mem_map_of_mem hc)
      rw [renameCell, Cell.map_map] at hheld
      exact hheld
  · intro h
    refine ⟨h.aligned, fun i c hc => ?_, fun c hc => ?_⟩
    · rw [Piece.cells_rename, List.getElem?_map] at hc
      obtain ⟨original, horiginal, rfl⟩ := Option.map_eq_some_iff.mp hc
      have hrow := h.inRow i original horiginal
      change _ = _ + i * (p.first.val.map r).size
      rw [Cell.size_map]
      exact hrow
    · rw [Piece.cells_rename] at hc
      obtain ⟨original, horiginal, rfl⟩ := List.mem_map.mp hc
      rw [renameCell, Cell.map_map]
      exact h.held original horiginal

variable {loc : Option SourceLoc → Option SourceLoc} (hloc : ∀ l, locWord (loc l) = locWord l)

include hloc

theorem Function.extents_relabel (f : Function ι) :
    (f.relabel r loc).pieces.map (Piece.extent place) = f.pieces.map (Piece.extent (place ∘ r)) := by
  rw [f.pieces_relabel r loc hloc, List.map_map]
  apply List.map_congr_left
  intro piece _
  change Extent.mk _ (alignUp (piece.rename r).size) = _
  rw [Piece.size_rename]
  rfl

/-- A relabeled tree is relocated just if the tree is. -/
theorem Packed.relocates_relabel_iff {p : Packed} {f : Function ι} :
    p.Relocates place (f.relabel r loc) ↔ p.Relocates (place ∘ r) f := by
  have hroot : place (f.relabel r loc).scope.id = place (r f.scope.id) :=
    congrArg place (f.scope.id_relabel r loc)
  have hargs : ((f.relabel r loc).args.map fun t => place t.id) = f.args.map fun t => place (r t.id) := by
    rw [Function.relabel, List.map_map]
    rfl
  -- Holding is judged cell by cell, tiling by the extents.
  have hheld : Held p.block place (f.relabel r loc).pieces ↔ Held p.block (place ∘ r) f.pieces := by
    rw [f.pieces_relabel r loc hloc, Held, List.forall_mem_map]
    exact forall₂_congr fun _ _ => Piece.heldIn_rename_iff
  have htiles : (f.relabel r loc).pieces.map (Piece.extent place) = _ := f.extents_relabel hloc
  constructor
  · intro h
    have h' := h.tiles
    rw [htiles] at h'
    exact ⟨h.root.trans hroot, h.args.trans hargs, hheld.mp h.held, h'⟩
  · intro h
    have h' := h.tiles
    rw [← htiles] at h'
    exact ⟨h.root.trans hroot.symm, h.args.trans hargs.symm, hheld.mpr h.held, h'⟩

end

section

variable {place : ι → Offset}

/-- What is read back of a well-formed tree is well-formed. -/
theorem Function.WellFormed.stored {f : Function ι} (h : f.WellFormed) : (f.stored place).WellFormed := by
  rw [Function.stored_eq]
  exact h.relabel place storedLoc

theorem Function.extents_stored (f : Function ι) :
    (f.stored place).pieces.map (Piece.extent id) = f.pieces.map (Piece.extent place) := by
  rw [Function.stored_eq]
  exact f.extents_relabel locWord_storedLoc

/-- A block holds what is read back of its tree at the very offsets that name its nodes. -/
theorem Packed.Relocates.stored {p : Packed} {f : Function ι} (h : p.Relocates place f) :
    p.Relocates id (f.stored place) := by
  rw [Function.stored_eq]
  exact (relocates_relabel_iff locWord_storedLoc).mpr h

end

end TreePack
