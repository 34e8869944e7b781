import TreePack.Proofs.Accounts
import TreePack.Proofs.Traversals

namespace TreePack

variable {ι : Type} [DecidableEq ι] [Hashable ι]

namespace Context

def planTree (f : Function ι) : CompactM ι (Nat × List (Piece ι)) := do
  set (Context.empty : Context ι)
  let body ← planScope f.scope
  let args ← planArgs f.args
  let cx ← get
  match firstLoopDefect? cx.ledger f.scope.allStmts with
  | some defect => throw (.malformedTree defect)
  | none =>
    set { cx with
      stats := { cx.stats with reservations := cx.reservations.size, ledgerEntries := cx.ledger.size } }
    return (cx.cursor, body ++ args)

def writeTree (f : Function ι) : CompactM ι (Packed × List (Emission ι))
  | ⟨ledger, cursor, reservations, none, written, stats⟩ =>
    .error .unallocated ⟨ledger, cursor, reservations, none, written, stats⟩
  | ⟨ledger, cursor, reservations, some block, written, stats⟩ =>
    let traversal : WriteM ι (List (Emission ι)) := do
      let body ← Progress.writeScope ledger f.scope
      let args ← Progress.writeArgs ledger f.args
      return body ++ args
    match traversal ⟨written, stats, block⟩ with
    | .error e ⟨written, stats, _⟩ => .error e ⟨ledger, cursor, reservations, none, written, stats⟩
    | .ok notes ⟨written, stats, block⟩ =>
      if reservations.size ≠ written.size then
        .error (.incompleteWrite reservations.size written.size)
          ⟨ledger, cursor, reservations, none, written, stats⟩
      else
        .ok (⟨block, ledger.offset f.scope.id, f.args.map fun t => ledger.offset t.id⟩, notes)
          ⟨ledger, cursor, reservations, none, written, stats⟩

/-- A plan node by node is a plan, and notes the pieces of the function. -/
theorem planTree_eq (f : Function ι) : planTree f = (do let size ← plan f; return (size, f.pieces)) := by
  have htraversal : (do let body ← planScope f.scope; let args ← planArgs f.args; return body ++ args)
      = (do planVisits f.visits; return f.pieces) :=
    ((carries_planScope f.scope).append (carries_planArgs f.args)).eq rfl
  -- What both do once the traversal is over.
  let finish (made : List (Piece ι)) : CompactM ι (Nat × List (Piece ι)) := do
    let cx ← get
    match firstLoopDefect? cx.ledger f.scope.allStmts with
    | some defect => throw (.malformedTree defect)
    | none =>
      set { cx with
        stats := { cx.stats with reservations := cx.reservations.size, ledgerEntries := cx.ledger.size } }
      return (cx.cursor, made)
  calc
    planTree f = (do
        set (Context.empty : Context ι)
        let made ← (do let body ← planScope f.scope; let args ← planArgs f.args; return body ++ args)
        finish made) := by simp only [planTree, bind_assoc, pure_bind, finish]
    _ = (do set (Context.empty : Context ι); planVisits f.visits; finish f.pieces) := by
      simp only [htraversal, bind_assoc, pure_bind]
    _ = (do let size ← plan f; return (size, f.pieces)) := by
      simp only [plan, finish, bind_assoc]
      refine bind_congr fun _ => bind_congr fun _ => bind_congr fun cx => ?_
      cases firstLoopDefect? cx.ledger f.scope.allStmts with
      | some defect => rfl
      | none => rfl

/-- A write node by node is a write, and notes the pieces of the function as the ledger has them. -/
theorem writeTree_eq (f : Function ι) (cx : Context ι) :
    writeTree f cx = (do let p ← write f; return (p, f.pieces.map (Piece.emission cx.ledger))) cx := by
  cases cx with
  | mk ledger cursor reservations block written stats =>
    cases block with
    | none => rfl
    | some block =>
      -- The traversal writes what the walk writes, and notes the pieces.
      have htraversal : (do
            let body ← Progress.writeScope ledger f.scope
            let args ← Progress.writeArgs ledger f.args
            return body ++ args)
          = (do Progress.writeVisits ledger f.visits; return f.pieces.map (Piece.emission ledger)) := by
        rw [Function.pieces, List.map_append]
        exact ((Progress.carries_writeScope ledger f.scope).append
          (Progress.carries_writeArgs ledger f.args)).eq rfl
      simp only [writeTree, htraversal]
      cases hvisits : Progress.writeVisits ledger f.visits ⟨written, stats, block⟩ with
      | error e stop => rw [bind_of_error hvisits, bind_of_error (write_of_error rfl hvisits)]
      | ok u stop =>
        rw [bind_of_ok hvisits]
        have hwrite : write f ⟨ledger, cursor, reservations, some block, written, stats⟩ = _ :=
          write_of_ok rfl hvisits
        by_cases hall : reservations.size = stop.written.size
        · rw [bind_of_ok (hwrite.trans (if_pos hall))]
          simp only [hall, ne_eq, not_true_eq_false, ↓reduceIte, pure, EStateM.pure]
        · rw [bind_of_error (hwrite.trans (if_neg hall))]
          simp only [hall, ne_eq, not_false_eq_true, ↓reduceIte, pure, EStateM.pure]

end Context

/-- What was written fills a reservation that was made for a piece: it is that piece, at the offset of the
reservation, and its bytes take the length of the reservation with their padding. -/
structure Emission.Fills (ledger : Ledger ι) (e : Emission ι) (r : Reservation) (p : Piece ι) : Prop where
  piece : e.piece = p
  kind : r.kind = p.first.val.kind
  count : r.count = p.cells.length
  /-- The ledger has the cells of the piece side by side from the offset of the reservation on. -/
  row : ledger.HasRow r.offset.toNat p.cells
  offset : e.offset = r.offset
  len : alignUp e.bytes.length = r.len
  bytes : e.bytes = rowBytes ledger p.cells

/-- The reservations that pieces have from a position on are filled when the pieces are written. -/
theorem fills_of_planned {ledger : Ledger ι} {pos : Nat} {ps : List (Piece ι)} (h : ledger.HasPieces pos ps)
    (hend : pos + piecesSize ps < range64) {k : Nat} {r : Reservation}
    (hr : (reservationsFrom pos ps)[k]? = some r) :
    ∃ p, ps[k]? = some p ∧ (p.emission ledger).Fills ledger r p := by
  induction ps generalizing pos k with
  | nil => cases hr
  | cons p ps ih =>
    rw [piecesSize] at hend
    -- The first reservation is that of the first piece, which stands at the position itself.
    cases k with
    | zero =>
      cases hr
      have hstart : (Offset.ofNat pos).toNat = pos := Offset.toNat_ofNat (by omega)
      refine ⟨p, rfl, ?_⟩
      constructor
      case piece => rfl
      case kind => rfl
      case count => rfl
      case row =>
        change ledger.HasRow (Offset.ofNat pos).toNat p.cells
        rw [hstart]
        exact h.1
      case offset => exact Ledger.offset_of_resolve h.1.1
      case len =>
        change alignUp (rowBytes ledger p.cells).length = alignUp p.size
        rw [length_rowBytes, Piece.size_eq]
      case bytes => rfl
    | succ k => exact ih h.2 (by omega) hr

/-- Pieces that were set aside and pieces that were written, in step: as many of each as there are reservations,
and in each place the same piece. -/
structure InStep (ledger : Ledger ι) (reservations : Array Reservation) (made : List (Piece ι))
    (written : List (Emission ι)) : Prop where
  made_length : made.length = reservations.size
  written_length : written.length = reservations.size
  fills : ∀ (k : Nat) (r : Reservation), reservations[k]? = some r →
    ∃ e q, written[k]? = some e ∧ made[k]? = some q ∧ e.Fills ledger r q

/-- When a planned function is written into a block, it is written in as many pieces as there are reservations,
and each of them fills the reservation that was made for it. -/
theorem Context.write_in_step {f : Function ι} {size : Nat} {cx planned allocated : Context ι}
    {allocator : Allocator ι} (hplan : Context.plan f cx = .ok size planned)
    (halloc : Context.allocate allocator planned = .ok () allocated) :
    ∃ made p written cx', planTree f cx = .ok (size, made) planned
      ∧ write f allocated = .ok p cx' ∧ writeTree f allocated = .ok (p, written) cx'
      ∧ InStep planned.ledger planned.reservations made written ∧ cx'.stats.writes = written.length := by
  have hplanned := Context.plan_run hplan
  have hcount := hplanned.size_reservations
  obtain ⟨block, -, hsize, rfl⟩ := Context.allocate_eq_ok_iff.mp halloc
  obtain ⟨hallocated, block', -, hblock, hsize'⟩ := Context.allocate_run hplanned halloc
  obtain ⟨p, cx', hwrite, -, -, hstats⟩ := Context.write_run hallocated hblock hsize'
  have hmade : planTree f cx = .ok (size, f.pieces) planned := by
    rw [planTree_eq]
    exact bind_of_ok hplan _
  have hwritten := (writeTree_eq f _).trans (bind_of_ok hwrite _)
  -- A block has fewer bytes than there are offsets.
  have hend : 0 + piecesSize f.pieces < range64 := by
    have hlimit := block.size_lt_range
    rw [hsize, hplanned.cursor, hplanned.size_eq] at hlimit
    omega
  refine ⟨f.pieces, p, f.pieces.map (Piece.emission planned.ledger), cx', hmade, hwrite, hwritten, ?_, ?_⟩
  · constructor
    case made_length => exact hcount.symm
    case written_length => rw [List.length_map, hcount]
    case fills =>
      intro k r hr
      rw [← Array.getElem?_toList, hplanned.reservations] at hr
      obtain ⟨q, hq, hfills⟩ := fills_of_planned hplanned.pieces hend hr
      refine ⟨q.emission planned.ledger, q, ?_, hq, hfills⟩
      rw [List.getElem?_map, hq]
      rfl
  · rw [hstats, f.foldl_count, List.length_map, (Context.stats_of_plan hplan).2]
    exact Nat.zero_add _

/-- A break in a loop, planned and written in lock step. -/
theorem write_in_step_breakInLoop :
    ∃ size planned allocated, Context.plan breakInLoop Context.empty = .ok size planned
      ∧ Context.allocate Allocator.heap planned = .ok () allocated
      ∧ ∃ made p written cx', Context.planTree breakInLoop Context.empty = .ok (size, made) planned
        ∧ Context.write breakInLoop allocated = .ok p cx'
        ∧ Context.writeTree breakInLoop allocated = .ok (p, written) cx'
        ∧ InStep planned.ledger planned.reservations made written ∧ cx'.stats.writes = written.length := by
  obtain ⟨size, planned, allocated, hplan, halloc⟩ :=
    Context.exists_allocated (by decide) breakInLoop_wellFormed (by decide) Context.empty
  exact ⟨size, planned, allocated, hplan, halloc, Context.write_in_step hplan halloc⟩

end TreePack
