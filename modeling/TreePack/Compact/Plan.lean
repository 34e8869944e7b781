import TreePack.Compact.Context

namespace TreePack

variable {ι : Type}

def Cell.kind {π : Type} : Cell π → NodeKind
  | scope _ => .scope
  | decl _ => .decl
  | stmt _ => .stmt
  | expr _ => .expr
  | text _ => .text
  | switchLabel _ => .switchLabel
  | type _ => .argType

def Reservation.ofPiece (position : Nat) (p : Piece ι) : Reservation :=
  ⟨.ofNat position, alignUp p.size, p.first.val.kind, p.cells.length⟩

variable [DecidableEq ι] [Hashable ι]

def Ledger.registerCells (position : Nat) :
    List (Leaf ι (Cell ι)) → EStateM (CompactError ι) (Ledger ι) Unit
  | [] => pure ()
  | c :: cs => do
    register c.id (.ofNat position) c.val.kind
    registerCells (position + c.val.size) cs

namespace Context

def reserved (cx : Context ι) (p : Piece ι) : Context ι :=
  { cx with
    cursor := cx.cursor + alignUp p.size
    reservations := cx.reservations.push (.ofPiece cx.cursor p) }

def reserve (p : Piece ι) : CompactM ι Unit := modify fun cx => cx.reserved p

def enter (position : Nat) (p : Piece ι) : CompactM ι Unit
  | ⟨ledger, cursor, reservations, block, written, stats⟩ =>
    match Ledger.registerCells position p.cells ledger with
    | .ok _ ledger => .ok () ⟨ledger, cursor, reservations, block, written, stats⟩
    | .error e ledger => .error e ⟨ledger, cursor, reservations, block, written, stats⟩

/-- Plans a single node. Its bytes are set aside before it is entered, so they stay set aside if it is refused. -/
def planNode (p : Piece ι) : CompactM ι Unit := do
  let position := (← get).cursor
  reserve p
  enter position p

/-- Plans an array. Its elements are entered before the cursor moves, so one that is refused takes no bytes. -/
def planRow (p : Piece ι) : CompactM ι Unit := do
  let position := (← get).cursor
  enter position p
  reserve p

def planPiece (p : Piece ι) : CompactM ι Unit :=
  if p.first.val.kind.inArray then planRow p else planNode p

def planVisit : Visit ι → CompactM ι Unit
  | .enterLocal l =>
    if l.isFunction then throw (.malformedTree (.functionLocal l.name.val.display)) else pure ()
  | .enterStmt s =>
    if maxExprs < s.exprs.length then
      throw (.malformedTree (.tooManyExpressions s.exprs.length maxExprs))
    else pure ()
  | .place p => planPiece p
  | .leave => pure ()

end Context

def loopTargets (stmts : List (Stmt ι)) : Std.HashSet ι :=
  .ofList ((stmts.filter fun s => s.head.kind.isLoopTarget).map Stmt.id)

def loopDefect? (ledger : Ledger ι) (loops : Std.HashSet ι) (target : ι) : Option (Malformed ι) :=
  match ledger.entry? target with
  | none => some (.danglingLoopRef target)
  | some entry =>
    if entry.kind ≠ .stmt then some (.loopRefNotStatement target)
    else if loops.contains target then none
    else some (.loopRefNotLoop target)

def firstLoopDefect? (ledger : Ledger ι) (stmts : List (Stmt ι)) : Option (Malformed ι) :=
  (stmts.filterMap fun s => s.head.loop).findSome? (loopDefect? ledger (loopTargets stmts))

namespace Context

def planVisits : List (Visit ι) → CompactM ι Unit
  | [] => pure ()
  | v :: vs => do
    planVisit v
    planVisits vs

def plan (f : Function ι) : CompactM ι Nat := do
  set (Context.empty : Context ι)
  planVisits f.visits
  let cx ← get
  match firstLoopDefect? cx.ledger f.scope.allStmts with
  | some defect => throw (.malformedTree defect)
  | none =>
    set { cx with
      stats := { cx.stats with reservations := cx.reservations.size, ledgerEntries := cx.ledger.size } }
    return cx.cursor

end Context

end TreePack
