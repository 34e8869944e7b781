import TreePack.Dump.Basic
import TreePack.Packed.Read

namespace TreePack

namespace Places

variable {β : Type}

def foldFrom (p : Places) (step : β → Offset → Except Fault β) : Nat → Nat → β → Except Fault β
  | 0, _, b => .ok b
  | count + 1, i, b => do
    let o ← p.get i
    let b ← step b o
    foldFrom p step count (i + 1) b

def fold (p : Places) (step : β → Offset → Except Fault β) (b : β) : Except Fault β :=
  p.foldFrom step p.count 0 b

end Places

def StmtView.number (nested : StmtNumbers Offset → ScopeView → Except Fault (StmtNumbers Offset))
    (numbers : StmtNumbers Offset) (v : StmtView) : Except Fault (StmtNumbers Offset) := do
  let numbers := numbers.insert v.offset numbers.size
  match ← v.scope with
  | none => return numbers
  | some inner => nested numbers inner

def ScopeView.number : Nat → StmtNumbers Offset → ScopeView → Except Fault (StmtNumbers Offset)
  | 0, _, _ => .error .endless
  | levels + 1, numbers, v => do
    let stmts ← v.stmts
    stmts.fold (fun numbers o => StmtView.number (ScopeView.number levels) numbers ⟨v.block, o⟩) numbers

def DeclView.dumpLine (depth : Nat) (v : DeclView) : Except Fault DumpLine :=
  return ⟨depth, .localDecl (← v.name) (← v.ty)⟩

/-- The line of a statement. It is keyed by its offset, and so is the target of its loop reference. -/
def StmtView.dumpLine (numbers : StmtNumbers Offset) (depth : Nat) (v : StmtView) : Except Fault DumpLine := do
  let kind ← v.kind
  let loc ← v.loc
  let label ← v.label
  let switch ← v.switch
  let loop ← v.loop
  return ⟨depth, .stmt numbers[v.offset]? kind loc (loop.map fun target => numbers[target.offset]?) label switch⟩

def ExprView.dumpLine (depth : Nat) (slot : Option Nat) (v : ExprView) : Except Fault DumpLine :=
  return ⟨depth, .expr slot (← v.kind) (← v.value) (← v.ty) (← v.symbol) (← v.method)⟩

def ExprView.dumpLines : Nat → Nat → Option Nat → ExprView → Except Fault (List DumpLine)
  | 0, _, _, _ => .error .endless
  | levels + 1, depth, slot, v => do
    let line ← v.dumpLine depth slot
    let children ← v.children
    let below ← children.mapM fun (slot, child) => ExprView.dumpLines levels (depth + 1) (some slot) child
    return line :: below.flatten

def StmtView.dumpLines (numbers : StmtNumbers Offset) (levels : Nat)
    (scopeLines : Nat → ScopeView → Except Fault (List DumpLine)) (depth : Nat) (v : StmtView) :
    Except Fault (List DumpLine) := do
  let line ← v.dumpLine numbers depth
  let nested ← match ← v.scope with
    | none => pure []
    | some inner => scopeLines (depth + 1) inner
  let exprs ← v.exprs
  let values ← exprs.mapM (ExprView.dumpLines levels (depth + 1) none)
  return line :: (nested ++ values.flatten)

def ScopeView.dumpLines (numbers : StmtNumbers Offset) : Nat → Nat → ScopeView → Except Fault (List DumpLine)
  | 0, _, _ => .error .endless
  | levels + 1, depth, v => do
    let locals ← v.locals
    let declared ← locals.collect fun o => DeclView.dumpLine depth ⟨v.block, o⟩
    let stmts ← v.stmts
    let below ← stmts.collect fun o =>
      StmtView.dumpLines numbers levels (ScopeView.dumpLines numbers levels) depth ⟨v.block, o⟩
    return declared ++ below.flatten

/-- The text of a packed scope, indented by `depth` levels. The views are walked twice, once to number the
statements and once to print; records that lead back to themselves would be printed forever. -/
def ScopeView.dump (v : ScopeView) (depth : Nat) : Except Fault String := do
  let numbers ← ScopeView.number v.block.readDepth ∅ v
  let lines ← ScopeView.dumpLines numbers v.block.readDepth depth v
  return String.join (lines.map DumpLine.render)

end TreePack
