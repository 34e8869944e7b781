import TreePack.Block.Basic

namespace TreePack

inductive Malformed (ι : Type) where
  | functionLocal (name : String)
  | tooManyExpressions (count max : Nat)
  /-- The target is no node of the function. -/
  | danglingLoopRef (node : ι)
  | loopRefNotStatement (node : ι)
  /-- The target is a statement that no loop reference may name. -/
  | loopRefNotLoop (node : ι)
  deriving DecidableEq

inductive CompactError (ι : Type) where
  | outOfMemory (size : Nat)
  /-- The allocator gave a block of another size. -/
  | shortBlock (requested got : Nat)
  | blockTooLarge (size limit : Nat)
  | malformedTree (cause : Malformed ι)
  /-- A node was planned at two places. -/
  | conflictingRegistration (node : ι) (first second : Offset)
  /-- A node was written that was never planned. -/
  | ledgerMiss (node : ι)
  /-- An array element was planned away from its place in the array. -/
  | layoutMismatch (node : ι) (expected found : Offset)
  | outOfBounds (cause : OutOfBlock)
  | doubleWrite (offset : Offset)
  | incompleteWrite (planned written : Nat)
  | unallocated
  | poisoned
  /-- The packed block does not pass its check, for the reason given. -/
  | verification (reason : String)
  deriving DecidableEq

variable {ι : Type}

def nodeText (name : ι → String) (node : ι) : String := "NodeAddr(" ++ name node ++ ")"

def Malformed.message (name : ι → String) : Malformed ι → String
  | functionLocal text => "local `" ++ text ++ "` declares a function body"
  | tooManyExpressions count max =>
    "statement holds " ++ count.repr ++ " expressions, at most " ++ max.repr ++ " fit"
  | danglingLoopRef node => "loop reference " ++ nodeText name node ++ " points outside the function"
  | loopRefNotStatement node =>
    "loop reference " ++ nodeText name node ++ " does not point at a statement"
  | loopRefNotLoop node =>
    "loop reference " ++ nodeText name node ++ " points at a statement that is not a loop"

def CompactError.message (name : ι → String) : CompactError ι → String
  | outOfMemory size => "could not allocate a block of " ++ size.repr ++ " bytes"
  | shortBlock requested got =>
    "requested a block of " ++ requested.repr ++ " bytes, allocator returned " ++ got.repr
  | blockTooLarge size limit =>
    "planned block of " ++ size.repr ++ " bytes exceeds the limit of " ++ limit.repr ++ " bytes"
  | malformedTree cause => "malformed tree: " ++ cause.message name
  | conflictingRegistration node first second =>
    nodeText name node ++ " planned at " ++ first.render ++ " and again at " ++ second.render
  | ledgerMiss node => "no planned offset for " ++ nodeText name node
  | layoutMismatch node expected found =>
    nodeText name node ++ " resolved to " ++ found.render ++ ", expected " ++ expected.render
  | outOfBounds cause => cause.message
  | doubleWrite offset => "offset " ++ offset.render ++ " written twice"
  | incompleteWrite planned written =>
    "planned " ++ planned.repr ++ " reservations but wrote " ++ written.repr
  | unallocated => "write started before a block was allocated"
  | poisoned => "function body was poisoned by an earlier failed compaction"
  | verification reason => "packed block failed verification: " ++ reason

end TreePack
