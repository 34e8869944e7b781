import TreePack.Block.Offset
import TreePack.Bytes

namespace TreePack

inductive Region where
  | scope
  | locals
  | localDecl
  | localName
  | statements
  | statement
  | label
  | switchLabels
  | expression
  | symbolName
  | methodName
  | argType
  deriving DecidableEq, Repr

def Region.name : Region → String
  | scope => "scope"
  | locals => "locals"
  | localDecl => "local"
  | localName => "local name"
  | statements => "statements"
  | statement => "statement"
  | label => "label"
  | switchLabels => "switch labels"
  | expression => "expression"
  | symbolName => "symbol name"
  | methodName => "method name"
  | argType => "argument type"

inductive Defect where
  | misaligned (what : Region) (offset : Offset)
  /-- The length is known except for a text that begins outside. -/
  | leavesBlock (what : Region) (offset : Offset) (len : Option Nat)
  | reachedTwice (what : Region) (offset : Offset)
  | unterminated (what : Region) (offset : Offset)
  | absurdLength (what : Region) (offset : Offset) (count : Nat)
  /-- An array has a pointer but no elements, or elements but no pointer. -/
  | pointerDisagrees (what : Region) (base : Option Offset) (count : Nat)
  | functionData (offset : Offset)
  | unnamed (offset : Offset)
  | unknownKind (what : Region) (offset : Offset) (raw : UInt8)
  | tooManyExprs (offset : Offset) (count : Nat)
  /-- A slot below the count is empty, or one from the count on is not. -/
  | slotDisagrees (offset : Offset) (slot count : Nat)
  | refersToNoStatement (source target : Offset)
  | refersToNoLoop (source target : Offset)
  | overlap (what : Region) (start stop : Nat)
  | unreached (start stop : Nat)
  /-- What is reached ends before the block or behind it. -/
  | endsElsewhere (stop size : Nat)
  deriving DecidableEq, Repr

namespace Defect

def place (what : Region) (o : Offset) : String := what.name ++ " at " ++ o.render

def position (n : Nat) : String := "@" ++ n.repr

def message : Defect → String
  | misaligned what o => place what o ++ " is not " ++ alignment.repr ++ "-byte aligned"
  | leavesBlock what o (some len) => place what o ++ " (" ++ len.repr ++ " bytes) leaves the block"
  | leavesBlock what o none => place what o ++ " leaves the block"
  | reachedTwice what o => place what o ++ " is reached twice"
  | unterminated what o => place what o ++ " is not NUL-terminated"
  | absurdLength what o count => place what o ++ " has absurd length " ++ count.repr
  | pointerDisagrees what base count =>
    what.name ++ " pointer " ++ Offset.renderPtr base ++ " disagrees with count " ++ count.repr
  | functionData o => place .localDecl o ++ " carries function data"
  | unnamed o => place .localDecl o ++ " has no name"
  | unknownKind what o raw => place what o ++ " has unknown kind " ++ raw.toNat.repr
  | tooManyExprs o count => place .statement o ++ " claims " ++ count.repr ++ " expressions"
  | slotDisagrees o slot count =>
    place .statement o ++ " expression slot " ++ slot.repr ++ " disagrees with count " ++ count.repr
  | refersToNoStatement source target =>
    place .statement source ++ " refers to " ++ target.render ++ ", which is not a statement"
  | refersToNoLoop source target =>
    place .statement source ++ " refers to " ++ target.render ++ ", which is not a loop"
  | overlap what start stop =>
    what.name ++ " at " ++ position start ++ " overlaps the previous record ending at " ++ position stop
  | unreached start stop => "unreached bytes " ++ position start ++ ".." ++ position stop
  | endsElsewhere stop size =>
    "reachable records end at " ++ position stop ++ ", block is " ++ size.repr ++ " bytes"

end Defect

inductive CheckStop where
  | defect (d : Defect)
  | fault (f : Fault)
  deriving DecidableEq, Repr

def CheckStop.message : CheckStop → String
  | defect d => d.message
  | fault (.outside offset len _) =>
    Defect.position offset ++ " (" ++ len.repr ++ " bytes) leaves the block"
  | fault .overflow => "an offset passes the last word"
  | fault .endless => "records lead back to themselves"

end TreePack
