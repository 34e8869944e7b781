import TreePack.Compact.Options
import TreePack.Compact.Write
import TreePack.Packed.Dump
import TreePack.Verify.Basic

namespace TreePack

inductive Body (ι : Type) where
  | tree (f : Function ι)
  | packed (p : Packed)
  /-- What is left when a compaction fails halfway. -/
  | poisoned

structure Decl (ι : Type) where
  name : Text
  /-- The type of a variable, or what a function returns. -/
  ty : TypeDesc
  body : Option (Body ι)

inductive Outcome where
  | notAFunction
  | alreadyCompacted
  | compacted (stats : Stats)
  deriving DecidableEq

namespace Body

variable {ι : Type}

def argCount : Body ι → Nat
  | tree f => f.args.length
  | packed p => p.args.length
  | poisoned => 0

end Body

namespace Decl

variable {ι : Type}

def isFunction (d : Decl ι) : Bool := d.body.isSome

def argCount (d : Decl ι) : Nat := (d.body.map Body.argCount).getD 0

def signature (d : Decl ι) (args : List TypeDesc) : String :=
  "fn " ++ d.name.display ++ "(" ++ ", ".intercalate (args.map TypeDesc.render) ++ ") -> " ++ d.ty.render
    ++ "\n"

def check (options : Options) (p : Packed) : Except (CompactError ι) Unit :=
  if options.verify then
    match p.verify with
    | .ok _ => .ok ()
    | .error stop => .error (.verification stop.message)
  else .ok ()

variable [DecidableEq ι] [Hashable ι]

def dump (d : Decl ι) : Except Fault String :=
  match d.body with
  | none => .ok ("let " ++ d.name.display ++ ": " ++ d.ty.render ++ "\n")
  | some (.tree f) => .ok (d.signature (f.args.map (·.val)) ++ f.scope.dump 1)
  | some (.packed p) => do
    let args ← p.argTypes
    let scope ← p.root.dump 1
    return d.signature args ++ scope
  | some .poisoned => .ok ("fn " ++ d.name.display ++ " <poisoned>\n")

def prepare (options : Options) (allocator : Allocator ι) (f : Function ι) : CompactM ι Unit := do
  let size ← Context.plan f
  if options.maxBlockBytes < size then
    throw (.blockTooLarge size options.maxBlockBytes)
  Context.allocate allocator

/-- Packs a scattered body, and gives the body that is left. If planning or allocation fails the tree stays; if
writing or the check of the result fails, it is lost. -/
def compactTree (options : Options) (allocator : Allocator ι) (f : Function ι) :
    Except (CompactError ι) Outcome × Body ι :=
  match prepare options allocator f Context.empty with
  | .error e _ => (.error e, .tree f)
  | .ok _ cx =>
    match Context.write f cx with
    | .error e _ => (.error e, .poisoned)
    | .ok p cx =>
      match check options p with
      | .error e => (.error e, .poisoned)
      | .ok _ => (.ok (.compacted cx.stats), .packed p)

def compact (options : Options) (allocator : Allocator ι) (d : Decl ι) :
    Except (CompactError ι) Outcome × Decl ι :=
  match d.body with
  | none => (.ok .notAFunction, d)
  | some (.packed _) => (.ok .alreadyCompacted, d)
  | some .poisoned => (.error .poisoned, d)
  | some (.tree f) =>
    let (result, body) := compactTree options allocator f
    (result, { d with body := some body })

def compactAll (options : Options) (allocator : Allocator ι) (ds : List (Decl ι)) :
    List (Except (CompactError ι) Outcome × Decl ι) :=
  ds.map (compact options allocator)

end Decl

end TreePack
