import TreePack.Text.Blank
import TreePack.Text.Decimal

namespace TreePack

structure Options where
  verify : Bool
  maxBlockBytes : Nat
  deriving DecidableEq, Repr

namespace Options

def standard : Options := ⟨true, range64 - 1⟩

instance : Inhabited Options := ⟨standard⟩

/-- Whether the text of a variable switches something on: it is neither blank nor the digit zero. -/
def isOn (text : String) : Bool :=
  let cs := Text.trimBlanks text.toList
  !cs.isEmpty && cs != ['0']

def limit? (text : String) : Option Nat := Text.readWord? (Text.trimBlanks text.toList)

/-- The standard settings, changed by the variables that are set. A limit that is no numeral is ignored. -/
def ofVars (verify maxBlock : Option String) : Options :=
  { verify := (verify.map isOn).getD standard.verify
    maxBlockBytes := (maxBlock.bind limit?).getD standard.maxBlockBytes }

def withVerify (o : Options) (verify : Bool) : Options := { o with verify }

def withMaxBlockBytes (o : Options) (limit : Nat) : Options := { o with maxBlockBytes := limit }

end Options

end TreePack
