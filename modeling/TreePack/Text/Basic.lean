import TreePack.Text.Utf8

namespace TreePack

structure Text where
  bytes : List UInt8
  zero_notMem : 0 ∉ bytes
  deriving DecidableEq

namespace Text

def empty : Text := ⟨[], List.not_mem_nil⟩

instance : Inhabited Text := ⟨empty⟩

def ofBytes? (bytes : List UInt8) : Option Text :=
  if h : 0 ∈ bytes then none else some ⟨bytes, h⟩

def display (t : Text) : String := Utf8.decodeLossy t.bytes

def stored (t : Text) : List UInt8 := t.bytes ++ [0]

@[simp] theorem length_stored (t : Text) : t.stored.length = t.bytes.length + 1 := by
  simp [stored]

def takeText (bytes : List UInt8) : Text :=
  ⟨bytes.takeWhile (· != 0), fun h => by
    have hall := List.all_takeWhile (p := fun b : UInt8 => b != 0) (l := bytes)
    simpa using List.all_eq_true.mp hall 0 h⟩

end Text

end TreePack
