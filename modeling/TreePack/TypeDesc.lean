namespace TreePack

inductive BaseType where
  | void
  | u8
  | i8
  | u16
  | i16
  | u32
  | i32
  | u64
  | i64
  | f32
  | f64
  | struct
  deriving DecidableEq, Inhabited, Repr

namespace BaseType

def all : List BaseType :=
  [void, u8, i8, u16, i16, u32, i32, u64, i64, f32, f64, struct]

def toRaw : BaseType → UInt8
  | void => 0
  | u8 => 1
  | i8 => 2
  | u16 => 3
  | i16 => 4
  | u32 => 5
  | i32 => 6
  | u64 => 7
  | i64 => 8
  | f32 => 9
  | f64 => 10
  | struct => 11

def ofRaw? (raw : UInt8) : Option BaseType := all[raw.toNat]?

@[simp] theorem ofRaw?_toRaw (b : BaseType) : ofRaw? b.toRaw = some b := by
  cases b <;> rfl

def name : BaseType → String
  | void => "void"
  | u8 => "u8"
  | i8 => "i8"
  | u16 => "u16"
  | i16 => "i16"
  | u32 => "u32"
  | i32 => "i32"
  | u64 => "u64"
  | i64 => "i64"
  | f32 => "f32"
  | f64 => "f64"
  | struct => "struct"

end BaseType

structure TypeDesc where
  base : BaseType
  /-- How many pointers stand in front of the base. -/
  pointers : UInt8
  /-- The index of the user structure; it has a meaning only for the base `struct`. -/
  structId : UInt32
  /-- The fixed array length, or zero. -/
  arrayLen : UInt64
  deriving DecidableEq, Repr

namespace TypeDesc

def scalar (base : BaseType) : TypeDesc := ⟨base, 0, 0, 0⟩

def void : TypeDesc := scalar .void

instance : Inhabited TypeDesc := ⟨void⟩

/-- The type of pointers to `t`. There are never more than 255 of them. -/
def pointerTo (t : TypeDesc) : TypeDesc :=
  { t with pointers := if t.pointers = 255 then 255 else t.pointers + 1 }

def arrayOf (t : TypeDesc) (len : UInt64) : TypeDesc :=
  { t with arrayLen := len }

def render (t : TypeDesc) : String :=
  String.ofList (List.replicate t.pointers.toNat '*')
    ++ (if t.base = .struct then "struct#" ++ t.structId.toNat.repr else t.base.name)
    ++ (if t.arrayLen = 0 then "" else "[" ++ t.arrayLen.toNat.repr ++ "]")

end TypeDesc

end TreePack
