namespace TreePack.Utf8

structure Partial where
  /-- How many bytes are missing. -/
  missing : Nat
  /-- The smallest and the largest value that the next byte may have. -/
  low : UInt8
  high : UInt8
  /-- The bits read so far. -/
  bits : Nat

inductive Lead where
  | whole (c : Char)
  | begins (p : Partial)
  | stray

def replacement : Char := '\uFFFD'

/--
Classifies a byte at the start of a character. The range of the second byte leaves out overlong forms,
surrogates and values above the last code point.
-/
def lead (b : UInt8) : Lead :=
  if b < 0x80 then .whole (Char.ofNat b.toNat)
  else if b < 0xC2 then .stray
  else if b < 0xE0 then .begins ⟨1, 0x80, 0xBF, b.toNat - 0xC0⟩
  else if b = 0xE0 then .begins ⟨2, 0xA0, 0xBF, 0⟩
  else if b = 0xED then .begins ⟨2, 0x80, 0x9F, 0xD⟩
  else if b < 0xF0 then .begins ⟨2, 0x80, 0xBF, b.toNat - 0xE0⟩
  else if b = 0xF0 then .begins ⟨3, 0x90, 0xBF, 0⟩
  else if b < 0xF4 then .begins ⟨3, 0x80, 0xBF, b.toNat - 0xF0⟩
  else if b = 0xF4 then .begins ⟨3, 0x80, 0x8F, 4⟩
  else .stray

def Partial.push (p : Partial) (b : UInt8) : Option Lead :=
  if p.low ≤ b ∧ b ≤ p.high then
    let bits := p.bits * 64 + (b.toNat - 0x80)
    if p.missing ≤ 1 then some (.whole (Char.ofNat bits))
    else some (.begins ⟨p.missing - 1, 0x80, 0xBF, bits⟩)
  else none

def Lead.step : Lead → List Char × Option Partial
  | .whole c => ([c], none)
  | .begins p => ([], some p)
  | .stray => ([replacement], none)

def decodeFrom : Option Partial → List UInt8 → List Char
  | none, [] => []
  | some _, [] => [replacement]
  | pending, b :: bs =>
    let step : List Char × Option Partial :=
      match pending with
      | none => (lead b).step
      | some p =>
        match p.push b with
        | some l => l.step
        | none => (replacement :: (lead b).step.1, (lead b).step.2)
    step.1 ++ decodeFrom step.2 bs

def decode? (bytes : List UInt8) : Option String :=
  String.fromUTF8? bytes.toByteArray

/-- The text of any bytes, with a replacement character for each ill-formed run. -/
def decodeLossy (bytes : List UInt8) : String :=
  (decode? bytes).getD (String.ofList (decodeFrom none bytes))

end TreePack.Utf8
