namespace TreePack

def leBytes : Nat → Nat → List UInt8
  | 0, _ => []
  | width + 1, n => n.toUInt8 :: leBytes width (n / 256)

def leNat : List UInt8 → Nat
  | [] => 0
  | b :: bs => b.toNat + 256 * leNat bs

def byteRange : Nat → Nat
  | 0 => 1
  | width + 1 => 256 * byteRange width

def range32 : Nat := 0x100000000

def range64 : Nat := 0x10000000000000000

def addWord? (a b : Nat) : Option Nat := if a + b < range64 then some (a + b) else none

@[simp] theorem length_leBytes (width n : Nat) : (leBytes width n).length = width := by
  induction width generalizing n with
  | zero => rfl
  | succ width ih => simp [leBytes, ih]

/-- Little-endian bytes read back as the number, modulo their width. -/
theorem leNat_leBytes (width n : Nat) : leNat (leBytes width n) = n % byteRange width := by
  induction width generalizing n with
  | zero => simp [leBytes, leNat, byteRange, Nat.mod_one]
  | succ width ih =>
    have hlow : n.toUInt8.toNat = n % 256 := by simp [Nat.toUInt8]
    rw [leBytes, leNat, ih, hlow, byteRange, Nat.mod_mul]

theorem leNat_lt (bs : List UInt8) : leNat bs < byteRange bs.length := by
  induction bs with
  | nil => simp [leNat, byteRange]
  | cons b bs ih =>
    have hb : b.toNat < 256 := b.toNat_lt
    rw [leNat, List.length_cons, byteRange]
    omega

/-- A number written out again is the bytes it was read from. -/
theorem leBytes_leNat (bs : List UInt8) : leBytes bs.length (leNat bs) = bs := by
  induction bs with
  | nil => rfl
  | cons b bs ih =>
    have hb : b.toNat < 256 := b.toNat_lt
    have hdiv : (b.toNat + 256 * leNat bs) / 256 = leNat bs := by omega
    have hmod : (b.toNat + 256 * leNat bs).toUInt8 = b := by
      apply UInt8.toNat_inj.mp
      simp [Nat.toUInt8]
    rw [leNat, List.length_cons, leBytes, hdiv, hmod, ih]

def alignment : Nat := 8

def alignUp (n : Nat) : Nat := (n + 7) / 8 * 8

theorem le_alignUp (n : Nat) : n ≤ alignUp n := by
  unfold alignUp
  omega

/-- Rounded up, a size is a multiple of the alignment. -/
theorem alignUp_mod (n : Nat) : alignUp n % alignment = 0 := by
  unfold alignUp alignment
  omega

theorem alignUp_lt (n : Nat) : alignUp n < n + alignment := by
  unfold alignUp alignment
  omega

theorem alignUp_of_mod_eq_zero {n : Nat} (h : n % alignment = 0) : alignUp n = n := by
  unfold alignUp
  unfold alignment at h
  omega

end TreePack
