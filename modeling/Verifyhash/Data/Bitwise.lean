import Verifyhash.Data.Bytes

-- The operators of the language which convert integers to words of 32 bits.
namespace Bitwise

-- The word to which an operand is converted.
def bits (x : ℤ) : BitVec 32 :=
  .ofInt 32 x

-- `x << n`
def shl (x : ℤ) (n : ℕ) : ℤ :=
  (bits x <<< n).toInt

-- `x >>> n`
def ushr (x : ℤ) (n : ℕ) : ℤ :=
  (bits x >>> n).toNat

-- `x >> n`
def sshr (x : ℤ) (n : ℕ) : ℤ :=
  ((bits x).sshiftRight n).toInt

-- `x | y`
def or (x y : ℤ) : ℤ :=
  (bits x ||| bits y).toInt

-- `x & y`
def and (x y : ℤ) : ℤ :=
  (bits x &&& bits y).toInt

-- `x ^ y`
def xor (x y : ℤ) : ℤ :=
  (bits x ^^^ bits y).toInt

-- `~x`
def not (x : ℤ) : ℤ :=
  (~~~bits x).toInt

-- What is stored if an integer is assigned to an element of a `Uint8Array`.
def toByte (x : ℤ) : UInt8 :=
  ⟨.ofInt 8 x⟩

section

variable (x y : ℤ) (n : ℕ)

@[simp]
theorem bits_toNat (w : BitVec 32) : bits w.toNat = w := by
  simp [bits]

@[simp]
theorem bits_toInt (w : BitVec 32) : bits w.toInt = w := by
  simp [bits]

@[simp]
theorem bits_natCast : bits (n : ℤ) = BitVec.ofNat 32 n := by
  simp [bits]

@[simp]
theorem bits_shl : bits (shl x n) = bits x <<< n :=
  bits_toInt _

@[simp]
theorem bits_ushr : bits (ushr x n) = bits x >>> n :=
  bits_toNat _

@[simp]
theorem bits_sshr : bits (sshr x n) = (bits x).sshiftRight n :=
  bits_toInt _

@[simp]
theorem bits_or : bits (or x y) = bits x ||| bits y :=
  bits_toInt _

@[simp]
theorem bits_and : bits (and x y) = bits x &&& bits y :=
  bits_toInt _

@[simp]
theorem bits_xor : bits (xor x y) = bits x ^^^ bits y :=
  bits_toInt _

@[simp]
theorem bits_not : bits (not x) = ~~~bits x :=
  bits_toInt _

@[simp]
theorem bits_add : bits (x + y) = bits x + bits y :=
  BitVec.ofInt_add x y

end

theorem ofInt_toInt (w : BitVec 32) : BitVec.ofInt 8 w.toInt = w.setWidth 8 := by
  apply BitVec.eq_of_toNat_eq
  have := w.isLt
  rw [BitVec.toNat_ofInt, BitVec.toNat_setWidth, BitVec.toInt_eq_toNat_cond]
  split <;> omega

-- The low byte of a word.
theorem toByte_and (x : ℤ) : toByte (and x 0xff) = ⟨(bits x).setWidth 8⟩ := by
  have hm : (bits 0xff).setWidth 8 = BitVec.allOnes 8 := by decide
  rw [toByte, and, ofInt_toInt, BitVec.setWidth_and, hm, BitVec.and_allOnes]

section

variable {x y n : ℕ}

theorem toByte_natCast : toByte (x : ℤ) = .ofNat x := by
  rw [toByte, BitVec.ofInt_natCast]
  rfl

theorem toInt_bits (h : x < 2 ^ 31) : (bits (x : ℤ)).toInt = x := by
  rw [bits_natCast, BitVec.toInt_eq_toNat_of_lt (by rw [BitVec.toNat_ofNat]; omega), BitVec.toNat_ofNat,
    Nat.mod_eq_of_lt (by omega)]

theorem toNat_bits (h : x < 2 ^ 31) : (bits (x : ℤ)).toNat = x := by
  rw [bits_natCast, BitVec.toNat_ofNat, Nat.mod_eq_of_lt (by omega)]

theorem toInt_of_toNat {w : BitVec 32} (hw : w.toNat = n) (h : n < 2 ^ 31) : w.toInt = n := by
  rw [BitVec.toInt_eq_toNat_of_lt (by omega), hw]

-- The operators on numbers which are neither negative nor too great.
theorem sshr_natCast (h : x < 2 ^ 31) : sshr x n = (x / 2 ^ n : ℕ) := by
  rw [sshr, BitVec.toInt_sshiftRight, toInt_bits h, Int.shiftRight_eq_div_pow]
  norm_cast

theorem or_natCast (hx : x < 2 ^ 31) (hy : y < 2 ^ 31) : or x y = (x ||| y : ℕ) := by
  refine toInt_of_toNat ?_ <| Nat.or_lt_two_pow hx hy
  rw [BitVec.toNat_or, toNat_bits hx, toNat_bits hy]

theorem and_natCast (hx : x < 2 ^ 31) (hy : y < 2 ^ 31) : and x y = (x &&& y : ℕ) := by
  refine toInt_of_toNat ?_ <| Nat.and_lt_two_pow x hy
  rw [BitVec.toNat_and, toNat_bits hx, toNat_bits hy]

theorem shl_natCast (h : x * 2 ^ n < 2 ^ 31) : shl x n = (x * 2 ^ n : ℕ) := by
  have hx : x < 2 ^ 31 := Nat.lt_of_le_of_lt (Nat.le_mul_of_pos_right _ (by positivity)) h
  refine toInt_of_toNat ?_ h
  rw [BitVec.toNat_shiftLeft, toNat_bits hx, Nat.shiftLeft_eq, Nat.mod_eq_of_lt (by omega)]

end

end Bitwise
