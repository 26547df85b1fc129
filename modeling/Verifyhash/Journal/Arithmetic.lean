import Verifyhash.Library.MerkleLog.Bits

-- The integer helpers of `cli/journal-log.js`. They are exact on the safe integers, where a number
-- is the integer it stands for. `%` is the remainder of the truncating division.
namespace JournalLog

def bitLength (x : ℤ) : ℕ :=
  loop x 0
where
  loop (x : ℤ) (n : ℕ) : ℕ :=
    if x > 0 then loop (x / 2) (n + 1) else n
  termination_by x.toNat
  decreasing_by omega

def onesCount (x : ℤ) : ℤ :=
  loop x 0
where
  loop (x c : ℤ) : ℤ :=
    if x > 0 then loop (x / 2) (c + x.tmod 2) else c
  termination_by x.toNat
  decreasing_by omega

def trailingZeros (x : ℤ) : ℕ :=
  loop x 0
where
  loop (x : ℤ) (n : ℕ) : ℕ :=
    if x > 0 ∧ x.tmod 2 = 0 then loop (x / 2) (n + 1) else n
  termination_by x.toNat
  decreasing_by omega

def xor (a b : ℤ) : ℤ :=
  loop a b 0 1
where
  loop (a b res bit : ℤ) : ℤ :=
    if a > 0 ∨ b > 0 then
      loop (a / 2) (b / 2) (if a.tmod 2 ≠ b.tmod 2 then res + bit else res) (bit * 2)
    else
      res
  termination_by a.toNat + b.toNat
  decreasing_by omega

def shr (x : ℤ) (k : ℕ) : ℤ :=
  x / 2 ^ k

def bitAt (x : ℤ) (i : ℕ) : ℤ :=
  (shr x i).tmod 2

def largestPowerOfTwoLessThan (n : ℕ) : ℕ :=
  loop 1 (by omega)
where
  loop (k : ℕ) (pos : 0 < k) : ℕ :=
    if k * 2 < n then loop (k * 2) (by omega) else k
  termination_by n - k

open MerkleLog

section

variable (x : ℕ)

theorem natCast_div_two : (x : ℤ) / 2 = (x / 2 : ℕ) := by
  omega

theorem natCast_tmod_two : (x : ℤ).tmod 2 = (x % 2 : ℕ) := by
  rw [Int.tmod_eq_emod_of_nonneg (by omega)]
  omega

theorem size_div_two (h : 0 < x) : x.size = (x / 2).size + 1 := by
  apply le_antisymm
  · have := (x / 2).lt_size_self
    exact Nat.size_le.mpr <| by rw [Nat.pow_succ]; omega
  · have hl := x.lt_size_self
    have hs : 0 < x.size := Nat.size_pos.mpr h
    have hp : 2 ^ x.size = 2 ^ (x.size - 1) * 2 := by rw [←Nat.pow_succ]; congr 1; omega
    have : (x / 2).size ≤ x.size - 1 := Nat.size_le.mpr <| by omega
    omega

theorem bitLength_natCast : bitLength x = x.size := by
  have hl (n) : bitLength.loop x n = n + x.size := by
    induction x using Nat.strong_induction_on generalizing n
    case h x ih =>
      rw [bitLength.loop]
      split_ifs
      case pos =>
        rw [natCast_div_two, ih _ (by omega), size_div_two x (by omega)]
        omega
      case neg =>
        obtain rfl : x = 0 := by omega
        simp
  rw [bitLength, hl, Nat.zero_add]

theorem onesCount_natCast : onesCount x = ones x := by
  have hl (c) : onesCount.loop x c = c + ones x := by
    induction x using Nat.strong_induction_on generalizing c
    case h x ih =>
      rw [onesCount.loop]
      split_ifs
      case pos =>
        rw [natCast_div_two, natCast_tmod_two, ih _ (by omega), ones_eq x]
        push_cast
        ring
      case neg =>
        obtain rfl : x = 0 := by omega
        simp [ones_zero]
  rw [onesCount, hl, Int.zero_add]

theorem xor_div_mod (y : ℕ) :
    x ^^^ y = 2 * (x / 2 ^^^ y / 2) + if x % 2 = y % 2 then 0 else 1 := by
  have hm := Nat.xor_mod_two_eq_one (a := x) (b := y)
  rw [←Nat.xor_div_two]
  split_ifs <;> omega

theorem xor_natCast (y : ℕ) : xor x y = (x ^^^ y : ℕ) := by
  have hl (res bit) : xor.loop x y res bit = res + bit * (x ^^^ y : ℕ) := by
    induction h : x + y using Nat.strong_induction_on generalizing x y res bit
    case h ih =>
      rw [xor.loop]
      by_cases hp : (x : ℤ) > 0 ∨ (y : ℤ) > 0
      case pos =>
        rw [if_pos hp, natCast_div_two, natCast_div_two, natCast_tmod_two, natCast_tmod_two,
          ih _ (by omega) _ _ _ _ rfl, xor_div_mod x y]
        split_ifs <;> first | omega | (push_cast; ring)
      case neg =>
        obtain ⟨rfl, rfl⟩ : x = 0 ∧ y = 0 := by omega
        simp
  rw [xor, hl, Int.zero_add, Int.one_mul]

theorem shr_natCast (k : ℕ) : shr x k = (x >>> k : ℕ) := by
  simp [shr, Nat.shiftRight_eq_div_pow]

theorem bitAt_natCast (i : ℕ) : bitAt x i = if x.testBit i then 1 else 0 := by
  rw [bitAt, shr_natCast, natCast_tmod_two, Nat.testBit_eq_decide_div_mod_eq,
    Nat.shiftRight_eq_div_pow]
  split_ifs with h <;> simp only [decide_eq_true_eq] at h <;> omega

theorem trailingZeros_spec (h : 0 < x) : ∃ q, x = 2 ^ trailingZeros x * (2 * q + 1) := by
  have hl (n) : ∃ z q, trailingZeros.loop x n = n + z ∧ x = 2 ^ z * (2 * q + 1) := by
    induction x using Nat.strong_induction_on generalizing n
    case h x ih =>
      rw [trailingZeros.loop, natCast_tmod_two, natCast_div_two]
      split_ifs with hx
      case pos =>
        obtain ⟨z, q, hz, hq⟩ := ih (x / 2) (by omega) (by omega) (n + 1)
        refine ⟨z + 1, q, by omega, ?_⟩
        have hd : x = 2 * (x / 2) := by omega
        rw [hd, hq, Nat.pow_succ]
        ring
      case neg => exact ⟨0, x / 2, rfl, by omega⟩
  obtain ⟨z, q, hz, hq⟩ := hl 0
  rw [trailingZeros, hz, Nat.zero_add]
  exact ⟨q, hq⟩

end

theorem largestPowerOfTwoLessThan_eq (h : 2 ≤ n) : largestPowerOfTwoLessThan n = split n := by
  have hl (k : ℕ) (pos : 0 < k) (t) (ht : k = 2 ^ t) (hk : k < n) :
      largestPowerOfTwoLessThan.loop n k pos = split n := by
    fun_induction largestPowerOfTwoLessThan.loop n k pos generalizing t
    case case1 ih => exact ih (t + 1) (by rw [ht, Nat.pow_succ]) ‹_›
    case case2    => exact split_unique (ht ▸ hk) (by rw [Nat.pow_succ]; omega) |>.symm ▸ ht
  exact hl 1 (by omega) 0 rfl (by omega)

end JournalLog
