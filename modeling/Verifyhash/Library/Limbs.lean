import Mathlib

-- Natural numbers as lists of limbs with 64 bits, of which the first is the least significant.
namespace Limbs

def value : List UInt64 → ℕ
  | []      => 0
  | l :: ls => l.toNat + 2 ^ 64 * value ls

-- The sum of two numbers of equal length and a carry, and the carry which is left.
def adc : (as bs : List UInt64) → (carry : ℕ) → List UInt64 × ℕ
  | a :: as, b :: bs, carry =>
    let s := a.toNat + b.toNat + carry
    let (rs, carry) := adc as bs (s / 2 ^ 64)
    (.ofNat s :: rs, carry)
  | _, _, carry => ([], carry)

-- The difference of two numbers of equal length and a borrow, and the borrow which is left.
def sbb : (as bs : List UInt64) → (borrow : ℤ) → List UInt64 × ℤ
  | a :: as, b :: bs, borrow =>
    let d : ℤ := a.toNat - b.toNat - borrow
    if d < 0 then
      let (rs, borrow) := sbb as bs 1
      (.ofNat (d + 2 ^ 64).toNat :: rs, borrow)
    else
      let (rs, borrow) := sbb as bs 0
      (.ofNat d.toNat :: rs, borrow)
  | _, _, borrow => ([], borrow)

-- The more significant limbs are compared first.
def cmp : (as bs : List UInt64) → Ordering
  | a :: as, b :: bs => (cmp as bs).then (compare a.toNat b.toNat)
  | _,       _       => .eq

def shr1 : List UInt64 → List UInt64
  | []           => []
  | [a]          => [a >>> 1]
  | a :: b :: ls => (a >>> 1 ||| b <<< 63) :: shr1 (b :: ls)

-- The most significant bit is set.
def setTop : List UInt64 → List UInt64
  | []           => []
  | [a]          => [a ||| (1 : UInt64) <<< 63]
  | a :: b :: ls => a :: setTop (b :: ls)

def bit (ls : List UInt64) (i : ℕ) : Bool :=
  (ls.getD (i / 64) 0 >>> .ofNat (i % 64)) &&& 1 = 1

section

variable {as bs ls : List UInt64} {carry i : ℕ} {borrow : ℤ}

theorem value_lt (ls : List UInt64) : value ls < 2 ^ (64 * ls.length) := by
  induction ls
  case nil => simp [value]
  case cons l ls ih =>
    have := l.toNat_lt
    rw [value, List.length_cons, Nat.mul_add, pow_add, mul_one]
    omega

theorem value_inj (hl : as.length = bs.length) (h : value as = value bs) : as = bs := by
  induction as generalizing bs
  case nil => exact (List.length_eq_zero_iff.mp hl.symm).symm
  case cons a as ih =>
    cases bs
    case nil => cases hl
    case cons b bs =>
      have := a.toNat_lt
      have := b.toNat_lt
      simp only [value] at h
      rw [ih (Nat.succ_inj.mp hl) (by omega), UInt64.toNat_inj.mp (by omega : a.toNat = b.toNat)]

theorem adc_spec (hl : as.length = bs.length) : (adc as bs carry).fst.length = as.length ∧
    value (adc as bs carry).fst + 2 ^ (64 * as.length) * (adc as bs carry).snd = value as + value bs + carry := by
  induction as generalizing bs carry
  case nil =>
    obtain rfl := List.length_eq_zero_iff.mp hl.symm
    simp [adc, value]
  case cons a as ih =>
    cases bs
    case nil => cases hl
    case cons b bs =>
      have ⟨h₁, h₂⟩ := @ih bs ((a.toNat + b.toNat + carry) / 2 ^ 64) (Nat.succ_inj.mp hl)
      refine ⟨congrArg (· + 1) h₁, ?_⟩
      simp only [adc, value, List.length_cons, UInt64.toNat_ofNat']
      rw [Nat.mul_add, mul_one, pow_add, mul_comm (2 ^ (64 * as.length)), mul_assoc]
      omega

theorem sbb_spec (hl : as.length = bs.length) (hb : borrow = 0 ∨ borrow = 1) :
    (sbb as bs borrow).fst.length = as.length ∧ ((sbb as bs borrow).snd = 0 ∨ (sbb as bs borrow).snd = 1) ∧
      (value (sbb as bs borrow).fst : ℤ) - 2 ^ (64 * as.length) * (sbb as bs borrow).snd =
        value as - value bs - borrow := by
  induction as generalizing bs borrow
  case nil =>
    obtain rfl := List.length_eq_zero_iff.mp hl.symm
    simp [sbb, value, hb]
  case cons a as ih =>
    cases bs
    case nil => cases hl
    case cons b bs =>
      have ha := a.toNat_lt
      have hb' := b.toNat_lt
      have ⟨h₁, h₂, h₃⟩ := @ih bs 1 (Nat.succ_inj.mp hl) (.inr rfl)
      have ⟨k₁, k₂, k₃⟩ := @ih bs 0 (Nat.succ_inj.mp hl) (.inl rfl)
      simp only [sbb, value, List.length_cons]
      rw [Nat.mul_add, mul_one, pow_add, mul_comm (2 ^ (64 * as.length) : ℤ), mul_assoc]
      split_ifs with hd
      case pos =>
        refine ⟨by simp [h₁], h₂, ?_⟩
        rw [value, UInt64.toNat_ofNat']
        push_cast
        omega
      case neg =>
        refine ⟨by simp [k₁], k₂, ?_⟩
        rw [value, UInt64.toNat_ofNat']
        push_cast
        omega

theorem cmp_eq (hl : as.length = bs.length) : cmp as bs = compare (value as) (value bs) := by
  induction as generalizing bs
  case nil =>
    obtain rfl := List.length_eq_zero_iff.mp hl.symm
    rfl
  case cons a as ih =>
    cases bs
    case nil => cases hl
    case cons b bs =>
      have ha := a.toNat_lt
      have hb := b.toNat_lt
      rw [cmp, ih (Nat.succ_inj.mp hl), value, value]
      rcases lt_trichotomy (value as) (value bs) with h | h | h
      · have hlt : a.toNat + 2 ^ 64 * value as < b.toNat + 2 ^ 64 * value bs := by omega
        rw [compare_lt_iff_lt.mpr h, compare_lt_iff_lt.mpr hlt]
        rfl
      · rw [h, compare_eq_iff_eq.mpr rfl]
        rcases lt_trichotomy a.toNat b.toNat with h | h | h
        · rw [compare_lt_iff_lt.mpr h, compare_lt_iff_lt.mpr (Nat.add_lt_add_right h _)]
          rfl
        · rw [h, compare_eq_iff_eq.mpr rfl, compare_eq_iff_eq.mpr rfl]
          rfl
        · rw [compare_gt_iff_gt.mpr h, compare_gt_iff_gt.mpr (Nat.add_lt_add_right h _)]
          rfl
      · have hlt : b.toNat + 2 ^ 64 * value bs < a.toNat + 2 ^ 64 * value as := by omega
        rw [compare_gt_iff_gt.mpr h, compare_gt_iff_gt.mpr hlt]
        rfl

-- The halves of a limb and the lowest bit of the next one.
theorem toNat_shr1 (a b : UInt64) : (a >>> 1 ||| b <<< 63).toNat = a.toNat / 2 + 2 ^ 63 * (b.toNat % 2) := by
  have ha := a.toNat_lt
  have h₁ : (a >>> 1).toNat = a.toNat / 2 := by simp [Nat.shiftRight_eq_div_pow]
  have h₂ : (b <<< 63).toNat = 2 ^ 63 * (b.toNat % 2) := by
    simp only [UInt64.toNat_shiftLeft, Nat.shiftLeft_eq]
    have : (63 : UInt64).toNat % 64 = 63 := rfl
    rw [this]
    omega
  rw [UInt64.toNat_or, h₁, h₂, Nat.or_comm, ←Nat.two_pow_add_eq_or_of_lt (by omega)]
  omega

theorem shr1_spec (ls : List UInt64) : (shr1 ls).length = ls.length ∧ value (shr1 ls) = value ls / 2 := by
  fun_induction shr1 ls
  case case1 => simp [value]
  case case2 a =>
    have : (a >>> 1).toNat = a.toNat / 2 := by simp [Nat.shiftRight_eq_div_pow]
    simp [value, this]
  case case3 a b ls ih =>
    obtain ⟨h₁, h₂⟩ := ih
    refine ⟨by simp [h₁], ?_⟩
    have hv : value (b :: ls) = b.toNat + 2 ^ 64 * value ls := rfl
    have hv' : value (a :: b :: ls) = a.toNat + 2 ^ 64 * value (b :: ls) := rfl
    rw [value, h₂, toNat_shr1, hv']
    omega

theorem length_setTop_eq (ls : List UInt64) : (setTop ls).length = ls.length := by
  fun_induction setTop ls
  case case1          => rfl
  case case2          => rfl
  case case3 a b _ ih => exact congrArg (· + 1) ih

theorem value_setTop (hne : ls ≠ []) (h : value ls < 2 ^ (64 * ls.length - 1)) :
    value (setTop ls) = value ls + 2 ^ (64 * ls.length - 1) := by
  fun_induction setTop ls
  case case1 => exact absurd rfl hne
  case case2 a =>
    simp only [value, List.length_singleton, Nat.mul_one, Nat.mul_zero, Nat.add_zero, Nat.add_one_sub_one] at h ⊢
    have h₂ : ((1 : UInt64) <<< 63).toNat = 2 ^ 63 * 1 := rfl
    rw [UInt64.toNat_or, h₂, Nat.or_comm, ←Nat.two_pow_add_eq_or_of_lt (by omega)]
    omega
  case case3 a b ls ih =>
    have hp : 2 ^ (64 * (a :: b :: ls).length - 1) = 2 ^ 64 * 2 ^ (64 * (b :: ls).length - 1) := by
      rw [←pow_add]
      congr 1
      simp only [List.length_cons]
      omega
    have hv : value (a :: b :: ls) = a.toNat + 2 ^ 64 * value (b :: ls) := rfl
    rw [hp, hv] at h
    rw [hp, value, ih (by simp) (by omega), hv]
    ring

theorem bit_eq (ls : List UInt64) (i : ℕ) : bit ls i = (value ls).testBit i := by
  induction ls generalizing i
  case nil => simp [bit, value]
  case cons l ls ih =>
    rw [value, Nat.add_comm, Nat.testBit_two_pow_mul_add _ l.toNat_lt]
    split_ifs with h
    case pos =>
      have hi : (UInt64.ofNat i).toNat % 64 = i := by
        rw [UInt64.toNat_ofNat']
        omega
      have hb : (l >>> UInt64.ofNat i &&& 1).toNat = l.toNat / 2 ^ i % 2 := by
        rw [UInt64.toNat_and, UInt64.toNat_shiftRight, hi, Nat.shiftRight_eq_div_pow]
        exact Nat.and_one_is_mod _
      have hd : l >>> UInt64.ofNat i &&& 1 = 1 ↔ l.toNat / 2 ^ i % 2 = 1 := by
        rw [←UInt64.toNat_inj, hb]
        rfl
      rw [bit, Nat.div_eq_of_lt h, Nat.mod_eq_of_lt h, List.getD_cons_zero, decide_eq_decide.mpr hd,
        Nat.testBit_eq_decide_div_mod_eq]
    case neg =>
      obtain ⟨j, rfl⟩ : ∃ j, i = j + 64 := ⟨i - 64, by omega⟩
      have hj : (j + 64) / 64 = j / 64 + 1 := by omega
      rw [Nat.add_sub_cancel, ←ih, bit, bit, hj, List.getD_cons_succ, Nat.add_mod_right]

end

end Limbs
