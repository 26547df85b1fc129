import Verifyhash.Library.Rounding

-- How far rounding to the IEEE 754 format moves a value.
namespace Double

variable {q r : ℚ}

theorem abs_nearest_sub_le (q : ℚ) : |nearest q - q| ≤ 1 / 2 := by
  have h₁ := Int.floor_le q
  have h₂ := Int.lt_floor_add_one q
  rw [nearest, abs_le]
  split_ifs with h
  case pos => constructor <;> rcases h with h | h <;> linarith
  case neg =>
    have : 1 ≤ 2 * (q - ⌊q⌋) := not_lt.mp fun hl => h <| .inl hl
    push_cast
    constructor <;> linarith

-- The error is at most half of the distance between neighbouring values.
theorem abs_round_sub_le (h : round q = some r) : |r - q| ≤ 2 ^ unit q / 2 := by
  rw [round] at h
  split_ifs at h
  obtain rfl := Option.some_inj.mp h
  have hu : (0 : ℚ) < 2 ^ unit q := by positivity
  calc
    _ = |(nearest (q / 2 ^ unit q) - q / 2 ^ unit q) * 2 ^ unit q| := by
      rw [sub_mul, div_mul_cancel₀ _ hu.ne']
    _ = |nearest (q / 2 ^ unit q) - q / 2 ^ unit q| * 2 ^ unit q := by rw [abs_mul, abs_of_pos hu]
    _ ≤ 1 / 2 * 2 ^ unit q := mul_le_mul_of_nonneg_right (abs_nearest_sub_le _) hu.le
    _ = 2 ^ unit q / 2 := by ring

-- The values below `2 ^ 10` are exact up to the millionth.
theorem abs_round_sub_lt (hq : |q| < 2 ^ 10) (h : round q = some r) : |r - q| < 1 / 10 ^ 6 := by
  have hl : Int.log 2 |q| ≤ 9 := by
    rcases (abs_nonneg q).eq_or_lt with h₀ | h₀
    · rw [←h₀, Int.log_zero_right]
      norm_num
    · have hz : |q| < ((2 : ℕ) : ℚ) ^ (10 : ℤ) := by exact_mod_cast hq
      have := Int.lt_zpow_iff_log_lt (by norm_num : 1 < 2) h₀ |>.mp hz
      omega
  have hu : unit q ≤ -43 := by
    rw [unit]
    omega
  have hz : (2 : ℚ) ^ unit q ≤ 2 ^ (-43 : ℤ) := zpow_le_zpow_right₀ (by norm_num) hu
  calc
    _ ≤ 2 ^ unit q / 2       := abs_round_sub_le h
    _ ≤ 2 ^ (-43 : ℤ) / 2    := div_le_div_of_nonneg_right hz (by norm_num)
    _ < 1 / 10 ^ 6           := by norm_num

end Double
