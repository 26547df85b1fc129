import Verifyhash.Library.Double

-- Rounding to the IEEE 754 format keeps the order of the values and their signs.
namespace Double

variable {q t r : ℚ}

section

variable {n : ℤ}

theorem nearest_le (h : q ≤ n) : nearest q ≤ n := by
  have hf : ⌊q⌋ ≤ n := by exact_mod_cast (Int.floor_le q).trans h
  rw [nearest]
  split_ifs with hr
  case pos => exact hf
  case neg =>
    have hn : ⌊q⌋ ≠ n := by
      intro hn
      have : (⌊q⌋ : ℚ) ≤ q := Int.floor_le q
      have hz : 2 * (q - ⌊q⌋) < 1 := by
        rw [hn] at this ⊢
        linarith
      exact hr <| .inl hz
    omega

theorem le_nearest (h : n ≤ q) : n ≤ nearest q := by
  have hf : n ≤ ⌊q⌋ := Int.le_floor.mpr h
  rcases nearest_mem q with hn | hn <;> omega

end

theorem nearest_neg (q : ℚ) : nearest (-q) = -nearest q := by
  by_cases hi : q = ⌊q⌋
  case pos =>
    rw [hi, nearest_intCast, ←Int.cast_neg, nearest_intCast]
  case neg =>
    have hl : (⌊q⌋ : ℚ) < q := lt_of_le_of_ne (Int.floor_le q) (Ne.symm hi)
    have hu : q < ⌊q⌋ + 1 := Int.lt_floor_add_one q
    have hf : ⌊-q⌋ = -⌊q⌋ - 1 := by
      rw [Int.floor_eq_iff]
      push_cast
      constructor <;> linarith
    simp only [nearest, hf]
    generalize ⌊q⌋ = f at hl hu
    push_cast
    have ho : (-f - 1) % 2 = 0 ↔ ¬ f % 2 = 0 := by omega
    rcases lt_trichotomy (2 * (q - f)) 1 with h | h | h
    · have h' : ¬ (2 * (-q - (-(f : ℚ) - 1)) < 1 ∨ 2 * (-q - (-(f : ℚ) - 1)) = 1 ∧ (-f - 1) % 2 = 0) := by
        rintro (h' | ⟨h', _⟩) <;> linarith
      rw [if_neg h', if_pos <| .inl h]
      ring
    · have h' : 2 * (-q - (-(f : ℚ) - 1)) = 1 := by linarith
      by_cases he : f % 2 = 0
      case pos => simp [h, h', he, ho]
      case neg =>
        simp only [h, h', he, ho]
        simp
        ring
    · have h' : ¬ (2 * (q - f) < 1 ∨ 2 * (q - f) = 1 ∧ f % 2 = 0) := by
        rintro (h' | ⟨h', _⟩) <;> linarith
      rw [if_pos <| .inl <| by linarith, if_neg h']
      ring

theorem unit_neg (q : ℚ) : unit (-q) = unit q := by
  rw [unit, unit, abs_neg]

theorem round_neg (q : ℚ) : round (-q) = (round q).map (-·) := by
  simp only [round, unit_neg, neg_div, nearest_neg]
  push_cast
  rw [neg_mul, abs_neg]
  split_ifs <;> rfl

-- The rounding of a difference does not depend on the order of its terms.
theorem map_abs_round (q : ℚ) : (round q).map (|·|) = (round |q|).map (|·|) := by
  rcases abs_choice q with h | h <;> rw [h]
  rw [round_neg]
  cases round q <;> simp

theorem unit_mono (hq : 0 < q) (h : q ≤ t) : unit q ≤ unit t := by
  have ha : |q| ≤ |t| := by rwa [abs_of_pos hq, abs_of_pos (hq.trans_le h)]
  have := Int.log_mono_right (b := 2) (abs_pos.mpr hq.ne') ha
  rw [unit, unit]
  omega

-- A value is a multiple of the distances between smaller values.
theorem IsDouble.exists_mul_zpow (h : IsDouble t) {e : ℤ} (he : e ≤ unit t) : ∃ n : ℤ, t / 2 ^ e = n := by
  obtain ⟨r, hr⟩ := h.exists_mul_unit
  refine ⟨r * 2 ^ (unit t - e).toNat, ?_⟩
  have : (2 : ℚ) ^ (unit t - e).toNat = 2 ^ (unit t - e) := by
    rw [←zpow_natCast, Int.toNat_of_nonneg (by omega)]
  rw [div_eq_iff (by positivity)]
  push_cast
  rw [this, mul_assoc, ←zpow_add₀ (by norm_num), sub_add_cancel]
  exact hr

theorem round_nonneg (hq : 0 ≤ q) (hr : round q = some r) : 0 ≤ r := by
  have hn : 0 ≤ nearest (q / 2 ^ unit q) := le_nearest <| by
    push_cast
    positivity
  simp only [round, Option.ite_none_right_eq_some, Option.some.injEq] at hr
  have : (0 : ℚ) ≤ nearest (q / 2 ^ unit q) := by exact_mod_cast hn
  rw [←hr.right]
  positivity

-- What is at most a value is rounded to at most this value.
theorem round_le (ht : IsDouble t) (hq : 0 ≤ q) (h : q ≤ t) : ∃ r, round q = some r ∧ r ≤ t := by
  rcases hq.eq_or_lt with rfl | hq
  case inl => exact ⟨0, round_zero, h⟩
  case inr =>
    obtain ⟨n, hn⟩ := ht.exists_mul_zpow <| unit_mono hq h
    have hle : nearest (q / 2 ^ unit q) ≤ n := nearest_le <| by
      rw [←hn]
      gcongr
    have hle : (nearest (q / 2 ^ unit q) : ℚ) * 2 ^ unit q ≤ t := calc
      _ ≤ (n : ℚ) * 2 ^ unit q := by gcongr
      _ = t                    := by rw [←hn, div_mul_cancel₀ _ (by positivity)]
    have hz : (0 : ℚ) ≤ nearest (q / 2 ^ unit q) := by
      exact_mod_cast (le_nearest <| by push_cast; positivity : 0 ≤ nearest (q / 2 ^ unit q))
    have hlt : |(nearest (q / 2 ^ unit q) : ℚ) * 2 ^ unit q| < 2 ^ 1024 := by
      rw [abs_of_nonneg (by positivity)]
      exact hle.trans_lt <| (le_abs_self t).trans_lt ht.abs_lt
    exact ⟨_, if_pos hlt, hle⟩

-- What is at least a value is rounded to at least this value, or to the infinity.
theorem le_round (ht : IsDouble t) (hp : 0 < t) (h : t ≤ q) (hr : round q = some r) : t ≤ r := by
  have hq := hp.trans_le h
  simp only [round, Option.ite_none_right_eq_some, Option.some.injEq] at hr
  obtain ⟨_, rfl⟩ := hr
  rcases (unit_mono hp h).eq_or_lt with hu | hu
  case inl =>
    obtain ⟨n, hn⟩ := ht.exists_mul_zpow hu.ge
    have hle : n ≤ nearest (q / 2 ^ unit q) := le_nearest <| by
      rw [←hn]
      gcongr
    calc t
      _ = n * 2 ^ unit q                        := by rw [←hn, div_mul_cancel₀ _ (by positivity)]
      _ ≤ nearest (q / 2 ^ unit q) * 2 ^ unit q := by gcongr
  -- There is a power of two between the value and what is rounded.
  case inr =>
    have hl : Int.log 2 |t| < Int.log 2 |q| := by
      rw [unit, unit] at hu
      omega
    have hqu : unit q = Int.log 2 |q| - 52 := by
      have hu' := hu
      rw [unit, unit] at hu'
      rw [unit]
      omega
    have hlt : |t| < ((2 : ℕ) : ℚ) ^ Int.log 2 |q| :=
      Int.lt_zpow_iff_log_lt (by norm_num) (abs_pos.mpr hp.ne') |>.mpr hl
    have hge : ((2 : ℕ) : ℚ) ^ Int.log 2 |q| ≤ |q| := Int.zpow_log_le_self (by norm_num) (abs_pos.mpr hq.ne')
    rw [abs_of_pos hp] at hlt
    have hp : (2 : ℚ) ^ Int.log 2 |q| = (2 ^ 52 : ℤ) * 2 ^ unit q := by
      have h₅ : ((2 ^ 52 : ℤ) : ℚ) = 2 ^ (52 : ℤ) := by norm_num
      rw [hqu, h₅, ←zpow_add₀ (by norm_num)]
      congr 1
      ring
    push_cast at hlt hge
    have hle : 2 ^ 52 ≤ nearest (q / 2 ^ unit q) := le_nearest <| by
      rw [le_div_iff₀ (by positivity), ←hp]
      rwa [abs_of_pos hq] at hge ⊢
    calc t
      _ ≤ 2 ^ Int.log 2 |q|                     := hlt.le
      _ = (2 ^ 52 : ℤ) * 2 ^ unit q             := hp
      _ ≤ nearest (q / 2 ^ unit q) * 2 ^ unit q := by gcongr

theorem isDouble_natCast_le {n : ℕ} (h : n ≤ 2 ^ 53) : IsDouble n := by
  rcases h.eq_or_lt with rfl | h
  · exact ⟨1, 53, by norm_num, by norm_num, by norm_num, by norm_num⟩
  · exact isDouble_natCast h

end Double
