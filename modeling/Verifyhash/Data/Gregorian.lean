import Verifyhash.Data.Calendar

-- The days of the Gregorian calendar, and their order.
namespace Instant

def IsLeap (year : ℤ) : Prop :=
  (year % 4 = 0 ∧ year % 100 ≠ 0) ∨ year % 400 = 0

instance : Decidable (IsLeap year) :=
  inferInstanceAs <| Decidable <| (year % 4 = 0 ∧ year % 100 ≠ 0) ∨ year % 400 = 0

def monthLength (year month : ℤ) : ℤ :=
  if month = 2 then (if IsLeap year then 29 else 28)
  else if month = 4 ∨ month = 6 ∨ month = 9 ∨ month = 11 then 30
  else 31

-- The parts of a day which exists.
structure IsDay (year month day : ℤ) : Prop where
  inYear  : 1 ≤ month ∧ month ≤ 12
  inMonth : 1 ≤ day ∧ day ≤ monthLength year month

instance : Decidable (IsDay year month day) :=
  decidable_of_iff ((1 ≤ month ∧ month ≤ 12) ∧ 1 ≤ day ∧ day ≤ monthLength year month)
    ⟨fun h => ⟨h.left, h.right⟩, fun h => ⟨h.inYear, h.inMonth⟩⟩

-- The number of the days before the first of March of a year.
def yearStart (y : ℤ) : ℤ :=
  365 * y + y / 4 - y / 100 + y / 400

-- The number of the days from the first of March on before a month, which is counted from March.
def monthStart (mp : ℤ) : ℤ :=
  (153 * mp + 2) / 5

-- The year which starts in March, and the month in it.
def marchYear (year month : ℤ) : ℤ :=
  if month ≤ 2 then year - 1 else year

def marchMonth (month : ℤ) : ℤ :=
  if month > 2 then month - 3 else month + 9

section

variable {year month day y : ℤ}

theorem daysFromCivil_eq : daysFromCivil year month day =
    yearStart (marchYear year month) + monthStart (marchMonth month) + day - 719469 := by
  simp only [daysFromCivil, yearStart, monthStart, marchYear, marchMonth]
  generalize (if month ≤ 2 then year - 1 else year) = y
  generalize (if month > 2 then month - 3 else month + 9) = mp
  omega

theorem yearStart_mono {y' : ℤ} (h : y < y') : yearStart (y + 1) ≤ yearStart y' := by
  simp only [yearStart]
  omega

theorem monthLength_le : monthLength year month ≤ 31 := by
  rw [monthLength]
  split_ifs <;> omega

-- The days of a month do not reach the next one.
theorem IsDay.lt_monthStart (h : IsDay year month day) {mp : ℤ} (hm : marchMonth month < mp) :
    monthStart (marchMonth month) + day ≤ monthStart mp := by
  have h₁ := h.inYear
  have h₂ := h.inMonth
  have hmono : monthStart (marchMonth month + 1) ≤ monthStart mp := by
    simp only [monthStart]
    omega
  refine le_trans ?_ hmono
  have : month = 1 ∨ month = 2 ∨ month = 3 ∨ month = 4 ∨ month = 5 ∨ month = 6 ∨ month = 7 ∨ month = 8 ∨ month = 9 ∨
      month = 10 ∨ month = 11 ∨ month = 12 := by omega
  have hl : monthLength year 2 ≤ 29 := by
    rw [monthLength, if_pos rfl]
    split_ifs <;> omega
  rcases this with rfl | rfl | rfl | rfl | rfl | rfl | rfl | rfl | rfl | rfl | rfl | rfl
  case inr.inl =>
    simp only [monthStart, marchMonth]
    omega
  all_goals
    have hd := h₂.right
    norm_num [monthLength] at hd
    simp only [monthStart, marchMonth]
    omega

-- The days of a year do not reach the next one.
theorem IsDay.lt_yearStart (h : IsDay year month day) :
    0 ≤ monthStart (marchMonth month) ∧
      yearStart (marchYear year month) + monthStart (marchMonth month) + day ≤ yearStart (marchYear year month + 1) := by
  have h₁ := h.inYear
  have h₂ := h.inMonth
  by_cases hm : month = 2
  case pos =>
    subst hm
    rw [monthLength, if_pos rfl] at h₂
    simp only [yearStart, monthStart, marchYear, marchMonth]
    split_ifs at h₂ with hl
    · rw [IsLeap] at hl
      refine ⟨by norm_num, ?_⟩
      norm_num
      omega
    · refine ⟨by norm_num, ?_⟩
      norm_num
      omega
  case neg =>
    have hl : monthStart (marchMonth month) + day ≤ monthStart 11 := h.lt_monthStart <| by
      rw [marchMonth]
      split_ifs <;> omega
    have h₀ : 0 ≤ marchMonth month := by
      rw [marchMonth]
      split_ifs <;> omega
    have hy : yearStart (marchYear year month) + 365 ≤ yearStart (marchYear year month + 1) := by
      simp only [yearStart]
      omega
    have h11 : monthStart 11 = 337 := rfl
    refine ⟨?_, by omega⟩
    rw [monthStart]
    omega

variable {year' month' day' : ℤ}

-- The chronological order of days.
def Earlier (year month day year' month' day' : ℤ) : Prop :=
  year < year' ∨ year = year' ∧ (month < month' ∨ month = month' ∧ day < day')

theorem daysFromCivil_lt (h : IsDay year month day) (h' : IsDay year' month' day')
    (he : Earlier year month day year' month' day') : daysFromCivil year month day < daysFromCivil year' month' day' := by
  have ⟨h₀, hl⟩ := h.lt_yearStart
  have ⟨h₀', hl'⟩ := h'.lt_yearStart
  have hd := h.inMonth
  have hd' := h'.inMonth
  rw [daysFromCivil_eq, daysFromCivil_eq]
  have hm := h.inYear
  have hm' := h'.inYear
  have hlex : marchYear year month < marchYear year' month' ∨ marchYear year month = marchYear year' month' ∧
      (marchMonth month < marchMonth month' ∨ marchMonth month = marchMonth month' ∧ day < day') := by
    rw [Earlier] at he
    simp only [marchYear, marchMonth]
    split_ifs <;> omega
  rcases hlex with hy | ⟨hy, hm | ⟨hm, hd⟩⟩
  · have := yearStart_mono hy
    omega
  · have := h.lt_monthStart hm
    rw [hy] at *
    omega
  · rw [hy, hm]
    omega

-- The numbers of the days are in chronological order.
theorem daysFromCivil_lt_iff (h : IsDay year month day) (h' : IsDay year' month' day') :
    daysFromCivil year month day < daysFromCivil year' month' day' ↔ Earlier year month day year' month' day' := by
  refine ⟨fun hlt => ?_, daysFromCivil_lt h h'⟩
  by_contra he
  by_cases heq : year = year' ∧ month = month' ∧ day = day'
  · obtain ⟨rfl, rfl, rfl⟩ := heq
    exact lt_irrefl _ hlt
  · refine lt_asymm hlt <| daysFromCivil_lt h' h ?_
    rw [Earlier] at he ⊢
    omega

theorem daysFromCivil_inj (h : IsDay year month day) (h' : IsDay year' month' day')
    (he : daysFromCivil year month day = daysFromCivil year' month' day') :
    year = year' ∧ month = month' ∧ day = day' := by
  have h₁ := mt (daysFromCivil_lt_iff h h').mpr he.not_lt
  have h₂ := mt (daysFromCivil_lt_iff h' h).mpr he.not_gt
  rw [Earlier] at h₁ h₂
  omega

theorem leap_of_last {doe yoe era : ℤ} (h₀ : 0 ≤ doe) (h : doe ≤ 146096)
    (hy : yoe = (doe - doe / 1460 + doe / 36524 - doe / 146096) / 365)
    (hl : doe - (365 * yoe + yoe / 4 - yoe / 100) = 365) : IsLeap (yoe + 400 * era + 1) := by
  obtain ⟨hy₀, hy₁, -, -⟩ := yearOfEra_spec h₀ h hy
  have h3 : yoe / 100 = 0 ∨ yoe / 100 = 1 ∨ yoe / 100 = 2 ∨ yoe / 100 = 3 := by omega
  have m4 : (yoe + 400 * era + 1) % 4 = (yoe + 1) % 4 := by omega
  have m100 : (yoe + 400 * era + 1) % 100 = (yoe + 1) % 100 := by omega
  have m400 : (yoe + 400 * era + 1) % 400 = (yoe + 1) % 400 := by omega
  rw [IsLeap, m4, m100, m400]
  clear m4 m100 m400
  by_contra hn
  by_cases hr : yoe % 4 = 3
  case pos =>
    have hyoe : yoe = 99 ∨ yoe = 199 ∨ yoe = 299 := by omega
    rcases hyoe with h | h | h <;> rw [h] at hl hy <;> omega
  case neg =>
    have hq : doe / 1460 = yoe / 4 := by omega
    have hc : yoe / 100 ≤ doe / 36524 := by omega
    have hz : doe / 146096 = 0 ∨ doe = 146096 := by omega
    have hlt : doe - doe / 1460 + doe / 36524 - doe / 146096 < 365 * yoe + 365 := by omega
    omega

-- The day of a number of days exists.
theorem isDay_civilFromDays (d : ℤ) : IsDay (civilFromDays d).1 (civilFromDays d).2.1 (civilFromDays d).2.2 := by
  have c := (civil d).inYear
  have c' := (civil d).inMonth
  refine ⟨c, c'.left, ?_⟩
  clear c c'
  simp only [civilFromDays]
  generalize hz : d + 719468 = z
  generalize he : z / 146097 = era
  generalize hd : z - 146097 * era = doe
  generalize hy : (doe - doe / 1460 + doe / 36524 - doe / 146096) / 365 = yoe
  obtain ⟨hy₀, hy₁, hl, hu⟩ := yearOfEra_spec (by omega) (by omega) hy.symm
  have hleap : doe - (365 * yoe + yoe / 4 - yoe / 100) = 365 → IsLeap (yoe + 400 * era + 1) :=
    leap_of_last (by omega) (by omega) hy.symm
  generalize ho : doe - (365 * yoe + yoe / 4 - yoe / 100) = doy at *
  generalize hm : (5 * doy + 2) / 153 = mp
  have hdoy : 0 ≤ doy ∧ doy ≤ 365 := by omega
  have hmp : mp = 0 ∨ mp = 1 ∨ mp = 2 ∨ mp = 3 ∨ mp = 4 ∨ mp = 5 ∨ mp = 6 ∨ mp = 7 ∨ mp = 8 ∨ mp = 9 ∨ mp = 10 ∨
    mp = 11 := by omega
  rcases hmp with rfl | rfl | rfl | rfl | rfl | rfl | rfl | rfl | rfl | rfl | rfl | rfl
  case inr.inr.inr.inr.inr.inr.inr.inr.inr.inr.inr =>
    norm_num [monthLength]
    by_cases h : doy = 365
    · rw [if_pos (hleap h)]
      omega
    · split_ifs <;> omega
  all_goals
    norm_num [monthLength]
    omega

end

end Instant
