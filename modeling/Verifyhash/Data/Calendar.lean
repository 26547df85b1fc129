import Verifyhash.Data.Instant

-- The texts of the instants: each day has one civil date, and each instant one canonical text.
namespace Instant

open Json

theorem yearOfEra_spec {doe yoe : ℤ} (h₀ : 0 ≤ doe) (h : doe ≤ 146096)
    (hy : yoe = (doe - doe / 1460 + doe / 36524 - doe / 146096) / 365) :
    0 ≤ yoe ∧ yoe ≤ 399 ∧ 365 * yoe + yoe / 4 - yoe / 100 ≤ doe ∧ doe ≤ 365 * yoe + yoe / 4 - yoe / 100 + 365 := by
  have h1 : doe / 36524 = 0 ∨ doe / 36524 = 1 ∨ doe / 36524 = 2 ∨ doe / 36524 = 3 ∨ doe / 36524 = 4 := by omega
  have h3 : yoe / 100 = 0 ∨ yoe / 100 = 1 ∨ yoe / 100 = 2 ∨ yoe / 100 = 3 := by omega
  refine ⟨by omega, by omega, ?_, ?_⟩
  · omega
  · omega

-- What the parts of a day are.
structure Civil (days year month day : ℤ) : Prop where
  inYear : 1 ≤ month ∧ month ≤ 12
  inMonth : 1 ≤ day ∧ day ≤ 31
  isDay : daysFromCivil year month day = days
  late  : year ≤ 9999 ↔ days ≤ 2932896
  early : 0 ≤ year ↔ -719528 ≤ days

theorem civil (d : ℤ) : Civil d (civilFromDays d).1 (civilFromDays d).2.1 (civilFromDays d).2.2 := by
  simp only [civilFromDays]
  generalize hz : d + 719468 = z
  generalize he : z / 146097 = era
  generalize hd : z - 146097 * era = doe
  generalize hy : (doe - doe / 1460 + doe / 36524 - doe / 146096) / 365 = yoe
  have ⟨hy₀, hy₁, hl, hu⟩ := yearOfEra_spec (by omega) (by omega) hy.symm
  generalize ho : doe - (365 * yoe + yoe / 4 - yoe / 100) = doy at *
  generalize hm : (5 * doy + 2) / 153 = mp
  have hdoy : 0 ≤ doy ∧ doy ≤ 365 := by omega
  have hmp : 0 ≤ mp ∧ mp ≤ 11 := by omega
  have hmonth : (if mp < 10 then mp + 3 else mp - 9) ≤ 2 ↔ 10 ≤ mp := by split_ifs <;> omega
  have hfrom : daysFromCivil (yoe + 400 * era + if (if mp < 10 then mp + 3 else mp - 9) ≤ 2 then 1 else 0)
      (if mp < 10 then mp + 3 else mp - 9) (doy - (153 * mp + 2) / 5 + 1) = d := by
    simp only [daysFromCivil, hmonth]
    by_cases h : 10 ≤ mp
    · have h' : ¬ mp < 10 := by omega
      simp only [if_pos h, if_neg h']
      have hera : (yoe + 400 * era + 1 - 1) / 400 = era := by omega
      have hyoe : yoe + 400 * era + 1 - 1 - 400 * era = yoe := by omega
      rw [hera, hyoe, if_neg (show ¬ mp - 9 > 2 by omega), sub_add_cancel]
      omega
    · have h' : mp < 10 := by omega
      simp only [if_neg h, if_pos h']
      have hera : (yoe + 400 * era + 0) / 400 = era := by omega
      have hyoe : yoe + 400 * era + 0 - 400 * era = yoe := by omega
      rw [hera, hyoe, if_pos (show mp + 3 > 2 by omega), add_sub_cancel_right]
      omega
  refine ⟨?_, ?_, hfrom, ?_, ?_⟩
  · split_ifs <;> omega
  · omega
  · simp only [hmonth]
    have h399 : yoe = 399 ∨ yoe ≤ 398 := by omega
    have hera : era ≤ 23 ∨ era = 24 ∨ 25 ≤ era := by omega
    split_ifs <;> rcases h399 with rfl | h399 <;> rcases hera with hera | rfl | hera <;> omega
  · simp only [hmonth]
    have hera : era ≤ -2 ∨ era = -1 ∨ 0 ≤ era := by omega
    have h399 : yoe = 399 ∨ yoe ≤ 398 := by omega
    split_ifs <;> rcases h399 with rfl | h399 <;> rcases hera with hera | rfl | hera <;> omega

section

variable {n : ℤ}

@[simp]
theorem length_pad : (pad len n).length = len := by
  simp [pad]

theorem digitsValue_pad (h₀ : 0 ≤ n) (h : n < 10 ^ len) : (digitsValue (pad len n) : ℤ) = n := by
  have hn : n.toNat < 10 ^ len := by
    have : ((10 ^ len : ℕ) : ℤ) = 10 ^ len := by push_cast; rfl
    omega
  rw [pad, digitsValue_digitsText fun d hd => Numeral.digits_lt (by omega) hd, Numeral.value_digits hn,
    Int.toNat_of_nonneg h₀]

theorem part_pad (h₀ : 0 ≤ n) (h : n < 10 ^ len) : part (pad len n ++ s) 0 len = n := by
  rw [part, List.drop_zero, List.take_left' length_pad, digitsValue_pad h₀ h]

theorem part_append (hf : front.length = k) : part (front ++ s) (k + i) len = part s i len := by
  rw [part, part, ←List.drop_drop, List.drop_left' hf]

theorem isDigit_pad (d : ℕ) : isDigit (digitUnit (d % 10)) :=
  (digitUnit_spec <| Nat.mod_lt d (by omega)).left

end

-- A text whose year has a sign is not of the pattern.
theorem not_isInstant_of_sign (hu : ¬ isDigit u) : ¬ isInstant (u :: s) := by
  rw [isInstant, decide_eq_true_eq]
  rintro (h | h) <;>
  · rw [fits, decide_eq_true_eq] at h
    have := h.right
    simp [js, hu] at this

theorem isInstant_toISOString (ms : ℤ) :
    isInstant (toISOString ms) ↔ -62167219200000 ≤ ms ∧ ms ≤ 253402300799999 := by
  have c := civil (ms / 86400000)
  rw [toISOString]
  generalize civilFromDays (ms / 86400000) = date at c
  obtain ⟨year, month, day⟩ := date
  have hl := c.late
  have he := c.early
  simp only at hl he ⊢
  by_cases h : 0 ≤ year ∧ year ≤ 9999
  case pos =>
    rw [if_pos h]
    refine iff_of_true ?_ (by omega)
    rw [isInstant, decide_eq_true_eq]
    right
    simp [fits, pad, Numeral.digits, digitsText, js, isDigit_pad]
  case neg =>
    rw [if_neg h]
    refine iff_of_false ?_ (by omega)
    split_ifs <;>
    · simp only [List.append_assoc]
      exact not_isInstant_of_sign (by decide)

-- The parts of a text of the pattern.
structure Parts (s : JsString) (year month day rest : ℤ) : Prop where
  year   : part s 0 4 = year
  month  : part s 5 2 = month
  day    : part s 8 2 = day
  hour   : part s 11 2 = rest / 3600000
  minute : part s 14 2 = rest / 60000 % 60
  second : part s 17 2 = rest / 1000 % 60
  milli  : part s 20 3 = rest % 1000
  length : s.length = 24

theorem parts {year month day rest : ℤ} (hy : 0 ≤ year ∧ year ≤ 9999) (hm : 1 ≤ month ∧ month ≤ 12)
    (hd : 1 ≤ day ∧ day ≤ 31) (hr : 0 ≤ rest ∧ rest < 86400000)
    (hs : s = pad 4 year ++ js "-" ++ pad 2 month ++ js "-" ++ pad 2 day ++ js "T" ++ pad 2 (rest / 3600000) ++
      js ":" ++ pad 2 (rest / 60000 % 60) ++ js ":" ++ pad 2 (rest / 1000 % 60) ++ js "." ++ pad 3 (rest % 1000) ++
      js "Z") : Parts s year month day rest := by
  have hh : (js "-").length = 1 := rfl
  have ht : (js "T").length = 1 := rfl
  have hc : (js ":").length = 1 := rfl
  have hp : (js ".").length = 1 := rfl
  have hz : (js "Z").length = 1 := rfl
  simp only [List.append_assoc] at hs
  have hyear : part s 0 4 = year := by
    rw [hs, part_pad hy.left (by omega)]
  have hmonth : part s 5 2 = month := by
    show part s (4 + (1 + 0)) 2 = month
    rw [hs, part_append length_pad, part_append hh, part_pad (by omega) (by omega)]
  have hday : part s 8 2 = day := by
    show part s (4 + (1 + (2 + (1 + 0)))) 2 = day
    rw [hs, part_append length_pad, part_append hh, part_append length_pad, part_append hh,
      part_pad (by omega) (by omega)]
  have hhour : part s 11 2 = rest / 3600000 := by
    show part s (4 + (1 + (2 + (1 + (2 + (1 + 0)))))) 2 = rest / 3600000
    rw [hs, part_append length_pad, part_append hh, part_append length_pad, part_append hh,
      part_append length_pad, part_append ht, part_pad (by omega) (by omega)]
  have hminute : part s 14 2 = rest / 60000 % 60 := by
    show part s (4 + (1 + (2 + (1 + (2 + (1 + (2 + (1 + 0)))))))) 2 = rest / 60000 % 60
    rw [hs, part_append length_pad, part_append hh, part_append length_pad, part_append hh,
      part_append length_pad, part_append ht, part_append length_pad, part_append hc,
      part_pad (by omega) (by omega)]
  have hsecond : part s 17 2 = rest / 1000 % 60 := by
    show part s (4 + (1 + (2 + (1 + (2 + (1 + (2 + (1 + (2 + (1 + 0)))))))))) 2 = rest / 1000 % 60
    rw [hs, part_append length_pad, part_append hh, part_append length_pad, part_append hh,
      part_append length_pad, part_append ht, part_append length_pad, part_append hc,
      part_append length_pad, part_append hc, part_pad (by omega) (by omega)]
  have hmilli : part s 20 3 = rest % 1000 := by
    show part s (4 + (1 + (2 + (1 + (2 + (1 + (2 + (1 + (2 + (1 + (2 + (1 + 0)))))))))))) 3 = rest % 1000
    rw [hs, part_append length_pad, part_append hh, part_append length_pad, part_append hh,
      part_append length_pad, part_append ht, part_append length_pad, part_append hc,
      part_append length_pad, part_append hc, part_append length_pad, part_append hp,
      part_pad (by omega) (by omega)]
  have hlen : s.length = 24 := by
    rw [hs]
    simp [hh, ht, hc, hp, hz]
  exact ⟨hyear, hmonth, hday, hhour, hminute, hsecond, hmilli, hlen⟩

theorem parse_toISOString {ms : ℤ} (h : isInstant (toISOString ms)) : parse (toISOString ms) = some ms := by
  have hr := (isInstant_toISOString ms).mp h
  have c := civil (ms / 86400000)
  generalize hs : toISOString ms = s at h
  rw [toISOString] at hs
  generalize civilFromDays (ms / 86400000) = date at c hs
  obtain ⟨year, month, day⟩ := date
  have hy : 0 ≤ year ∧ year ≤ 9999 := ⟨c.early.mpr (by omega), c.late.mpr (by omega)⟩
  simp only [if_pos hy] at hs
  have p := parts hy c.inYear c.inMonth (by omega) hs.symm
  have hm := c.inYear
  have hd := c.inMonth
  have hdays := c.isDay
  simp only at hm hd hdays
  rw [parse, h]
  simp only [p.year, p.month, p.day, p.hour, p.minute, p.second, p.milli, p.length, if_pos, hdays]
  have hdate : 1 ≤ month ∧ month ≤ 12 ∧ 1 ≤ day ∧ day ≤ 31 := ⟨hm.left, hm.right, hd⟩
  rw [guard, if_pos trivial, guard, if_pos hdate, guard, if_pos (by omega)]
  exact congrArg some (by omega)

theorem canonical?_toISOString (ms : ℤ) : canonical? (toISOString ms) =
    if -62167219200000 ≤ ms ∧ ms ≤ 253402300799999 then some ms else none := by
  rw [canonical?]
  split_ifs with h
  case pos =>
    rw [parse_toISOString <| (isInstant_toISOString ms).mpr h]
    simp
  case neg =>
    have hi : isInstant (toISOString ms) = false := by simpa [h] using isInstant_toISOString ms
    rw [parse, hi]
    rfl

-- What a canonical text is.
theorem canonical?_eq_some : canonical? s = some ms ↔ isInstant s ∧ s = toISOString ms := by
  constructor
  case mp =>
    intro h
    obtain ⟨hp, hc⟩ := Option.filter_eq_some_iff.mp h
    refine ⟨?_, (of_decide_eq_true hc).symm⟩
    rw [parse] at hp
    by_contra hi
    simp [hi] at hp
  case mpr =>
    rintro ⟨hi, hs⟩
    rw [hs] at hi ⊢
    rw [canonical?_toISOString, if_pos <| (isInstant_toISOString ms).mp hi]

end Instant
