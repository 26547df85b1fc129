import Verifyhash.Data.Decimals
import Verifyhash.Data.Gregorian

-- The instants which texts denote, in the grammar of the pattern.
namespace Instant

open Json

def yearOf (s : JsString) : ℤ :=
  part s 0 4

def monthOf (s : JsString) : ℤ :=
  part s 5 2

def dayOf (s : JsString) : ℤ :=
  part s 8 2

def hourOf (s : JsString) : ℤ :=
  part s 11 2

def minuteOf (s : JsString) : ℤ :=
  part s 14 2

def secondOf (s : JsString) : ℤ :=
  part s 17 2

-- A text of a whole second has no milliseconds.
def milliOf (s : JsString) : ℤ :=
  if s.length = 24 then part s 20 3 else 0

-- A text of the grammar whose fields are those of a real instant.
structure Denotes (s : JsString) : Prop where
  grammar : isInstant s
  isDay   : IsDay (yearOf s) (monthOf s) (dayOf s)
  hour    : hourOf s ≤ 23
  minute  : minuteOf s ≤ 59
  second  : secondOf s ≤ 59

-- The milliseconds since midnight.
def timeOfDay (s : JsString) : ℤ :=
  3600000 * hourOf s + 60000 * minuteOf s + 1000 * secondOf s + milliOf s

-- The milliseconds since 1970-01-01T00:00:00Z.
def epochOf (s : JsString) : ℤ :=
  86400000 * daysFromCivil (yearOf s) (monthOf s) (dayOf s) + timeOfDay s

-- The chronological order: by the day, and then by the time of the day.
def Before (s s' : JsString) : Prop :=
  Earlier (yearOf s) (monthOf s) (dayOf s) (yearOf s') (monthOf s') (dayOf s') ∨
    (yearOf s = yearOf s' ∧ monthOf s = monthOf s' ∧ dayOf s = dayOf s') ∧ timeOfDay s < timeOfDay s'

section

variable {s s' : JsString} {ms : ℤ}

theorem part_nonneg (s : JsString) (start len : ℕ) : 0 ≤ part s start len :=
  Int.natCast_nonneg _

theorem digitsText_digitsValue (h : ∀ u ∈ s, isDigit u) :
    digitsText (Numeral.digits 10 s.length (digitsValue s)) = s := by
  have hd {u : UInt16} (hu : isDigit u) : u.toNat - 48 < 10 ∧ digitUnit (u.toNat - 48) = u := by
    simp only [isDigit, decide_eq_true_eq, UInt16.le_iff_toNat_le, UInt16.reduceToNat] at hu
    refine ⟨by omega, ?_⟩
    rw [digitUnit, Nat.add_sub_cancel' hu.left, UInt16.ofNat_toNat]
  have hm : ∀ d ∈ s.map fun u => u.toNat - 48, d < 10 := by
    intro d hm
    obtain ⟨u, hu, rfl⟩ := List.mem_map.mp hm
    exact (hd <| h u hu).left
  have hs := Numeral.digits_value hm
  rw [List.length_map] at hs
  rw [digitsValue, hs, digitsText, List.map_map]
  exact (List.map_congr_left fun u hu => (hd <| h u hu).right).trans <| List.map_id s

-- The digits of the text from a position on, and what follows them.
theorem drop_eq_pad (h : fits pattern s) (k n : ℕ) (hp : ((js pattern).drop k).take n = .replicate n 100) :
    s.drop k = pad n (part s k n) ++ s.drop (k + n) := by
  obtain ⟨hd, hl⟩ := isDigits_take h k n hp
  have ht := digitsText_digitsValue hd
  rw [hl] at ht
  have hv : pad n (part s k n) = (s.drop k).take n := by
    rw [pad, part, Int.toNat_natCast]
    exact ht
  rw [hv, ←List.drop_drop, List.take_append_drop]

theorem part_lt (h : fits pattern s) (k n : ℕ) (hp : ((js pattern).drop k).take n = .replicate n 100) :
    part s k n < 10 ^ n := by
  obtain ⟨hd, hl⟩ := isDigits_take h k n hp
  have := digitsValue_lt hd
  rw [hl] at this
  rw [part]
  exact_mod_cast this

-- What is accepted as a canonical text denotes a real instant, with milliseconds.
theorem denotes_of_canonical (h : canonical? s = some ms) : s.length = 24 ∧ Denotes s ∧ epochOf s = ms := by
  obtain ⟨hi, rfl⟩ := canonical?_eq_some.mp h
  have hr := (isInstant_toISOString ms).mp hi
  have c := civil (ms / 86400000)
  have hday := isDay_civilFromDays (ms / 86400000)
  generalize hs : toISOString ms = s at hi
  rw [toISOString] at hs
  generalize civilFromDays (ms / 86400000) = date at c hs hday
  obtain ⟨year, month, day⟩ := date
  have hy : 0 ≤ year ∧ year ≤ 9999 := ⟨c.early.mpr (by omega), c.late.mpr (by omega)⟩
  simp only [if_pos hy] at hs
  have p := parts hy c.inYear c.inMonth (by omega) hs.symm
  have hdays := c.isDay
  simp only at hdays hday
  have hm : milliOf s = ms % 86400000 % 1000 := by rw [milliOf, if_pos p.length, p.milli]
  have hyear : yearOf s = year := p.year
  have hmonth : monthOf s = month := p.month
  have hd : dayOf s = day := p.day
  have hhour : hourOf s = _ := p.hour
  have hmin : minuteOf s = _ := p.minute
  have hsec : secondOf s = _ := p.second
  refine ⟨p.length, ⟨hi, ?_, by omega, by omega, by omega⟩, ?_⟩
  · rw [hyear, hmonth, hd]
    exact hday
  · rw [epochOf, timeOfDay, hyear, hmonth, hd, hdays, hhour, hmin, hsec, hm]
    omega

theorem Denotes.timeOfDay_bounds (h : Denotes s) : 0 ≤ timeOfDay s ∧ timeOfDay s < 86400000 ∧ milliOf s < 1000 ∧
    0 ≤ milliOf s := by
  have hh : 0 ≤ hourOf s := part_nonneg ..
  have hm : 0 ≤ minuteOf s := part_nonneg ..
  have hs : 0 ≤ secondOf s := part_nonneg ..
  have hh' := h.hour
  have hm' := h.minute
  have hs' := h.second
  have hms : 0 ≤ milliOf s ∧ milliOf s < 1000 := by
    rw [milliOf]
    split_ifs with hl
    · refine ⟨part_nonneg .., ?_⟩
      have hg := h.grammar
      rw [isInstant, decide_eq_true_eq] at hg
      rcases hg with hg | hg
      · rw [fits, decide_eq_true_eq, hl] at hg
        exact absurd hg.left (by decide)
      · exact part_lt hg 20 3 (by decide)
    · omega
  rw [timeOfDay]
  omega

-- A real instant with milliseconds is accepted.
theorem Denotes.canonical (h : Denotes s) (hl : s.length = 24) : canonical? s = some (epochOf s) := by
  obtain ⟨h₀, h₁, hms₁, hms₀⟩ := h.timeOfDay_bounds
  have hf : fits "dddd-dd-ddTdd:dd:dd.dddZ" s := by
    have hg := h.grammar
    rw [isInstant, decide_eq_true_eq] at hg
    refine hg.resolve_left fun hg => ?_
    rw [fits, decide_eq_true_eq, hl] at hg
    exact absurd hg.left (by decide)
  have hd : epochOf s / 86400000 = daysFromCivil (yearOf s) (monthOf s) (dayOf s) := by
    rw [epochOf]
    omega
  have hr : epochOf s % 86400000 = timeOfDay s := by
    rw [epochOf]
    omega
  have hc : civilFromDays (epochOf s / 86400000) = (yearOf s, monthOf s, dayOf s) := by
    have := daysFromCivil_inj (isDay_civilFromDays _) h.isDay <| (civil _).isDay.trans hd
    exact Prod.ext this.left <| Prod.ext this.right.left this.right.right
  have hy : 0 ≤ yearOf s ∧ yearOf s ≤ 9999 :=
    ⟨part_nonneg .., Int.le_of_lt_add_one <| part_lt hf 0 4 (by decide)⟩
  have hh' := h.hour
  have hm' := h.minute
  have hs' := h.second
  have hh₀ : 0 ≤ hourOf s := part_nonneg ..
  have hm₀ : 0 ≤ minuteOf s := part_nonneg ..
  have hs₀ : 0 ≤ secondOf s := part_nonneg ..
  have ht : timeOfDay s / 3600000 = hourOf s ∧ timeOfDay s / 60000 % 60 = minuteOf s ∧
      timeOfDay s / 1000 % 60 = secondOf s ∧ timeOfDay s % 1000 = milliOf s := by
    rw [timeOfDay]
    omega
  have hmilli : milliOf s = part s 20 3 := if_pos hl
  refine canonical?_eq_some.mpr ⟨h.grammar, ?_⟩
  rw [toISOString, hc, hr]
  simp only [if_pos hy, ht.left, ht.right.left, ht.right.right.left, ht.right.right.right, hmilli]
  have hlit {i : ℕ} {p : UInt16} (hp : (js "dddd-dd-ddTdd:dd:dd.dddZ")[i]? = some p) (hd : p ≠ 100) :
      s.drop i = p :: s.drop (i + 1) := drop_of_fits hf hp hd
  have h4 : s.drop 4 = 45 :: s.drop 5 := hlit rfl (by decide)
  have h7 : s.drop 7 = 45 :: s.drop 8 := hlit rfl (by decide)
  have h10 : s.drop 10 = 84 :: s.drop 11 := hlit rfl (by decide)
  have h13 : s.drop 13 = 58 :: s.drop 14 := hlit rfl (by decide)
  have h16 : s.drop 16 = 58 :: s.drop 17 := hlit rfl (by decide)
  have h19 : s.drop 19 = 46 :: s.drop 20 := hlit rfl (by decide)
  have h23 : s.drop 23 = 90 :: s.drop 24 := hlit rfl (by decide)
  rw [List.drop_of_length_le hl.le] at h23
  have hs : s = pad 4 (part s 0 4) ++ 45 :: (pad 2 (part s 5 2) ++ 45 :: (pad 2 (part s 8 2) ++ 84 ::
      (pad 2 (part s 11 2) ++ 58 :: (pad 2 (part s 14 2) ++ 58 :: (pad 2 (part s 17 2) ++ 46 ::
        (pad 3 (part s 20 3) ++ [90])))))) := by
    rw [←h23, ←drop_eq_pad hf 20 3 (by decide), ←h19, ←drop_eq_pad hf 17 2 (by decide), ←h16,
      ←drop_eq_pad hf 14 2 (by decide), ←h13, ←drop_eq_pad hf 11 2 (by decide), ←h10,
      ←drop_eq_pad hf 8 2 (by decide), ←h7, ←drop_eq_pad hf 5 2 (by decide), ←h4,
      ←drop_eq_pad hf 0 4 (by decide), List.drop_zero]
  simp only [List.append_assoc]
  exact hs

-- Among real instants, the chronological order is the order of the milliseconds.
theorem Denotes.epochOf_lt_iff (h : Denotes s) (h' : Denotes s') : epochOf s < epochOf s' ↔ Before s s' := by
  obtain ⟨h₀, h₁, -⟩ := h.timeOfDay_bounds
  obtain ⟨h₀', h₁', -⟩ := h'.timeOfDay_bounds
  rw [Before, ←daysFromCivil_lt_iff h.isDay h'.isDay, epochOf, epochOf]
  constructor
  · intro hlt
    rcases lt_trichotomy (daysFromCivil (yearOf s) (monthOf s) (dayOf s))
        (daysFromCivil (yearOf s') (monthOf s') (dayOf s')) with hd | hd | hd
    · exact .inl hd
    · exact .inr ⟨daysFromCivil_inj h.isDay h'.isDay hd, by omega⟩
    · omega
  · rintro (hd | ⟨⟨hy, hm, hd⟩, ht⟩)
    · omega
    · rw [hy, hm, hd]
      omega

end

end Instant
