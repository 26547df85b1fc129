import Verifyhash.Data.Moments
import Verifyhash.Library.Fallible
import Verifyhash.Library.RoundingError
import Verifyhash.Timestamp.Der

-- The instants which the times of tokens stand for.
namespace Rfc3161

open Fallible Instant Json

-- The fraction of a second which is written in a text.
def fractionOf (raw : JsString) : ℚ :=
  match fraction? raw with
  | none      => 0
  | some frac => digitsValue frac / 10 ^ frac.length

-- The fields of a text are those of an instant which exists.
structure RealTime (raw : JsString) : Prop where
  day    : IsDay (part raw 0 4) (part raw 4 2) (part raw 6 2)
  hour   : part raw 8 2 ≤ 23
  minute : part raw 10 2 ≤ 59
  second : part raw 12 2 ≤ 59

-- The instant which a text spells, truncated to the millisecond.
def instantOf (raw : JsString) : ℤ :=
  86400000 * daysFromCivil (part raw 0 4) (part raw 4 2) (part raw 6 2) + 3600000 * part raw 8 2 +
    60000 * part raw 10 2 + 1000 * part raw 12 2 + ⌊1000 * fractionOf raw⌋

-- The same instant in the format of ISO 8601.
def isoOf (raw : JsString) : JsString :=
  raw.take 4 ++ js "-" ++ (raw.drop 4).take 2 ++ js "-" ++ (raw.drop 6).take 2 ++ js "T" ++ (raw.drop 8).take 2 ++
    js ":" ++ (raw.drop 10).take 2 ++ js ":" ++ (raw.drop 12).take 2 ++ raw.drop 14

-- The time which is returned is the instant which the text spells.
structure Faithful (raw : JsString) (t : GenTime) : Prop where
  real    : RealTime raw
  iso     : t.iso = isoOf raw
  epochMs : t.epochMs = instantOf raw

-- A thousand times the fraction, as doubles compute it, is less than a half above its whole part.
def RoundsDown (raw : JsString) : Prop :=
  ∀ q ∈ Double.round (fractionOf raw), ∀ r ∈ Double.round (q * 1000), r < ⌊1000 * fractionOf raw⌋ + 1 / 2

-- The day is one of its month, the second is not a leap second, the year is not one of those which are
-- taken for years of the twentieth century, and the fraction is not rounded up.
structure Ordinary (raw : JsString) : Prop where
  day      : part raw 6 2 ≤ monthLength (part raw 0 4) (part raw 4 2)
  second   : part raw 12 2 ≤ 59
  year     : 100 ≤ part raw 0 4
  fraction : RoundsDown raw

-- The bytes at the positions are decoded faithfully, if they are accepted.
def DecodesFaithfully (buf : Bytes) (valStart valEnd : ℕ) : Prop :=
  ∀ bytes t, slice buf valStart valEnd = .ok bytes → decodeGeneralizedTime buf valStart valEnd = .ok t →
    Faithful (asciiText bytes) t

section

variable {raw : JsString} {t : GenTime} {buf : Bytes} {valStart valEnd : ℕ}

theorem throwIf_eq_ok {c : Prop} [Decidable c] {m : JsString} {u : PUnit} : throwIf c m = .ok u ↔ ¬ c := by
  rw [throwIf]
  split_ifs with h <;> simp [derError, h]

theorem derError_ne_ok {m : JsString} {a : α} : derError m ≠ .ok a :=
  nofun

-- The two forms of a text which passes the test.
theorem isGenTime_cases (h : isGenTime raw) : (raw.length = 15 ∧ raw.drop 14 = js "Z") ∨
    ∃ frac, raw.length ≠ 15 ∧ fraction? raw = some frac ∧ (∀ u ∈ frac, isDigit u) ∧
      raw.drop 14 = js "." ++ frac ++ js "Z" := by
  simp only [isGenTime, decide_eq_true_eq] at h
  obtain ⟨hl, _, hz | ⟨hp, hn, hd, hz⟩⟩ := h
  case inl =>
    refine .inl ⟨?_, hz⟩
    have := congrArg List.length hz
    simp only [List.length_drop] at this
    have h₁ : (js "Z").length = 1 := rfl
    omega
  case inr =>
    rw [List.length_drop] at hn
    have hd' : (raw.drop 14).drop 1 = raw.drop 15 := List.drop_drop
    refine .inr ⟨(raw.drop 15).dropLast, by omega, by rw [fraction?, if_neg (by omega)], ?_, ?_⟩
    · rw [hd'] at hd
      exact List.all_eq_true.mp hd
    · have hne : raw.drop 15 ≠ [] := List.ne_nil_of_length_pos <| by
        rw [List.length_drop]
        omega
      have hlast : (raw.drop 15).getLast? = some 90 := by
        rw [←hd', List.getLast?_drop, if_neg (by rw [List.length_drop]; omega)]
        exact hz
      have hsplit : (raw.drop 15).dropLast ++ js "Z" = raw.drop 15 := by
        have := List.dropLast_append_getLast hne
        rw [List.getLast?_eq_some_getLast hne, Option.some_inj] at hlast
        rw [hlast] at this
        exact this
      rw [List.append_assoc, hsplit, ←hd', ←hp, List.take_append_drop]

-- A field of a text which passes the test, which is printed as it was written.
theorem pad_part (h : isGenTime raw) {k n : ℕ} (hk : k + n ≤ 14) : pad n (part raw k n) = (raw.drop k).take n := by
  simp only [isGenTime, decide_eq_true_eq] at h
  obtain ⟨hl, hd, _⟩ := h
  rw [List.length_take] at hl
  have hlen : ((raw.drop k).take n).length = n := by
    rw [List.length_take, List.length_drop]
    omega
  have hdig : ∀ u ∈ (raw.drop k).take n, isDigit u := fun u hu => by
    have ht : (raw.drop k).take n = ((raw.take 14).drop k).take n := by
      rw [List.drop_take, List.take_take, Nat.min_eq_left (by omega)]
    rw [ht] at hu
    exact List.all_eq_true.mp hd u <| List.mem_of_mem_drop <| List.mem_of_mem_take hu
  have := digitsText_digitsValue hdig
  rw [hlen] at this
  rw [pad, part, Int.toNat_natCast]
  exact this

-- The milliseconds are the whole ones which are written, or one more, and this if and only if the
-- fraction is not rounded down.
theorem milliseconds_spec {frac : JsString} {ms : ℤ} (hd : ∀ u ∈ frac, isDigit u) (h : milliseconds frac = some ms) :
    (ms = ⌊1000 * (digitsValue frac / 10 ^ frac.length : ℚ)⌋ ∨
      ms = ⌊1000 * (digitsValue frac / 10 ^ frac.length : ℚ)⌋ + 1) ∧
    (ms = ⌊1000 * (digitsValue frac / 10 ^ frac.length : ℚ)⌋ ↔
      ∀ q ∈ Double.round (digitsValue frac / 10 ^ frac.length), ∀ r ∈ Double.round (q * 1000),
        r < ⌊1000 * (digitsValue frac / 10 ^ frac.length : ℚ)⌋ + 1 / 2) := by
  simp only [milliseconds, Option.bind_eq_bind, Option.bind_eq_some_iff, Option.pure_def, Option.some_inj] at h
  obtain ⟨q, hq, r, hr, rfl⟩ := h
  have hf₀ : 0 ≤ (digitsValue frac / 10 ^ frac.length : ℚ) := by positivity
  have hf₁ : (digitsValue frac / 10 ^ frac.length : ℚ) < 1 := by
    rw [div_lt_one (by positivity)]
    exact_mod_cast digitsValue_lt hd
  simp only [hq, Option.mem_def, Option.some_inj, forall_eq', hr]
  generalize (digitsValue frac / 10 ^ frac.length : ℚ) = f at hf₀ hf₁ hq
  have h₁ := Double.abs_round_sub_lt (by rw [abs_of_nonneg hf₀]; linarith) hq
  have ⟨h₁, h₁'⟩ := abs_lt.mp h₁
  have hb : |q * 1000| < 2 ^ 10 := by
    rw [abs_lt]
    constructor <;> linarith
  have ⟨h₂, h₂'⟩ := abs_lt.mp <| Double.abs_round_sub_lt hb hr
  have hm := Int.floor_le (1000 * f)
  have hm' := Int.lt_floor_add_one (1000 * f)
  generalize ⌊1000 * f⌋ = m at hm hm'
  constructor
  case left =>
    have hl : m ≤ ⌊r + 1 / 2⌋ := Int.le_floor.mpr <| by linarith
    have hu : ⌊r + 1 / 2⌋ < m + 2 := Int.floor_lt.mpr <| by
      push_cast
      linarith
    omega
  case right =>
    rw [Int.floor_eq_iff]
    constructor
    · rintro ⟨_, h⟩
      linarith
    · intro h
      constructor <;> linarith

-- The years which `Date.UTC` takes for others are far away from these.
theorem daysFromCivil_ne {year month day : ℤ} :
    daysFromCivil (1900 + year) month day ≠ daysFromCivil year month day := by
  simp only [daysFromCivil_eq, yearStart, marchYear]
  split_ifs <;> omega

theorem dateUTC_eq_some {year month day hour min sec ms epoch : ℤ}
    (h : dateUTC year month day hour min sec ms = some epoch) :
    epoch = 86400000 * daysFromCivil (if 0 ≤ year ∧ year ≤ 99 then 1900 + year else year) month day + 3600000 * hour +
      60000 * min + 1000 * sec + ms := by
  simp only [dateUTC] at h
  rw [Option.ite_none_right_eq_some, Option.some_inj] at h
  exact h.right.symm

-- The milliseconds of the fraction of a text.
def roundedMs (raw : JsString) : Option ℤ :=
  match fraction? raw with
  | none      => some 0
  | some frac => milliseconds frac

theorem roundedMs_spec (h : isGenTime raw) {ms : ℤ} (hm : roundedMs raw = some ms) :
    (ms = ⌊1000 * fractionOf raw⌋ ∨ ms = ⌊1000 * fractionOf raw⌋ + 1) ∧
      (ms = ⌊1000 * fractionOf raw⌋ ↔ RoundsDown raw) := by
  rcases isGenTime_cases h with ⟨hl, _⟩ | ⟨frac, _, hf, hd, _⟩
  case inl =>
    have hf : fraction? raw = none := by rw [fraction?, if_pos hl]
    simp only [roundedMs, hf, Option.some_inj] at hm
    subst hm
    have h₀ : fractionOf raw = 0 := by rw [fractionOf, hf]
    rw [RoundsDown, h₀]
    simp [Double.round_zero]
  case inr =>
    have hv : fractionOf raw = digitsValue frac / 10 ^ frac.length := by rw [fractionOf, hf]
    rw [roundedMs, hf] at hm
    rw [RoundsDown, hv]
    exact milliseconds_spec hd hm

-- The text of the fraction of a text which is accepted, and what it is printed as.
theorem decodeFraction_eq_ok (h : isGenTime raw) {frac : JsString} (hf : decodeFraction raw = .ok frac) :
    (if frac = [] then some 0 else milliseconds frac) = roundedMs raw ∧
      (if frac = [] then [] else js "." ++ frac) ++ js "Z" = raw.drop 14 := by
  rw [decodeFraction] at hf
  rcases isGenTime_cases h with ⟨hl, hr⟩ | ⟨frac', hl, hf', hd, hr⟩
  case inl =>
    have hn : fraction? raw = none := by rw [fraction?, if_pos hl]
    rw [hn] at hf
    obtain rfl := Except.ok.inj hf
    rw [roundedMs, hn, hr]
    exact ⟨rfl, rfl⟩
  case inr =>
    rw [hf'] at hf
    dsimp only at hf
    split_ifs at hf with h₁ h₂
    · exact absurd hf derError_ne_ok
    · exact absurd hf derError_ne_ok
    · obtain rfl := Except.ok.inj hf
      rw [if_neg h₁, if_neg h₁, roundedMs, hf', hr, not_not.mp h₂]
      exact ⟨rfl, rfl⟩

-- What is known of a text whose fields are accepted.
structure Accepted (raw : JsString) (t : GenTime) (ms : ℤ) : Prop where
  month  : 1 ≤ part raw 4 2 ∧ part raw 4 2 ≤ 12
  day    : 1 ≤ part raw 6 2
  hour   : part raw 8 2 ≤ 23
  minute : part raw 10 2 ≤ 59
  millis : roundedMs raw = some ms
  epoch  : dateUTC (part raw 0 4) (part raw 4 2) (part raw 6 2) (part raw 8 2) (part raw 10 2) (part raw 12 2) ms =
    some t.epochMs
  iso    : t.iso = isoOf raw

theorem accepted_of_decodeFields (h : isGenTime raw) (hd : decodeFields raw = .ok t) : ∃ ms, Accepted raw t ms := by
  simp only [decodeFields, bind_eq_ok, throwIf_eq_ok] at hd
  obtain ⟨_, hmonth, _, hday, _, htime, frac, hf, hd⟩ := hd
  have ⟨hms, hz⟩ := decodeFraction_eq_ok h hf
  rw [hms] at hd
  split at hd
  case h_1 => cases hd
  case h_2 epoch he =>
    rw [Option.bind_eq_some_iff] at he
    obtain ⟨ms, hms, he⟩ := he
    obtain rfl := Except.ok.inj hd
    refine ⟨ms, by omega, by omega, by omega, by omega, hms, he, ?_⟩
    dsimp only
    rw [isoOf, pad_part h (by norm_num), pad_part h (by norm_num), pad_part h (by norm_num), pad_part h (by norm_num),
      pad_part h (by norm_num), pad_part h (by norm_num), ←hz]
    simp only [List.append_assoc, List.drop_zero]

theorem accepted_of_decodeGeneralizedTime {bytes : Bytes} (hs : slice buf valStart valEnd = .ok bytes)
    (hd : decodeGeneralizedTime buf valStart valEnd = .ok t) :
    isGenTime (asciiText bytes) ∧ ∃ ms, Accepted (asciiText bytes) t ms := by
  rw [decodeGeneralizedTime, hs, ok_bind] at hd
  dsimp only at hd
  split_ifs at hd with h
  · exact ⟨h, accepted_of_decodeFields h hd⟩
  · exact absurd hd derError_ne_ok
  · exact absurd hd derError_ne_ok
  · exact absurd hd derError_ne_ok

-- Of a text whose fields are accepted.
theorem faithful_iff (h : isGenTime raw) {ms : ℤ} (ha : Accepted raw t ms) : Faithful raw t ↔ Ordinary raw := by
  have he := dateUTC_eq_some ha.epoch
  have ⟨hms, hr⟩ := roundedMs_spec h ha.millis
  have hy := part_nonneg raw 0 4
  constructor
  case mp =>
    intro ⟨hreal, _, hepoch⟩
    rw [he, instantOf] at hepoch
    have hyear : 100 ≤ part raw 0 4 := by
      by_contra hlt
      rw [if_pos (by omega)] at hepoch
      have := @daysFromCivil_ne (part raw 0 4) (part raw 4 2) (part raw 6 2)
      omega
    rw [if_neg (by omega)] at hepoch
    exact ⟨hreal.day.inMonth.right, hreal.second, hyear, hr.mp <| by omega⟩
  case mpr =>
    intro ⟨hday, hsec, hyear, hround⟩
    refine ⟨⟨⟨ha.month, ha.day, hday⟩, ha.hour, ha.minute, hsec⟩, ha.iso, ?_⟩
    rw [he, if_neg (by omega), hr.mpr hround, instantOf]

-- The bytes which are accepted are decoded as the instant which they spell if and only if it is an
-- ordinary one.
theorem decodeGeneralizedTime_faithful_iff : DecodesFaithfully buf valStart valEnd ↔
    ∀ bytes t, slice buf valStart valEnd = .ok bytes → decodeGeneralizedTime buf valStart valEnd = .ok t →
      Ordinary (asciiText bytes) := by
  refine forall₄_congr fun bytes t hs hd => ?_
  obtain ⟨h, ms, ha⟩ := accepted_of_decodeGeneralizedTime hs hd
  exact faithful_iff h ha

end

-- The last day of February is accepted where it does not exist.
theorem not_decodesFaithfully : ¬ ∀ buf valStart valEnd, DecodesFaithfully buf valStart valEnd := by
  intro h
  have hd : decodeGeneralizedTime (Bytes.ofAscii "20260230120000Z") 0 15 =
      .ok ⟨js "2026-02-30T12:00:00Z", 1772452800000⟩ := by
    decide
  have hs : slice (Bytes.ofAscii "20260230120000Z") 0 15 = .ok (Bytes.ofAscii "20260230120000Z") := by
    decide
  have hday := h _ 0 15 _ _ hs hd |>.real.day.inMonth.right
  exact absurd hday <| by decide

end Rfc3161
