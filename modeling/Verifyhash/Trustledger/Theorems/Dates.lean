import Verifyhash.Data.Decimals
import Verifyhash.Data.Gregorian
import Verifyhash.Trustledger.Ingest

-- The normalized dates.
namespace Ingest

open Words Fallible
open Instant hiding parts

-- The text of a date, as the parser writes it.
def dateText (year month day : ℕ) : JsString :=
  js (toString year) ++ js "-" ++ padStart 2 (js <| toString month) ++ js "-" ++ padStart 2 (js <| toString day)

-- The numbers which are written in a text such as `2026-01-31`.
def yearIn (t : JsString) : ℕ :=
  Json.digitsValue (t.take 4)

def monthIn (t : JsString) : ℕ :=
  Json.digitsValue ((t.drop 5).take 2)

def dayIn (t : JsString) : ℕ :=
  Json.digitsValue (t.drop 8)

-- The text of a day which exists.
def IsDate (t : JsString) : Prop :=
  fits "dddd-dd-dd" t ∧ IsDay (yearIn t) (monthIn t) (dayIn t)

section

variable {s t : JsString} {year month day : ℕ}

theorem append_lt_append_iff {a a' b b' : JsString} (h : a.length = a'.length) :
    a ++ b < a' ++ b' ↔ a < a' ∨ a = a' ∧ b < b' := by
  induction a generalizing a'
  case nil =>
    obtain rfl := List.length_eq_zero_iff.mp h.symm
    simp
  case cons u a ih =>
    obtain ⟨v, a', rfl⟩ := List.exists_cons_of_length_eq_add_one h.symm
    rw [List.cons_append, List.cons_append, List.cons_lt_cons_iff, List.cons_lt_cons_iff, ih <| Nat.succ.inj h,
      List.cons.injEq]
    tauto

-- Digits of one length are ordered like their values.
theorem lt_iff_digitsValue_lt (hs : isDigits s) (ht : isDigits t) (h : s.length = t.length) :
    s < t ↔ Json.digitsValue s < Json.digitsValue t := by
  have hd {u : UInt16} (hu : Json.isDigit u) : 48 ≤ u.toNat ∧ u.toNat ≤ 57 := by
    simp only [Json.isDigit, decide_eq_true_eq, UInt16.le_iff_toNat_le] at hu
    exact hu
  have hv {s : JsString} (hs : isDigits s) : Json.digitsValue s < 10 ^ s.length := by
    have : Numeral.value 10 (s.map fun u => u.toNat - 48) < 10 ^ (s.map fun u => u.toNat - 48).length :=
      Numeral.value_lt fun d hm => by
        obtain ⟨u, hu, rfl⟩ := List.mem_map.mp hm
        have := hd <| List.all_eq_true.mp hs u hu
        omega
    simpa [Json.digitsValue] using this
  induction s generalizing t
  case nil =>
    obtain rfl := List.length_eq_zero_iff.mp h.symm
    simp
  case cons u s ih =>
    obtain ⟨v, t, rfl⟩ := List.exists_cons_of_length_eq_add_one h.symm
    have hl := Nat.succ.inj h
    rw [isDigits, List.all_cons, Bool.and_eq_true] at hs ht
    have hu := hd hs.left
    have hw := hd ht.left
    have hvs := hv hs.right
    have hvt := hv ht.right
    have ih : s < t ↔ Json.digitsValue s < Json.digitsValue t := ih hs.right ht.right hl
    rw [List.cons_lt_cons_iff, ih]
    simp only [Json.digitsValue, List.map_cons, Numeral.value_cons, List.length_map] at hvs hvt ⊢
    rw [hl, UInt16.lt_iff_toNat_lt, ←UInt16.toNat_inj] at *
    generalize 10 ^ t.length = k at *
    constructor
    · rintro (h | ⟨h, hlt⟩)
      · have := Nat.mul_le_mul_right k (show u.toNat - 48 + 1 ≤ v.toNat - 48 by omega)
        rw [Nat.add_mul] at this
        omega
      · rw [h]
        omega
    · intro hlt
      rcases Nat.lt_trichotomy u.toNat v.toNat with h | h | h
      · exact .inl h
      · rw [h] at hlt
        exact .inr ⟨h, by omega⟩
      · have := Nat.mul_le_mul_right k (show v.toNat - 48 + 1 ≤ u.toNat - 48 by omega)
        rw [Nat.add_mul] at this
        omega

theorem yearText_spec (h : 1000 ≤ year) (hl : year ≤ 9999) : isDigits (js <| toString year) ∧
    (js <| toString year).length = 4 := by
  have h₃ := @Json.length_js_toString_le year 3 (by omega)
  have h₄ := @Json.length_js_toString_le year 4 (by omega)
  exact ⟨List.all_eq_true.mpr <| Json.isDigit_js_toString year, by omega⟩

-- The parts of the text of a date.
structure IsDateText (t : JsString) (year month day : ℕ) : Prop where
  fits    : fits "dddd-dd-dd" t
  year    : yearIn t = year
  month   : monthIn t = month
  day     : dayIn t = day
  isPlain : trim t = t
  short   : ((t.drop 5).take 2).length = 2

theorem dateText_spec (hy : 1000 ≤ year) (hl : year ≤ 9999) (hm : month < 100) (hd : day < 100) :
    IsDateText (dateText year month day) year month day := by
  obtain ⟨hy₁, hy₂⟩ := yearText_spec hy hl
  have hy₃ := Json.digitsValue_js_toString year
  obtain ⟨hm₁, hm₂, hm₃⟩ := Json.padStart_spec (by omega : 0 < 2) hm
  obtain ⟨hd₁, hd₂, hd₃⟩ := Json.padStart_spec (by omega : 0 < 2) hd
  rw [dateText]
  generalize js (toString year) = Y at *
  generalize padStart 2 (js (toString month)) = M at *
  generalize padStart 2 (js (toString day)) = D at *
  obtain ⟨a, Y, rfl⟩ := List.exists_cons_of_length_eq_add_one hy₂
  obtain ⟨b, c, d, rfl⟩ := List.length_eq_three.mp <| Nat.succ.inj hy₂
  obtain ⟨e, f, rfl⟩ := List.length_eq_two.mp hm₂
  obtain ⟨g, h, rfl⟩ := List.length_eq_two.mp hd₂
  simp only [isDigits, List.all_cons, List.all_nil, Bool.and_eq_true, List.forall_mem_cons] at hy₁ hm₁ hd₁
  refine ⟨?_, hy₃, hm₃, hd₃, ?_, rfl⟩
  · simp [fits, js, hy₁, hm₁, hd₁]
  · refine trim_eq_self fun u hu => ?_
    have hu : Json.isDigit u ∨ u = 45 := by
      simp only [js, List.mem_append, List.mem_cons, List.not_mem_nil, or_false] at hu
      simp at hu
      rcases hu with ((((rfl | rfl | rfl | rfl) | rfl) | rfl | rfl) | rfl) | rfl | rfl <;> simp [hy₁, hm₁, hd₁]
    rcases hu with hu | rfl
    · exact not_isSpace_of_isDigit hu
    · decide

theorem daysInMonth_eq (year month : ℕ) : (daysInMonth year month : ℤ) = monthLength year month := by
  have hl : IsLeap year ↔ (year % 4 = 0 ∧ year % 100 ≠ 0) ∨ year % 400 = 0 := by
    rw [IsLeap]
    omega
  rw [daysInMonth, monthLength]
  simp only [hl]
  split_ifs <;> omega

-- What the text of an accepted date is made of.
inductive IsNormal (parts : JsString × JsString × JsString) : JsString → Prop
  | date (hc : parts.2.1 ≠ js "constructor")
      (h : IsDay (Json.digitsValue parts.1) (Json.digitsValue parts.2.1) (Json.digitsValue parts.2.2)) :
    IsNormal parts
      (dateText (Json.digitsValue parts.1) (Json.digitsValue parts.2.1) (Json.digitsValue parts.2.2))
  | inherited (hc : parts.2.1 = js "constructor") :
    IsNormal parts
      (js (toString (Json.digitsValue parts.1)) ++ js "-NaN-" ++ padStart 2 (js <| toString <| Json.digitsValue parts.2.2))

theorem parseDate_eq_ok (h : parseDate (some raw) loc = .ok t) :
    ∃ parts, dateParts raw (trim raw) loc = .ok parts ∧ IsNormal parts t := by
  rw [parseDate] at h
  dsimp only at h
  rw [check_eq_ok] at h
  obtain ⟨-, h⟩ := h
  obtain ⟨parts, hp, h⟩ := bind_eq_ok.mp h
  refine ⟨parts, hp, ?_⟩
  by_cases hc : parts.2.1 = js "constructor"
  case pos =>
    rw [if_pos hc, check_eq_ok, pure_eq_ok] at h
    obtain ⟨-, rfl⟩ := h
    exact .inherited hc
  case neg =>
    rw [if_neg hc, check_eq_ok, check_eq_ok, pure_eq_ok] at h
    obtain ⟨hm, hd, rfl⟩ := h
    have hl := daysInMonth_eq (Json.digitsValue parts.1) (Json.digitsValue parts.2.1)
    exact .date hc ⟨by omega, by omega⟩

-- A day which exists is normalized to its text.
theorem parseDate_dateText (hy : 1000 ≤ year) (hl : year ≤ 9999) (h : IsDay year month day) (loc : Loc) :
    parseDate (some <| dateText year month day) loc = .ok (dateText year month day) := by
  have hlen := @monthLength_le year month
  have hm := h.inYear
  have hd := h.inMonth
  have d : IsDateText (dateText year month day) year month day := dateText_spec hy hl (by omega) (by omega)
  have hdays := daysInMonth_eq year month
  generalize ht : dateText year month day = t at d
  have hp : dateParts t t loc = .ok (t.take 4, (t.drop 5).take 2, t.drop 8) := by
    rw [dateParts, if_pos d.fits]
  have hn : t ≠ [] := by
    rintro rfl
    exact absurd d.fits (by decide)
  have hc : (t.drop 5).take 2 ≠ js "constructor" := by
    intro hc
    have := d.short
    rw [hc] at this
    cases this
  have hyear : Json.digitsValue (t.take 4) = year := d.year
  have hmonth : Json.digitsValue ((t.drop 5).take 2) = month := d.month
  have hday : Json.digitsValue (t.drop 8) = day := d.day
  rw [parseDate]
  dsimp only
  rw [d.isPlain, if_neg hn, hp, ok_bind]
  dsimp only
  rw [if_neg hc, hyear, hmonth, hday, if_neg (by omega), if_neg (by omega), ←ht]
  rfl

theorem yearOf_spec {y : JsString} (h : isDigits y) (hl : y.length = 2 ∨ y.length = 4) :
    isDigits (yearOf y) ∧ (yearOf y).length = 4 := by
  rw [yearOf]
  split_ifs with h₂
  · refine ⟨?_, ?_⟩
    · rw [isDigits, List.all_append, Bool.and_eq_true]
      exact ⟨by decide, h⟩
    · simp [js, h₂]
  · exact ⟨h, hl.resolve_left h₂⟩

theorem dashedDate_eq_some (h : dashedDate s = some x) : isDigits x.2.2 ∧ (x.2.2.length = 2 ∨ x.2.2.length = 4) := by
  rw [dashedDate] at h
  simp only [Option.ite_none_right_eq_some, Option.some.injEq] at h
  obtain ⟨⟨-, -, -, -, hl, hd⟩, rfl⟩ := h
  exact ⟨hd, hl⟩

theorem textualDate_eq_some (h : textualDate s = some x) : isDigits x.2.2 ∧ (x.2.2.length = 2 ∨ x.2.2.length = 4) := by
  rw [textualDate] at h
  simp only [Option.ite_none_right_eq_some, Option.some.injEq] at h
  obtain ⟨⟨-, -, -, -, hl, hd⟩, rfl⟩ := h
  exact ⟨hd, .inr hl⟩

theorem slashedDate_eq_some (h : slashedDate s = some x) : isDigits x.2.2 ∧ (x.2.2.length = 2 ∨ x.2.2.length = 4) := by
  rw [slashedDate] at h
  split at h
  · simp only [Option.ite_none_right_eq_some, Option.some.injEq] at h
    obtain ⟨⟨-, -, hl, -, -, hd⟩, rfl⟩ := h
    exact ⟨hd, hl⟩
  · cases h

-- Every year which is written has four digits.
theorem dateParts_year (h : dateParts raw s loc = .ok parts) : isDigits parts.1 ∧ parts.1.length = 4 := by
  rw [dateParts] at h
  split at h
  case isTrue hf =>
    cases h
    have hy := Json.isDigits_take hf 0 4 (by decide)
    exact ⟨List.all_eq_true.mpr hy.left, hy.right⟩
  case isFalse =>
    split at h
    case h_1 hs =>
      cases h
      have hy := slashedDate_eq_some hs
      exact yearOf_spec hy.left hy.right
    case h_2 =>
      split at h
      case isTrue hf =>
        cases h
        have hy := Json.isDigits_take hf 0 4 (by decide)
        exact ⟨List.all_eq_true.mpr hy.left, hy.right⟩
      case isFalse =>
        split at h
        case h_1 hs =>
          have hy := textualDate_eq_some hs
          split at h
          · cases h
            exact yearOf_spec hy.left hy.right
          · split at h
            · cases h
            · cases h
              exact yearOf_spec hy.left hy.right
        case h_2 hs =>
          have hy := dashedDate_eq_some hs
          split at h
          · cases h
            exact yearOf_spec hy.left hy.right
          · split at h
            · cases h
            · cases h
              exact yearOf_spec hy.left hy.right
        case h_3 => cases h

end

-- What is asked of the normalized date of a text: it is the text of a day, and it is normalized to itself.
def Normalizes (raw : JsString) : Prop :=
  ∀ loc t, parseDate (some raw) loc = .ok t → IsDate t ∧ ∀ loc', parseDate (some t) loc' = .ok t

-- The order of the normalized dates is the order of the days which the texts denote.
def Ordered (raw raw' : JsString) : Prop :=
  ∀ loc loc' t t' parts parts', parseDate (some raw) loc = .ok t → parseDate (some raw') loc' = .ok t' →
    dateParts raw (trim raw) loc = .ok parts → dateParts raw' (trim raw') loc' = .ok parts' →
    (t < t' ↔
      daysFromCivil (Json.digitsValue parts.1) (Json.digitsValue parts.2.1) (Json.digitsValue parts.2.2) <
        daysFromCivil (Json.digitsValue parts'.1) (Json.digitsValue parts'.2.1) (Json.digitsValue parts'.2.2))

-- A text which is not accepted, or whose year is at least 1000 and whose month is not a member of `Object.prototype`.
def Regular (raw : JsString) : Prop :=
  ∀ loc t parts, parseDate (some raw) loc = .ok t → dateParts raw (trim raw) loc = .ok parts →
    1000 ≤ Json.digitsValue parts.1 ∧ parts.2.1 ≠ js "constructor"

section

variable {raw t : JsString} {year month day year' month' day' : ℕ}

theorem fits_length (h : fits "dddd-dd-dd" t) : t.length = 10 := by
  rw [fits, decide_eq_true_eq] at h
  exact h.left.symm

-- The text of a year before 1000 is too short.
theorem not_fits_dateText (hy : year < 1000) (hm : month < 100) (hd : day < 100) :
    ¬ fits "dddd-dd-dd" (dateText year month day) := by
  intro h
  have hl := fits_length h
  have hy := (Json.length_js_toString_le (by omega : 0 < 3)).mpr hy
  obtain ⟨-, hm, -⟩ := Json.padStart_spec (by omega : 0 < 2) hm
  obtain ⟨-, hd, -⟩ := Json.padStart_spec (by omega : 0 < 2) hd
  have hj : (js "-").length = 1 := rfl
  simp only [dateText, List.length_append, hm, hd, hj] at hl
  omega

theorem not_fits_inherited {y d : JsString} : ¬ fits "dddd-dd-dd" (y ++ js "-NaN-" ++ d) := by
  intro h
  have hm : 78 ∈ y ++ js "-NaN-" ++ d := by simp [js]
  obtain ⟨i, hi⟩ := List.mem_iff_getElem?.mp hm
  generalize y ++ js "-NaN-" ++ d = t at h hi
  have hpat : ∀ p ∈ js "dddd-dd-dd", p = 100 ∨ p = 45 := by simp [js]
  generalize hq : js "dddd-dd-dd" = q at hpat
  rw [fits, decide_eq_true_eq, hq] at h
  have hlt : i < q.length := h.left.symm ▸ (List.getElem?_eq_some_iff.mp hi).choose
  have hz : (q.zip t)[i]? = some (q[i], 78) := List.getElem?_zip_eq_some.mpr ⟨List.getElem?_eq_getElem hlt, hi⟩
  have hz := List.all_eq_true.mp h.right _ <| List.mem_of_getElem? hz
  rcases hpat q[i] <| List.getElem_mem hlt with hp | hp <;> rw [hp] at hz
  · exact absurd hz (by decide)
  · exact absurd hz (by decide)

theorem parseDate_normalizes_iff : Normalizes raw ↔ Regular raw := by
  constructor
  case mp =>
    intro h loc t parts ht hp
    obtain ⟨parts', hp', hn⟩ := parseDate_eq_ok ht
    cases hp.symm.trans hp'
    obtain ⟨⟨hf, -⟩, -⟩ := h loc t ht
    cases hn
    case date hc hd =>
      refine ⟨not_lt.mp fun hy => ?_, hc⟩
      have := @monthLength_le (Json.digitsValue parts.1) (Json.digitsValue parts.2.1)
      have hm := hd.inYear
      have hd := hd.inMonth
      exact not_fits_dateText hy (by omega) (by omega) hf
    case inherited => exact absurd hf not_fits_inherited
  case mpr =>
    intro h loc t ht
    obtain ⟨parts, hp, hn⟩ := parseDate_eq_ok ht
    obtain ⟨hy, hc⟩ := h loc t parts ht hp
    obtain ⟨hd, hl⟩ := dateParts_year hp
    have hl : Json.digitsValue parts.1 ≤ 9999 := by
      have := Json.digitsValue_lt <| List.all_eq_true.mp hd
      rw [hl] at this
      omega
    cases hn
    case inherited hc' => exact absurd hc' hc
    case date hd =>
      have hlen := @monthLength_le (Json.digitsValue parts.1) (Json.digitsValue parts.2.1)
      have hm := hd.inYear
      have hd' := hd.inMonth
      have d : IsDateText _ (Json.digitsValue parts.1) (Json.digitsValue parts.2.1) (Json.digitsValue parts.2.2) :=
        dateText_spec hy hl (by omega) (by omega)
      refine ⟨⟨d.fits, ?_⟩, parseDate_dateText hy hl hd⟩
      rw [d.year, d.month, d.day]
      exact hd

theorem dateText_lt_iff (hy : 1000 ≤ year) (hl : year ≤ 9999) (hy' : 1000 ≤ year') (hl' : year' ≤ 9999)
    (h : IsDay year month day) (h' : IsDay year' month' day') :
    dateText year month day < dateText year' month' day' ↔
      daysFromCivil year month day < daysFromCivil year' month' day' := by
  have hlen := @monthLength_le year month
  have hlen' := @monthLength_le year' month'
  have hm := h.inYear
  have hm' := h'.inYear
  have hd := h.inMonth
  have hd' := h'.inMonth
  obtain ⟨hy₁, hy₂⟩ := yearText_spec hy hl
  obtain ⟨hy₁', hy₂'⟩ := yearText_spec hy' hl'
  have htwo {n n' : ℕ} (hn : n < 100) (hn' : n' < 100) : (padStart 2 (js <| toString n)).length =
      (padStart 2 (js <| toString n')).length ∧
      (padStart 2 (js <| toString n) < padStart 2 (js <| toString n') ↔ n < n') ∧
      (padStart 2 (js <| toString n) = padStart 2 (js <| toString n') ↔ n = n') := by
    obtain ⟨h₁, h₂, h₃⟩ := Json.padStart_spec (by omega : 0 < 2) hn
    obtain ⟨h₁', h₂', h₃'⟩ := Json.padStart_spec (by omega : 0 < 2) hn'
    have hl := h₂.trans h₂'.symm
    refine ⟨hl, ?_, fun h => ?_, congrArg fun n : ℕ => padStart 2 (js <| toString n)⟩
    · rw [lt_iff_digitsValue_lt (List.all_eq_true.mpr h₁) (List.all_eq_true.mpr h₁') hl, h₃, h₃']
    · rw [←h₃, h, h₃']
  obtain ⟨hm₁, hm₂, hm₃⟩ := htwo (by omega : month < 100) (by omega : month' < 100)
  obtain ⟨-, hd₂, -⟩ := htwo (by omega : day < 100) (by omega : day' < 100)
  have hj {a b : JsString} : js "-" ++ a < js "-" ++ b ↔ a < b := by simp [js]
  have he : js (toString year) = js (toString year') ↔ year = year' := ⟨Json.js_toString_inj, congrArg (js <| toString ·)⟩
  rw [daysFromCivil_lt_iff h h', Earlier, dateText, dateText]
  simp only [List.append_assoc]
  rw [append_lt_append_iff (hy₂.trans hy₂'.symm), hj, append_lt_append_iff hm₁, hj,
    lt_iff_digitsValue_lt hy₁ hy₁' (hy₂.trans hy₂'.symm), Json.digitsValue_js_toString, Json.digitsValue_js_toString,
    hm₂, hm₃, hd₂, he]
  omega

-- Regular texts are in the order of the days.
theorem ordered_of_regular {raw raw' : JsString} (h : Regular raw) (h' : Regular raw') : Ordered raw raw' := by
  intro loc loc' t t' parts parts' ht ht' hp hp'
  obtain ⟨hy, hc⟩ := h loc t parts ht hp
  obtain ⟨hy', hc'⟩ := h' loc' t' parts' ht' hp'
  have hl {raw loc parts} (hp : dateParts raw (trim raw) loc = .ok parts) : Json.digitsValue parts.1 ≤ 9999 := by
    obtain ⟨hd, hl⟩ := dateParts_year hp
    have := Json.digitsValue_lt <| List.all_eq_true.mp hd
    rw [hl] at this
    omega
  obtain ⟨q, hq, hn⟩ := parseDate_eq_ok ht
  obtain ⟨q', hq', hn'⟩ := parseDate_eq_ok ht'
  cases hp.symm.trans hq
  cases hp'.symm.trans hq'
  cases hn
  case inherited hi => exact absurd hi hc
  case date hd =>
    cases hn'
    case inherited hi => exact absurd hi hc'
    case date hd' => exact dateText_lt_iff hy (hl hp) hy' (hl hp') hd hd'

end

end Ingest
