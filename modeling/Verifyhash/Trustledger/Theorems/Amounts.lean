import Verifyhash.Data.Decimals
import Verifyhash.Trustledger.Ingest
import Verifyhash.Trustledger.Reconcile

-- The texts of amounts of money.
namespace Ingest

open Words Fallible

-- The text without parentheses around it, without the currency symbol and without the sign, one after the other.
def unwrapped (s : JsString) : JsString :=
  if isParenthesized s then trim s.tail.dropLast else s

def bare (s : JsString) : JsString :=
  trim <| if (unwrapped s).head? = some 36 then (unwrapped s).tail else unwrapped s

def isSigned (s : JsString) : Bool :=
  s.head? = some 43 ∨ s.head? = some 45

def unsigned (s : JsString) : JsString :=
  if isSigned s then trim s.tail else s

def isNegative (s : JsString) : Bool :=
  if (bare s).head? = some 45 then ¬ isParenthesized s else isParenthesized s

-- What an accepted text without a sign is.
structure IsPlain (s whole frac : JsString) : Prop where
  ne_nil   : s ≠ []
  unsigned : ∀ u ∈ s, u ≠ 43 ∧ u ≠ 45
  grouped  : 44 ∈ s → groupsOk (s.splitOn 44)
  parts    : centsOf (s.filter (· ≠ 44)) = some (whole, frac)

def centsValue (whole frac : JsString) : ℕ :=
  Json.digitsValue whole * 100 + Json.digitsValue (frac ++ .replicate (2 - frac.length) 48)

structure IsAmount (raw : JsString) (c : ℤ) (whole frac : JsString) : Prop where
  ne_nil  : trim raw ≠ []
  isPlain : IsPlain (unsigned (bare (trim raw))) whole frac
  inRange : centsValue whole frac ≤ MAX_SAFE_INTEGER
  value   : c = if isNegative (trim raw) then -(centsValue whole frac : ℤ) else centsValue whole frac

section

variable {raw s t whole frac : JsString} {c : ℤ}

theorem isNegative_iff :
    isNegative s ↔ if (bare s).head? = some 45 then ¬ isParenthesized s else isParenthesized s := by
  rw [isNegative]
  split_ifs <;> simp

theorem parseCents_eq_ok : parseCents (some raw) field loc = .ok c ↔ ∃ whole frac, IsAmount raw c whole frac := by
  rw [parseCents]
  dsimp only
  rw [check_eq_ok, check_eq_ok, check_eq_ok, check_eq_ok]
  show trim raw ≠ [] ∧ unsigned (bare (trim raw)) ≠ [] ∧ _ ∧ _ ∧ _ ↔ _
  constructor
  case mp =>
    rintro ⟨ht, hn, hu, hg, h⟩
    split at h
    case h_1 => cases h
    case h_2 whole frac hp =>
      rw [check_eq_ok, not_or, not_lt, not_lt, pure_eq_ok] at h
      obtain ⟨⟨-, hr⟩, rfl⟩ := h
      refine ⟨whole, frac, ht, ⟨hn, fun u hm => ?_, fun hm => ?_, hp⟩, hr, if_congr isNegative_iff.symm rfl rfl⟩
      · simpa using List.any_eq_false.mp (Bool.eq_false_iff.mpr hu) u hm
      · exact not_not.mp fun h => hg ⟨hm, h⟩
  case mpr =>
    rintro ⟨whole, frac, ht, ⟨hn, hu, hg, hp⟩, hr, rfl⟩
    refine ⟨ht, hn, ?_, fun h => h.right <| hg h.left, ?_⟩
    · rw [Bool.not_eq_true, List.any_eq_false]
      intro u hm
      simpa using hu u hm
    · split
      case h_1 hn => cases hn.symm.trans hp
      case h_2 hs =>
        cases hs.symm.trans hp
        rw [check_eq_ok, not_or, not_lt, not_lt, pure_eq_ok]
        refine ⟨⟨?_, hr⟩, if_congr isNegative_iff.symm rfl rfl⟩
        have : centsValue whole frac ≤ MAX_SAFE_INTEGER := hr
        rw [centsValue] at this
        omega

-- The characters which have a meaning in the text of an amount.
def isRelevant (u : UInt16) : Bool :=
  Json.isDigit u ∨ u = 40 ∨ u = 45 ∨ u = 46

-- The decimal of the relevant characters: an opening parenthesis and a minus sign negate, and the digits after the
-- point are the fraction.
def denoted (s : JsString) : ℚ :=
  let whole := (s.takeWhile (· ≠ 46)).filter Json.isDigit
  let frac := (s.dropWhile (· ≠ 46)).filter Json.isDigit
  (-1) ^ (s.count 40 + s.count 45) * (Json.digitsValue whole + Json.digitsValue frac / 10 ^ frac.length)

-- The signed decimal value which a text denotes.
def amountOf (s : JsString) : ℚ :=
  denoted <| s.filter isRelevant

theorem not_isRelevant_of_isSpace (h : isSpace u) : ¬ isRelevant u := by
  simp only [isSpace, isRelevant, Json.isDigit, decide_eq_true_eq, ←UInt16.toNat_inj, UInt16.le_iff_toNat_le] at h ⊢
  simp only [UInt16.reduceToNat] at h ⊢
  omega

theorem amountOf_append_left (h : ∀ u ∈ t, ¬ isRelevant u) : amountOf (t ++ s) = amountOf s := by
  rw [amountOf, List.filter_append, List.filter_eq_nil_iff.mpr h, List.nil_append, amountOf]

theorem amountOf_append_right (h : ∀ u ∈ t, ¬ isRelevant u) : amountOf (s ++ t) = amountOf s := by
  rw [amountOf, List.filter_append, List.filter_eq_nil_iff.mpr h, List.append_nil, amountOf]

theorem amountOf_cons (h : ¬ isRelevant u) : amountOf (u :: s) = amountOf s :=
  amountOf_append_left (t := [u]) <| by simpa using h

theorem amountOf_trim : amountOf (trim s) = amountOf s := by
  have hl : amountOf (s.dropWhile isSpace) = amountOf s := by
    conv => rhs; rw [←List.takeWhile_append_dropWhile (p := isSpace) (l := s)]
    exact (amountOf_append_left fun u hu => not_isRelevant_of_isSpace <| List.mem_takeWhile_imp hu).symm
  rw [←hl, trim]
  generalize s.dropWhile isSpace = t
  conv => rhs; rw [←List.rdropWhile_append_rtakeWhile (p := isSpace) (l := t)]
  exact (amountOf_append_right fun u hu => not_isRelevant_of_isSpace <| List.mem_rtakeWhile_imp hu).symm

theorem amountOf_negate (h : u = 40 ∨ u = 45) : amountOf (u :: s) = -amountOf s := by
  have hr : isRelevant u := by
    rcases h with rfl | rfl <;> rfl
  have hd : Json.isDigit u = false := by
    rcases h with rfl | rfl <;> rfl
  have hp : u ≠ 46 := by
    rcases h with rfl | rfl <;> decide
  have hc (s : JsString) : (u :: s).count 40 + (u :: s).count 45 = s.count 40 + s.count 45 + 1 := by
    rcases h with rfl | rfl <;> simp <;> omega
  rw [amountOf, List.filter_cons_of_pos hr, amountOf]
  simp only [denoted, hc, pow_succ]
  simp [hp, hd]

theorem amountOf_unwrapped : amountOf (unwrapped s) = if isParenthesized s then -amountOf s else amountOf s := by
  rw [unwrapped]
  split_ifs with h
  case neg => rfl
  case pos =>
    rw [isParenthesized, decide_eq_true_eq] at h
    obtain ⟨hl, hh, hc, -⟩ := h
    obtain ⟨t, rfl⟩ := List.head?_eq_some_iff.mp hh
    have ht : t ≠ [] := by
      rintro rfl
      simp at hl
    have hs : t = t.dropLast ++ [41] := by
      rw [List.getLast?_cons_of_ne_nil ht] at hc
      exact (List.dropLast_append_getLast? 41 hc).symm
    rw [amountOf_trim, List.tail_cons, amountOf_negate (.inl rfl), neg_neg]
    conv => rhs; rw [hs]
    exact (amountOf_append_right <| List.forall_mem_singleton.mpr <| by decide).symm

theorem amountOf_bare : amountOf (bare s) = amountOf (unwrapped s) := by
  rw [bare, amountOf_trim]
  split_ifs with h
  · obtain ⟨t, ht⟩ := List.head?_eq_some_iff.mp h
    rw [ht, List.tail_cons, amountOf_cons (by decide)]
  · rfl

theorem amountOf_unsigned : amountOf (unsigned s) = if s.head? = some 45 then -amountOf s else amountOf s := by
  rw [unsigned]
  by_cases hs : isSigned s
  case neg =>
    have hm : ¬ s.head? = some 45 := fun h => hs <| by simp [isSigned, h]
    rw [if_neg hs, if_neg hm]
  case pos =>
    rw [if_pos hs, amountOf_trim]
    rw [isSigned, decide_eq_true_eq] at hs
    rcases hs with h | h
    · obtain ⟨t, rfl⟩ := List.head?_eq_some_iff.mp h
      rw [if_neg (by simp), List.tail_cons, amountOf_cons (by decide)]
    · obtain ⟨t, rfl⟩ := List.head?_eq_some_iff.mp h
      rw [if_pos h, List.tail_cons, amountOf_negate (.inr rfl), neg_neg]

-- The steps of the parser keep the amount, up to the sign which they find.
theorem amountOf_stripped :
    amountOf s = if isNegative s then -amountOf (unsigned (bare s)) else amountOf (unsigned (bare s)) := by
  rw [amountOf_unsigned, amountOf_bare, amountOf_unwrapped, isNegative]
  split_ifs <;> simp_all

-- The digits and the point of an accepted text.
theorem centsOf_eq_some (h : centsOf s = some (whole, frac)) :
    (∀ u ∈ whole, Json.isDigit u) ∧ (∀ u ∈ frac, Json.isDigit u) ∧ frac.length ≤ 2 ∧
      (s = whole ∧ frac = [] ∨ s = whole ++ 46 :: frac) := by
  rw [centsOf] at h
  simp only [Option.ite_none_right_eq_some, Option.some.injEq, Prod.mk.injEq] at h
  obtain ⟨⟨hp, hf, hl, -⟩, rfl, rfl⟩ := h
  refine ⟨fun u hu => List.mem_takeWhile_imp hu, fun u hu => List.all_eq_true.mp hf u hu, hl, ?_⟩
  have hs : s = s.takeWhile Json.isDigit ++ s.drop (s.takeWhile Json.isDigit).length :=
    (List.prefix_iff_eq_append.mp <| List.takeWhile_prefix _).symm
  generalize s.drop (s.takeWhile Json.isDigit).length = rest at *
  rcases hp with rfl | hp
  · exact .inl ⟨by simpa using hs, rfl⟩
  · obtain ⟨frac, rfl⟩ := List.head?_eq_some_iff.mp hp
    exact .inr hs

theorem digitsValue_padded (h : frac.length ≤ 2) :
    (Json.digitsValue (frac ++ .replicate (2 - frac.length) 48) : ℚ) = 100 * (Json.digitsValue frac / 10 ^ frac.length) := by
  have hz : Json.digitsValue (frac ++ .replicate (2 - frac.length) 48) =
      Json.digitsValue frac * 10 ^ (2 - frac.length) := by
    rw [Json.digitsValue, List.map_append, Numeral.value_append, List.map_replicate, List.length_replicate]
    show _ + Numeral.value 10 (.replicate _ 0) = _
    rw [Numeral.value_replicate_zero, Nat.add_zero, Json.digitsValue]
  have hp : (100 : ℚ) = 10 ^ (2 - frac.length) * 10 ^ frac.length := by
    rw [←pow_add, Nat.sub_add_cancel h]
    norm_num
  rw [hz, hp]
  push_cast
  field_simp

theorem IsPlain.amountOf_eq (h : IsPlain s whole frac) : amountOf s = centsValue whole frac / 100 := by
  obtain ⟨hw, hf, hl, hs⟩ := centsOf_eq_some h.parts
  have hr : s.filter isRelevant = s.filter (· ≠ 44) := by
    have hd {u} (hu : Json.isDigit u) : isRelevant u := by simp [isRelevant, hu]
    have hm : ∀ u ∈ s.filter (· ≠ 44), isRelevant u := by
      intro u hu
      rcases hs with ⟨hs, -⟩ | hs <;> rw [hs] at hu
      · exact hd <| hw u hu
      · rcases List.mem_append.mp hu with hu | hu
        · exact hd <| hw u hu
        · rcases List.mem_cons.mp hu with rfl | hu
          · rfl
          · exact hd <| hf u hu
    rw [←List.filter_eq_self.mpr hm, List.filter_filter]
    congr 1
    funext u
    by_cases hu : u = 44
    · subst hu
      rfl
    · simp [hu]
  have hc {t : JsString} (ht : ∀ u ∈ t, Json.isDigit u) : t.count 40 = 0 ∧ t.count 45 = 0 ∧ 46 ∉ t ∧
      t.filter Json.isDigit = t :=
    ⟨List.count_eq_zero.mpr fun hm => absurd (ht _ hm) (by decide),
      List.count_eq_zero.mpr fun hm => absurd (ht _ hm) (by decide),
      fun hm => absurd (ht _ hm) (by decide), List.filter_eq_self.mpr ht⟩
  obtain ⟨hw₁, hw₂, hw₃, hw₄⟩ := hc hw
  obtain ⟨hf₁, hf₂, -, hf₄⟩ := hc hf
  have ht : ∀ u ∈ whole, decide (u ≠ 46) = true := fun u hu => by
    simpa using fun h : u = 46 => hw₃ <| h ▸ hu
  have hv : (centsValue whole frac : ℚ) / 100 =
      Json.digitsValue whole + Json.digitsValue frac / 10 ^ frac.length := by
    rw [centsValue]
    push_cast
    rw [digitsValue_padded hl]
    ring
  rw [amountOf, hr, hv, denoted]
  rcases hs with ⟨hs, rfl⟩ | hs <;> rw [hs]
  · have ht' : whole.takeWhile (· ≠ 46) = whole := List.takeWhile_eq_self_iff.mpr ht
    have hd' : whole.dropWhile (· ≠ 46) = [] := List.dropWhile_eq_nil_iff.mpr ht
    simp only [ht', hd', hw₁, hw₂, hw₄]
    simp
  · have ht' : (whole ++ 46 :: frac).takeWhile (· ≠ 46) = whole := by
      rw [List.takeWhile_append_of_pos ht]
      simp
    have hd' : (whole ++ 46 :: frac).dropWhile (· ≠ 46) = 46 :: frac := by
      rw [List.dropWhile_append_of_pos ht]
      simp
    have hf' : (46 :: frac).filter Json.isDigit = frac := by
      rw [List.filter_cons_of_neg (by decide), hf₄]
    simp only [ht', hd', hf', hw₄, List.count_append, hw₁, hw₂]
    simp [hf₁, hf₂]

-- An accepted text denotes exactly the number of cents.
theorem parseCents_denotes (h : parseCents (some raw) field loc = .ok c) : (c : ℚ) = 100 * amountOf raw := by
  obtain ⟨whole, frac, a⟩ := parseCents_eq_ok.mp h
  rw [←amountOf_trim, amountOf_stripped, a.isPlain.amountOf_eq, a.value]
  split_ifs <;> push_cast <;> ring

end

-- What `groupsOk` asks of the groups of digits, without a fraction.
def IsGrouping (parts : List JsString) : Prop :=
  ∀ i p, parts[i]? = some p → isDigits p ∧ if i = 0 then 1 ≤ p.length ∧ p.length ≤ 3 else p.length = 3

section

variable {init : List JsString} {ds last tail : JsString}

theorem IsGrouping.concat (h : IsGrouping init) (hn : init ≠ []) (hd : isDigits last) (hl : last.length = 3) :
    IsGrouping (init ++ [last]) := by
  intro i p hp
  rcases Nat.lt_or_ge i init.length with hi | hi
  · rw [List.getElem?_append_left hi] at hp
    exact h i p hp
  · rw [List.getElem?_append_right hi] at hp
    have hz : i ≠ 0 := by
      have := List.length_pos_of_ne_nil hn
      omega
    rw [List.getElem?_singleton] at hp
    split_ifs at hp
    cases hp
    exact ⟨hd, by rwa [if_neg hz]⟩

-- The groups of a text are accepted, if the last one has a fraction behind it.
theorem IsGrouping.groupsOk (h : IsGrouping (init ++ [last])) (ht : tail.head? = some 46) :
    groupsOk (init ++ [last ++ tail]) := by
  have hseg {i p} (hp : (init ++ [last ++ tail])[i]? = some p) : (init ++ [last])[i]? =
      some (if i = (init ++ [last ++ tail]).length - 1 then p.takeWhile (· ≠ 46) else p) := by
    rcases Nat.lt_or_ge i init.length with hi | hi
    · have : i ≠ (init ++ [last ++ tail]).length - 1 := by
        rw [List.length_append, List.length_singleton]
        omega
      rw [if_neg this, List.getElem?_append_left hi]
      rwa [List.getElem?_append_left hi] at hp
    · rw [List.getElem?_append_right hi, List.getElem?_singleton] at hp
      split_ifs at hp with hz
      cases hp
      have : i = (init ++ [last ++ tail]).length - 1 := by
        rw [List.length_append, List.length_singleton]
        omega
      have hl := (h i last <| by rw [List.getElem?_append_right hi, hz]; rfl).left
      have hne : ∀ u ∈ last, decide (u ≠ 46) = true := by
        intro u hu
        have := List.all_eq_true.mp hl u hu
        simp only [decide_eq_true_eq]
        rintro rfl
        exact absurd this (by decide)
      obtain ⟨t, rfl⟩ := List.head?_eq_some_iff.mp ht
      rw [if_pos this, List.getElem?_append_right hi, hz, List.takeWhile_append_of_pos hne]
      simp
  rw [Ingest.groupsOk, List.all_eq_true]
  rintro ⟨p, i⟩ hm
  have hp := List.mem_zipIdx_iff_getElem?.mp hm
  obtain ⟨hd, hl⟩ := h i _ <| hseg hp
  exact decide_eq_true ⟨hd, hl⟩

open Reconcile (grouped)

theorem lt_of_mem_zipIdx {u : UInt16 × ℕ} (h : u ∈ ds.zipIdx) : u.2 < ds.length :=
  (List.getElem?_eq_some_iff.mp <| List.mem_zipIdx_iff_getElem?.mp h).choose

theorem grouped_of_le (h : ds.length ≤ 3) : grouped ds = ds := by
  rw [grouped]
  have : ∀ u ∈ ds.zipIdx, (if u.2 ≠ 0 ∧ (ds.length - u.2) % 3 = 0 then [44, u.1] else [u.1]) = [u.1] := by
    intro u hu
    have hu := lt_of_mem_zipIdx hu
    refine if_neg ?_
    rintro ⟨hz, hm⟩
    omega
  rw [List.flatMap_congr this, ←List.map_eq_flatMap, List.zipIdx_map_fst]

theorem grouped_append (hn : ds ≠ []) (hl : last.length = 3) : grouped (ds ++ last) = grouped ds ++ 44 :: last := by
  obtain ⟨a, b, c, rfl⟩ := List.length_eq_three.mp hl
  have hp := List.length_pos_of_ne_nil hn
  rw [grouped, List.zipIdx_append, List.flatMap_append, List.length_append, hl, grouped]
  congr 1
  · refine List.flatMap_congr fun u hu => ?_
    have hu := lt_of_mem_zipIdx hu
    have : (ds.length + 3 - u.2) % 3 = (ds.length - u.2) % 3 := by omega
    rw [this]
  · have h₀ : (ds.length + 3 - (0 + ds.length)) % 3 = 0 := by omega
    have h₁ : ¬ (ds.length + 3 - (0 + ds.length + 1)) % 3 = 0 := by omega
    have h₂ : ¬ (ds.length + 3 - (0 + ds.length + 1 + 1)) % 3 = 0 := by omega
    simp only [List.zipIdx_cons, List.zipIdx_nil, List.flatMap_cons, List.flatMap_nil, h₀, h₁, h₂]
    simp [hn]

-- The grouped digits are split into groups, of which the last one has the fraction behind it.
theorem splitOn_grouped (hd : isDigits ds) (hn : ds ≠ []) (ht : 44 ∉ tail) : ∃ init last,
    (grouped ds ++ tail).splitOn 44 = init ++ [last ++ tail] ∧ IsGrouping (init ++ [last]) ∧
      (grouped ds).filter (· ≠ 44) = ds := by
  induction hl : ds.length using Nat.strongRecOn generalizing ds tail
  case ind n ih =>
    have hc {ds : JsString} (hd : isDigits ds) : 44 ∉ ds := fun h => absurd (List.all_eq_true.mp hd _ h) (by decide)
    have hf {ds : JsString} (hd : isDigits ds) : ds.filter (· ≠ 44) = ds := by
      refine List.filter_eq_self.mpr fun u hu => ?_
      simp only [decide_eq_true_eq]
      rintro rfl
      exact hc hd hu
    by_cases h : ds.length ≤ 3
    case pos =>
      refine ⟨[], ds, ?_, ?_, ?_⟩
      · rw [grouped_of_le h, List.splitOn_eq_singleton]
        · rfl
        · simp [hc hd, ht]
      · intro i p hp
        rw [List.nil_append, List.getElem?_singleton] at hp
        split_ifs at hp with hi
        cases hp
        have := List.length_pos_of_ne_nil hn
        exact ⟨hd, by rw [if_pos hi]; omega⟩
      · rw [grouped_of_le h, hf hd]
    case neg =>
      let front := ds.take (ds.length - 3)
      let back := ds.drop (ds.length - 3)
      have hs : ds = front ++ back := (List.take_append_drop _ ds).symm
      have hb : back.length = 3 := by
        rw [List.length_drop]
        omega
      have hfl : front.length = ds.length - 3 := by
        rw [List.length_take]
        omega
      have hfn : front ≠ [] := List.ne_nil_of_length_pos <| by omega
      have hd' : isDigits front ∧ isDigits back := by
        rw [hs, isDigits, List.all_append, Bool.and_eq_true] at hd
        exact hd
      obtain ⟨init, last, hsp, hg, hfi⟩ := ih front.length (by omega) hd'.left hfn List.not_mem_nil rfl
      rw [List.append_nil, List.append_nil] at hsp
      refine ⟨init ++ [last], back, ?_, ?_, ?_⟩
      · rw [hs, grouped_append hfn hb, List.append_assoc, List.cons_append, List.splitOn_append_cons_self, hsp,
          List.splitOn_eq_singleton]
        simp [hc hd'.right, ht]
      · exact hg.concat (by simp) hd'.right hb
      · rw [hs, grouped_append hfn hb, List.filter_append, hfi, List.filter_cons_of_neg (by simp), hf hd'.right]

open Reconcile (amountText fmtCentsForDetail)

theorem amountText_natCast (n : ℕ) : amountText n = js (toString n) :=
  rfl

theorem isDigits_amountText (n : ℕ) : isDigits (amountText n) :=
  List.all_eq_true.mpr <| Json.isDigit_js_toString n

-- The two digits of the cents.
theorem centsText_spec {r : ℕ} (hr : r < 100) : isDigits (padStart 2 (amountText r)) ∧
    (padStart 2 (amountText r)).length = 2 ∧ Json.digitsValue (padStart 2 (amountText r)) = r := by
  obtain ⟨hd, hl, hv⟩ := Json.padStart_spec (by omega : 0 < 2) hr
  exact ⟨List.all_eq_true.mpr hd, hl, hv⟩

-- The text of an amount without its currency symbol and sign.
def figure (n : ℕ) : JsString :=
  grouped (amountText (n / 100 : ℕ)) ++ 46 :: padStart 2 (amountText (n % 100 : ℕ))

theorem ne_of_isDigits {t : JsString} (h : isDigits t) (hu : u ∈ t) : u ≠ 44 ∧ u ≠ 46 := by
  have hu := List.all_eq_true.mp h u hu
  constructor <;>
  · rintro rfl
    exact absurd hu (by decide)

theorem mem_grouped {ds : JsString} (hd : isDigits ds) (hn : ds ≠ []) (h : u ∈ grouped ds) : u ∈ ds ∨ u = 44 := by
  obtain ⟨-, -, -, -, hf⟩ := splitOn_grouped hd hn (List.not_mem_nil : 44 ∉ ([] : JsString))
  by_cases hu : u = 44
  · exact .inr hu
  · refine .inl ?_
    rw [←hf, List.mem_filter]
    exact ⟨h, decide_eq_true hu⟩

theorem mem_figure {n : ℕ} (h : u ∈ figure n) : Json.isDigit u ∨ u = 44 ∨ u = 46 := by
  have hd {t : JsString} (ht : isDigits t) (hu : u ∈ t) : Json.isDigit u := List.all_eq_true.mp ht u hu
  rcases List.mem_append.mp h with h | h
  · rcases mem_grouped (isDigits_amountText _) (Json.js_toString_ne_nil _) h with h | h
    · exact .inl <| hd (isDigits_amountText _) h
    · exact .inr <| .inl h
  · rcases List.mem_cons.mp h with rfl | h
    · simp
    · exact .inl <| hd (centsText_spec <| Nat.mod_lt n (by omega)).left h

theorem centsOf_digits {ds fs : JsString} (hd : isDigits ds) (hn : ds ≠ []) (hf : isDigits fs) (hl : fs.length ≤ 2) :
    centsOf (ds ++ 46 :: fs) = some (ds, fs) := by
  have ht : (ds ++ 46 :: fs).takeWhile Json.isDigit = ds := by
    rw [List.takeWhile_append_of_pos <| List.all_eq_true.mp hd, List.takeWhile_cons_of_neg (by decide), List.append_nil]
  rw [centsOf, ht, List.drop_left]
  exact if_pos ⟨.inr rfl, hf, hl, fun h => hn h.left⟩

theorem isPlain_figure (n : ℕ) :
    IsPlain (figure n) (amountText (n / 100 : ℕ)) (padStart 2 (amountText (n % 100 : ℕ))) := by
  have hd := isDigits_amountText (n / 100)
  have hn : amountText (n / 100 : ℕ) ≠ [] := Json.js_toString_ne_nil _
  obtain ⟨hf, hl, -⟩ := centsText_spec (Nat.mod_lt n (show 0 < 100 by omega))
  have ht : 44 ∉ 46 :: padStart 2 (amountText (n % 100 : ℕ)) := by
    intro h
    rcases List.mem_cons.mp h with h | h
    · exact absurd h (by decide)
    · exact (ne_of_isDigits hf h).left rfl
  obtain ⟨init, last, hs, hg, hfi⟩ := splitOn_grouped hd hn ht
  constructor
  case ne_nil => simp [figure]
  case unsigned =>
    intro u hu
    rcases mem_figure hu with hu | rfl | rfl
    · constructor <;>
      · rintro rfl
        exact absurd hu (by decide)
    · decide
    · decide
  case grouped =>
    intro _
    rw [figure, hs]
    exact hg.groupsOk rfl
  case parts =>
    have hft : (46 :: padStart 2 (amountText (n % 100 : ℕ))).filter (· ≠ 44) =
        46 :: padStart 2 (amountText (n % 100 : ℕ)) := by
      refine List.filter_eq_self.mpr fun u hu => decide_eq_true ?_
      rintro rfl
      exact ht hu
    rw [figure, List.filter_append, hfi, hft]
    exact centsOf_digits hd hn hf hl.le

theorem centsValue_figure (n : ℕ) :
    centsValue (amountText (n / 100 : ℕ)) (padStart 2 (amountText (n % 100 : ℕ))) = n := by
  obtain ⟨-, hl, hv⟩ := centsText_spec (Nat.mod_lt n (show 0 < 100 by omega))
  rw [centsValue, hl, Nat.sub_self, List.replicate_zero, List.append_nil, hv, amountText_natCast,
    Json.digitsValue_js_toString]
  omega

theorem fmtCentsForDetail_eq (c : ℤ) :
    fmtCentsForDetail c = if c < 0 then 45 :: 36 :: figure c.natAbs else 36 :: figure c.natAbs := by
  simp only [fmtCentsForDetail, figure, List.append_assoc]
  rfl

theorem not_isSpace_figure {n : ℕ} (h : u ∈ figure n) : ¬ isSpace u := by
  intro hs
  rcases mem_figure h with hu | rfl | rfl
  · exact not_isRelevant_of_isSpace hs <| by simp [isRelevant, hu]
  · exact absurd hs (by decide)
  · exact absurd hs (by decide)

theorem trim_dollar (n : ℕ) : trim (36 :: figure n) = 36 :: figure n := by
  refine trim_eq_self fun u hu => ?_
  rcases List.mem_cons.mp hu with rfl | hu
  · decide
  · exact not_isSpace_figure hu

theorem trim_minus (n : ℕ) : trim (45 :: 36 :: figure n) = 45 :: 36 :: figure n := by
  refine trim_eq_self fun u hu => ?_
  rcases List.mem_cons.mp hu with rfl | hu
  · decide
  · rcases List.mem_cons.mp hu with rfl | hu
    · decide
    · exact not_isSpace_figure hu

theorem not_isParenthesized (h : u ≠ 40) : isParenthesized (u :: s) = false :=
  decide_eq_false fun h' => h <| Option.some_inj.mp h'.right.left

-- The text of an amount is parsed back, whatever the field and the row are.
def RoundTrips (c : ℤ) : Prop :=
  ∀ field loc, parseCents (some <| fmtCentsForDetail c) field loc = .ok c

theorem roundTrips_of_nonneg {n : ℕ} (h : n ≤ MAX_SAFE_INTEGER) : RoundTrips n := by
  intro field loc
  refine parseCents_eq_ok.mpr ⟨amountText (n / 100 : ℕ), padStart 2 (amountText (n % 100 : ℕ)), ?_⟩
  have he : fmtCentsForDetail n = 36 :: figure n := by
    rw [fmtCentsForDetail_eq, if_neg (by omega), Int.natAbs_natCast]
  have hp : isParenthesized (36 :: figure n) = false := not_isParenthesized (by decide)
  have hb : bare (36 :: figure n) = figure n := by
    rw [bare, unwrapped, hp]
    exact trim_eq_self fun u => not_isSpace_figure
  have hs : (figure n).head? ≠ some 43 ∧ (figure n).head? ≠ some 45 := by
    have hm {u} (h : (figure n).head? = some u) := (isPlain_figure n).unsigned u <| List.mem_of_head? h
    exact ⟨fun h => (hm h).left rfl, fun h => (hm h).right rfl⟩
  have hu : unsigned (figure n) = figure n := by
    rw [unsigned, if_neg]
    simpa [isSigned] using hs
  have hn : isNegative (36 :: figure n) = false := by
    rw [isNegative, hb, if_neg hs.right, hp]
  rw [he]
  constructor
  case ne_nil => simp [trim_dollar]
  case isPlain =>
    rw [trim_dollar, hb, hu]
    exact isPlain_figure n
  case inRange => rwa [centsValue_figure]
  case value =>
    rw [trim_dollar, hn, centsValue_figure]
    rfl

-- The currency symbol is only looked for before the sign.
theorem not_roundTrips_of_neg {c : ℤ} (h : c < 0) : ¬ RoundTrips c := by
  intro hr
  obtain ⟨whole, frac, a⟩ := parseCents_eq_ok.mp <| hr "amount" ⟨0, .bank⟩
  have he : fmtCentsForDetail c = 45 :: 36 :: figure c.natAbs := by rw [fmtCentsForDetail_eq, if_pos h]
  have hb : bare (45 :: 36 :: figure c.natAbs) = 45 :: 36 :: figure c.natAbs := by
    rw [bare, unwrapped, not_isParenthesized (by decide)]
    exact trim_minus c.natAbs
  have hu : unsigned (45 :: 36 :: figure c.natAbs) = 36 :: figure c.natAbs := trim_dollar c.natAbs
  have hparts := a.isPlain.parts
  rw [he, trim_minus, hb, hu, List.filter_cons_of_pos (by decide)] at hparts
  obtain ⟨hw, -, -, hs⟩ := centsOf_eq_some hparts
  rcases hs with ⟨hs, -⟩ | hs
  · exact absurd (hw 36 <| hs ▸ List.mem_cons_self) (by decide)
  · cases whole
    case nil => exact absurd (List.head_eq_of_cons_eq hs) (by decide)
    case cons u whole =>
      have hu := hw u List.mem_cons_self
      rw [←List.head_eq_of_cons_eq hs] at hu
      exact absurd hu (by decide)

end

end Ingest
