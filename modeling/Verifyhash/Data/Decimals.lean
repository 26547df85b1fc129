import Verifyhash.Data.Text
import Verifyhash.Data.Words

-- The decimal texts of natural numbers.
namespace Json

theorem js_append (s t : String) : js (s ++ t) = js s ++ js t := by
  simp [js]

theorem js_digitChar {d : ℕ} (h : d < 10) : js (String.ofList [d.digitChar]) = [digitUnit d] := by
  have : ∀ d < 10, (UInt16.ofNat d.digitChar.toNat) = digitUnit d := by decide
  simp [js, this d h]

theorem js_toString_of_lt {n : ℕ} (h : n < 10) : js (toString n) = [digitUnit n] := by
  rw [Nat.toString_eq_ofList_toDigits, Nat.toDigits_of_lt_base h, js_digitChar h]

theorem js_toString_of_le {n : ℕ} (h : 10 ≤ n) : js (toString n) = js (toString (n / 10)) ++ [digitUnit (n % 10)] := by
  rw [Nat.toString_eq_ofList_toDigits, Nat.toDigits_of_base_le (by omega) h, String.ofList_append, js_append,
    js_digitChar <| Nat.mod_lt n (by omega), Nat.toString_eq_ofList_toDigits]

theorem js_toString_ne_nil (n : ℕ) : js (toString n) ≠ [] := by
  by_cases h : n < 10
  · rw [js_toString_of_lt h]
    simp
  · rw [js_toString_of_le <| not_lt.mp h]
    simp

theorem isDigit_js_toString (n : ℕ) : ∀ u ∈ js (toString n), isDigit u := by
  induction n using Nat.strongRecOn
  case ind n ih =>
    by_cases h : n < 10
    case pos =>
      rw [js_toString_of_lt h]
      simpa using digitUnit_spec h |>.left
    case neg =>
      rw [js_toString_of_le <| not_lt.mp h]
      intro u hu
      rcases List.mem_append.mp hu with hu | hu
      · exact ih (n / 10) (by omega) u hu
      · rw [List.mem_singleton.mp hu]
        exact digitUnit_spec (Nat.mod_lt n (by omega)) |>.left

theorem digitsValue_concat (s : JsString) (u : UInt16) : digitsValue (s ++ [u]) = digitsValue s * 10 + (u.toNat - 48) := by
  rw [digitsValue, List.map_append, List.map_singleton, Numeral.value_concat, digitsValue]

theorem digitsValue_lt {s : JsString} (h : ∀ u ∈ s, isDigit u) : digitsValue s < 10 ^ s.length := by
  have := Numeral.value_lt fun d (hm : d ∈ s.map fun u => u.toNat - 48) => by
    obtain ⟨u, hu, rfl⟩ := List.mem_map.mp hm
    have := h u hu
    simp only [isDigit, decide_eq_true_eq, UInt16.le_iff_toNat_le, UInt16.reduceToNat] at this
    exact (by omega : u.toNat - 48 < 10)
  simpa [digitsValue] using this

theorem digitsValue_js_toString (n : ℕ) : digitsValue (js (toString n)) = n := by
  induction n using Nat.strongRecOn
  case ind n ih =>
    by_cases h : n < 10
    case pos =>
      rw [js_toString_of_lt h]
      have := digitsValue_concat [] (digitUnit n)
      rw [List.nil_append, (digitUnit_spec h).right] at this
      simpa [digitsValue, Numeral.value] using this
    case neg =>
      rw [js_toString_of_le <| not_lt.mp h, digitsValue_concat, ih (n / 10) (by omega),
        (digitUnit_spec <| Nat.mod_lt n (by omega)).right]
      omega

theorem js_toString_inj {m n : ℕ} (h : js (toString m) = js (toString n)) : m = n := by
  rw [←digitsValue_js_toString m, h, digitsValue_js_toString]

-- A number has as many digits as the powers of ten which it reaches.
theorem length_js_toString_le {n k : ℕ} (hk : 0 < k) : (js (toString n)).length ≤ k ↔ n < 10 ^ k := by
  induction k generalizing n
  case zero => omega
  case succ k ih =>
    by_cases h : n < 10
    case pos =>
      have : 10 ≤ 10 ^ (k + 1) := Nat.le_self_pow (by omega) 10
      rw [js_toString_of_lt h]
      simp only [List.length_singleton]
      omega
    case neg =>
      have hn : n < 10 ^ (k + 1) ↔ n / 10 < 10 ^ k := by
        rw [Nat.div_lt_iff_lt_mul (by omega), Nat.pow_succ]
      rw [js_toString_of_le <| not_lt.mp h, List.length_append, List.length_singleton, hn]
      rcases Nat.eq_zero_or_pos k with rfl | hk
      · have := List.length_pos_iff.mpr <| js_toString_ne_nil (n / 10)
        simp only [Nat.pow_zero]
        omega
      · rw [←ih hk]
        omega

-- A number with zeros in front, as `String(n).padStart(w, "0")`.
theorem padStart_spec {n w : ℕ} (hw : 0 < w) (h : n < 10 ^ w) :
    (∀ u ∈ Words.padStart w (js (toString n)), isDigit u) ∧ (Words.padStart w (js (toString n))).length = w ∧
      digitsValue (Words.padStart w (js (toString n))) = n := by
  have hl := (length_js_toString_le hw).mpr h
  refine ⟨fun u hu => ?_, ?_, ?_⟩
  · rcases List.mem_append.mp hu with hu | hu
    · rw [List.eq_of_mem_replicate hu]
      rfl
    · exact isDigit_js_toString n u hu
  · rw [Words.padStart, List.length_append, List.length_replicate]
    omega
  · have hv := digitsValue_js_toString n
    rw [digitsValue] at hv
    rw [Words.padStart, digitsValue, List.map_append, Numeral.value_append, List.map_replicate]
    show Numeral.value 10 (.replicate _ 0) * _ + _ = _
    rw [Numeral.value_replicate_zero, Nat.zero_mul, Nat.zero_add, hv]

theorem isDigit_of_fits {i : ℕ} (h : fits pattern s) (hp : (js pattern)[i]? = some 100) (hs : s[i]? = some u) :
    isDigit u := by
  rw [fits, decide_eq_true_eq] at h
  have hz : ((js pattern).zip s)[i]? = some (100, u) := List.getElem?_zip_eq_some.mpr ⟨hp, hs⟩
  simpa using List.all_eq_true.mp h.right (100, u) <| List.mem_of_getElem? hz

theorem isDigits_take (h : fits pattern s) (k n : ℕ) (hp : ((js pattern).drop k).take n = .replicate n 100) :
    (∀ u ∈ (s.drop k).take n, isDigit u) ∧ ((s.drop k).take n).length = n := by
  have hi {i : ℕ} (h : i < n) : (js pattern)[k + i]? = some 100 := by
    have := congrArg (·[i]?) hp
    simpa [List.getElem?_take, List.getElem?_replicate, h] using this
  have hl : (js pattern).length = s.length := by
    rw [fits, decide_eq_true_eq] at h
    exact h.left
  refine ⟨fun u hu => ?_, ?_⟩
  · obtain ⟨i, hu⟩ := List.mem_iff_getElem?.mp hu
    rw [List.getElem?_take] at hu
    split_ifs at hu with hn
    rw [List.getElem?_drop] at hu
    exact isDigit_of_fits h (hi hn) hu
  · have := congrArg List.length hp
    simpa [hl] using this

-- A character of the pattern which stands for itself.
theorem drop_of_fits {p : UInt16} {i : ℕ} (h : fits pattern s) (hp : (js pattern)[i]? = some p) (hd : p ≠ 100) :
    s.drop i = p :: s.drop (i + 1) := by
  rw [fits, decide_eq_true_eq] at h
  have hi : i < s.length := h.left ▸ (List.getElem?_eq_some_iff.mp hp).choose
  have hz : ((js pattern).zip s)[i]? = some (p, s[i]) := List.getElem?_zip_eq_some.mpr ⟨hp, List.getElem?_eq_getElem hi⟩
  have hz := List.all_eq_true.mp h.right (p, s[i]) <| List.mem_of_getElem? hz
  simp only [if_neg hd, decide_eq_true_eq] at hz
  rw [List.drop_eq_getElem_cons hi, ←hz]

end Json

namespace Words

theorem not_isSpace_of_isDigit (h : Json.isDigit u) : ¬ isSpace u := by
  simp only [isSpace, Json.isDigit, decide_eq_true_eq, ←UInt16.toNat_inj, UInt16.le_iff_toNat_le] at h ⊢
  simp only [UInt16.reduceToNat] at h ⊢
  omega

theorem trim_eq_self {s : JsString} (h : ∀ u ∈ s, ¬ isSpace u) : trim s = s := by
  have hd : s.dropWhile isSpace = s := by
    cases s
    case nil => rfl
    case cons u s => exact List.dropWhile_cons_of_neg <| h u (by simp)
  rw [trim, hd, List.rdropWhile_eq_self_iff]
  exact fun hn => h _ <| List.getLast_mem hn

end Words
