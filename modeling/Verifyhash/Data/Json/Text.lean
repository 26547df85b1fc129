import Verifyhash.Data.Unicode

-- The texts of strings.
namespace Json

open Unicode

def hex4 (u : UInt16) : JsString :=
  (Numeral.digits 16 4 u.toNat).map Hex.lowerDigit

-- The text of a code unit which is not half of a surrogate pair.
def unitText (u : UInt16) : JsString :=
  if u = 8 then js "\\b"
  else if u = 9 then js "\\t"
  else if u = 10 then js "\\n"
  else if u = 12 then js "\\f"
  else if u = 13 then js "\\r"
  else if u = 34 then js "\\\""
  else if u = 92 then js "\\\\"
  else if u < 32 ∨ isHigh u ∨ isLow u then js "\\u" ++ hex4 u
  else [u]

def unitTexts : JsString → JsString
  | u :: v :: s => if isHigh u ∧ isLow v then u :: v :: unitTexts s else unitText u ++ unitTexts (v :: s)
  | [u]         => unitText u
  | []          => []

-- `JSON.stringify(s)`
def quote (s : JsString) : JsString :=
  js "\"" ++ unitTexts s ++ js "\""

-- The code unit for which a letter after a backslash stands.
def unescape (u : UInt16) : Option UInt16 :=
  if u = 34 ∨ u = 92 ∨ u = 47 then some u
  else if u = 98 then some 8
  else if u = 102 then some 12
  else if u = 110 then some 10
  else if u = 114 then some 13
  else if u = 116 then some 9
  else none

-- The code unit of four hexadecimal digits.
def unhex4 (s : JsString) : Option UInt16 :=
  (s.mapM Hex.digit?).map fun ds => .ofNat <| Numeral.value 16 ds

-- A string up to the closing quotation mark, and the rest of the text.
def parseChars : JsString → Option (JsString × JsString)
  | [] => none
  | u :: s =>
    if u = 34 then
      some ([], s)
    else if u = 92 then
      match s with
      | 117 :: a :: b :: c :: d :: s =>
        (unhex4 [a, b, c, d]).bind fun u => (parseChars s).map fun (t, s) => (u :: t, s)
      | e :: s => (unescape e).bind fun u => (parseChars s).map fun (t, s) => (u :: t, s)
      | []     => none
    else if u < 32 then
      none
    else
      (parseChars s).map fun (t, s) => (u :: t, s)

-- What the parser makes of the text of a code unit.
def prepend (u : UInt16) (p : Option (JsString × JsString)) : Option (JsString × JsString) :=
  p.map fun (t, s) => (u :: t, s)

theorem unhex4_hex4 (u : UInt16) : unhex4 (hex4 u) = some u := by
  have hm : ∀ ds : List ℕ, (∀ d ∈ ds, d < 16) → (ds.map Hex.lowerDigit).mapM Hex.digit? = some ds := by
    intro ds h
    induction ds
    case nil => rfl
    case cons d ds ih =>
      have ⟨hd, h⟩ := List.forall_mem_cons.mp h
      simp [List.mapM_cons, Hex.digit?_lowerDigit hd, ih h]
  have hu : u.toNat < 16 ^ 4 := u.toNat_lt
  rw [unhex4, hex4, hm _ fun _ => Numeral.digits_lt (by omega), Option.map_some, Numeral.value_digits hu,
    UInt16.ofNat_toNat]

theorem parseChars_escape {e : UInt16} (he : e ≠ 117) (h : unescape e = some u) (t : JsString) :
    parseChars (92 :: e :: t) = prepend u (parseChars t) := by
  rw [parseChars, if_neg (by decide), if_pos rfl, h]
  · rfl
  · rintro _ _ _ _ _ rfl
    exact absurd rfl he

theorem parseChars_hex (u : UInt16) (t : JsString) :
    parseChars (js "\\u" ++ hex4 u ++ t) = prepend u (parseChars t) := by
  have hj : js "\\u" = [92, 117] := by decide
  obtain ⟨a, b, c, d, hh⟩ : ∃ a b c d, hex4 u = [a, b, c, d] := ⟨_, _, _, _, rfl⟩
  have := unhex4_hex4 u
  rw [hh] at this
  rw [hj, hh]
  simp [parseChars, this, prepend]

theorem parseChars_self (h₁ : u ≠ 34) (h₂ : u ≠ 92) (h₃ : ¬ u < 32) (t : JsString) :
    parseChars (u :: t) = prepend u (parseChars t) := by
  rw [parseChars.eq_def]
  simp only [if_neg h₁, if_neg h₂, if_neg h₃]
  rfl

theorem parseChars_unitText (u : UInt16) (t : JsString) :
    parseChars (unitText u ++ t) = prepend u (parseChars t) := by
  rw [unitText]
  split_ifs with h₁ h₂ h₃ h₄ h₅ h₆ h₇ h₈
  case pos => exact h₁ ▸ parseChars_escape (by decide) rfl t
  case pos => exact h₂ ▸ parseChars_escape (by decide) rfl t
  case pos => exact h₃ ▸ parseChars_escape (by decide) rfl t
  case pos => exact h₄ ▸ parseChars_escape (by decide) rfl t
  case pos => exact h₅ ▸ parseChars_escape (by decide) rfl t
  case pos => exact h₆ ▸ parseChars_escape (by decide) rfl t
  case pos => exact h₇ ▸ parseChars_escape (by decide) rfl t
  case pos => exact parseChars_hex u t
  case neg => exact parseChars_self h₆ h₇ (fun h => h₈ <| .inl h) t

-- A surrogate is no character with a special meaning.
theorem surrogate_ne (h : isHigh u ∨ isLow u) : u ≠ 34 ∧ u ≠ 92 ∧ ¬ u < 32 := by
  rw [isHigh_iff, isLow_iff] at h
  refine ⟨?_, ?_, fun hu => ?_⟩
  · rintro rfl
    revert h
    decide
  · rintro rfl
    revert h
    decide
  · have : u.toNat < 32 := UInt16.lt_iff_toNat_lt.mp hu
    omega

theorem parseChars_end (rest : JsString) : parseChars (js "\"" ++ rest) = some ([], rest) := by
  have hj : js "\"" = [34] := by decide
  rw [hj, List.singleton_append, parseChars.eq_def]
  rfl

-- A string is parsed back from its text.
theorem parseChars_unitTexts (s rest : JsString) :
    parseChars (unitTexts s ++ js "\"" ++ rest) = some (s, rest) := by
  fun_induction unitTexts s
  case case1 u v s h ih =>
    have ⟨u₁, u₂, u₃⟩ := surrogate_ne <| .inl h.left
    have ⟨v₁, v₂, v₃⟩ := surrogate_ne <| .inr h.right
    rw [List.cons_append, List.cons_append, List.cons_append, List.cons_append, parseChars_self u₁ u₂ u₃,
      parseChars_self v₁ v₂ v₃, ih]
    rfl
  case case2 u v s _ ih =>
    rw [List.append_assoc, List.append_assoc, ←List.append_assoc (unitTexts _), parseChars_unitText, ih]
    rfl
  case case3 u =>
    rw [List.append_assoc, parseChars_unitText, parseChars_end]
    rfl
  case case4 => exact parseChars_end rest

section

variable {s : JsString}

-- Printable ASCII.
def isPrintable (u : UInt16) : Bool :=
  32 ≤ u.toNat ∧ u.toNat < 128

-- Texts without control characters, in which every surrogate is paired.
structure Printable (s : JsString) : Prop where
  le         : ∀ u ∈ s, 32 ≤ u.toNat
  wellFormed : WellFormed s

namespace Printable

theorem append (h₁ : Printable s₁) (h₂ : Printable s₂) : Printable (s₁ ++ s₂) where
  le _ hu    := (List.mem_append.mp hu).elim (h₁.le _) (h₂.le _)
  wellFormed := h₁.wellFormed.append h₂.wellFormed

theorem ascii (h : s.all isPrintable) : Printable s := by
  have h : ∀ u ∈ s, 32 ≤ u.toNat ∧ u.toNat < 128 := by simpa [isPrintable] using h
  refine ⟨fun u hu => (h u hu).left, .of_units fun u hu => ?_⟩
  rw [isHigh_iff, isLow_iff]
  have := h u hu
  omega

theorem singleton (hu : 32 ≤ u.toNat) (hh : ¬ isHigh u) (hl : ¬ isLow u) : Printable [u] :=
  ⟨fun _ h => List.mem_singleton.mp h ▸ hu, .unit hh hl⟩

theorem pair (hu : isHigh u) (hv : isLow v) : Printable [u, v] := by
  refine ⟨?_, .pair hu hv⟩
  rw [isHigh_iff] at hu
  rw [isLow_iff] at hv
  simp only [List.mem_cons, List.not_mem_nil, or_false]
  rintro w (rfl | rfl) <;> omega

end Printable

theorem isPrintable_lowerDigit : ∀ d < 16, isPrintable (Hex.lowerDigit d) := by
  decide

theorem printable_unitText (u : UInt16) : Printable (unitText u) := by
  rw [unitText]
  split_ifs with h₁ h₂ h₃ h₄ h₅ h₆ h₇ h₈
  case pos => exact .ascii <| by decide
  case pos => exact .ascii <| by decide
  case pos => exact .ascii <| by decide
  case pos => exact .ascii <| by decide
  case pos => exact .ascii <| by decide
  case pos => exact .ascii <| by decide
  case pos => exact .ascii <| by decide
  case pos =>
    have hx : (hex4 u).all isPrintable := by
      rw [hex4, List.all_map, List.all_eq_true]
      exact fun d hd => isPrintable_lowerDigit d <| Numeral.digits_lt (by omega) hd
    exact (Printable.ascii <| by decide).append <| .ascii hx
  case neg =>
    have ⟨hu, hs⟩ := not_or.mp h₈
    have ⟨hh, hl⟩ := not_or.mp hs
    exact .singleton (not_lt.mp fun h => hu <| UInt16.lt_iff_toNat_lt.mpr h) hh hl

theorem printable_unitTexts (s : JsString) : Printable (unitTexts s) := by
  fun_induction unitTexts s
  case case1 h ih       => exact (Printable.pair h.left h.right).append ih
  case case2 u _ _ _ ih => exact (printable_unitText u).append ih
  case case3 u          => exact printable_unitText u
  case case4            => exact .ascii rfl

theorem printable_quote (s : JsString) : Printable (quote s) :=
  have hq : Printable (js "\"") := .ascii <| by decide
  (hq.append <| printable_unitTexts s).append hq

end

end Json
