import Verifyhash.Data.Json.Parse

-- The grammar of RFC 8259, and the values which its texts denote.
namespace Json

-- The syntax tree of a text, which keeps the texts of its numbers, and all of its fields.
inductive Tree
  | null
  | bool (b : Bool)
  | number (s : JsString)
  | string (s : JsString)
  | array (elems : List Tree)
  | object (fields : List (JsString × Tree))

-- The characters of a string, with the code units for which they stand.
inductive IsChars : JsString → JsString → Prop
  | nil : IsChars [] []
  | unescaped : u ≠ 34 → u ≠ 92 → ¬ u < 32 → IsChars s t → IsChars (u :: s) (u :: t)
  | escape : unescape e = some u → IsChars s t → IsChars (92 :: e :: s) (u :: t)
  | hex : unhex4 [a, b, c, d] = some u → IsChars s t → IsChars (92 :: 117 :: a :: b :: c :: d :: s) (u :: t)

structure IsDigits (s : JsString) : Prop where
  ne_nil  : s ≠ []
  isDigit : ∀ u ∈ s, isDigit u

inductive IsInt : JsString → Prop
  | zero : IsInt (js "0")
  | digits : u ≠ 48 → IsDigits (u :: s) → IsInt (u :: s)

inductive IsFraction : JsString → Prop
  | nil : IsFraction []
  | digits : IsDigits s → IsFraction (js "." ++ s)

inductive IsExponent : JsString → Prop
  | nil : IsExponent []
  | digits : e ∈ [js "e", js "E"] → sign ∈ [[], js "+", js "-"] → IsDigits s → IsExponent (e ++ sign ++ s)

inductive IsNumber : JsString → Prop
  | mk : minus ∈ [[], js "-"] → IsInt int → IsFraction fraction → IsExponent exponent →
    IsNumber (minus ++ int ++ fraction ++ exponent)

-- The rest of a text after some spaces.
def Space (s rest : JsString) : Prop :=
  ∃ spaces : JsString, (∀ u ∈ spaces, isSpace u) ∧ s = spaces ++ rest

-- A key and the colon after it, at the start of a text.
def KeyAt (s key rest : JsString) : Prop :=
  ∃ chars s', Space s (34 :: (chars ++ 34 :: s')) ∧ IsChars chars key ∧ Space s' (58 :: rest)

mutual

-- A value at the start of a text, and the rest of the text.
inductive ValueAt : JsString → Tree → JsString → Prop
  | null : ValueAt (js "null" ++ rest) .null rest
  | true : ValueAt (js "true" ++ rest) (.bool true) rest
  | false : ValueAt (js "false" ++ rest) (.bool false) rest
  | number : IsNumber s → ValueAt (s ++ rest) (.number s) rest
  | string : IsChars chars t → ValueAt (34 :: (chars ++ 34 :: rest)) (.string t) rest
  | emptyArray : Space s (93 :: rest) → ValueAt (91 :: s) (.array []) rest
  | array : ElemsAt s elems rest → ValueAt (91 :: s) (.array elems) rest
  | emptyObject : Space s (125 :: rest) → ValueAt (123 :: s) (.object []) rest
  | object : FieldsAt s fields rest → ValueAt (123 :: s) (.object fields) rest

-- The elements of an array, up to the closing bracket.
inductive ElemsAt : JsString → List Tree → JsString → Prop
  | last : Space s s₁ → ValueAt s₁ t s₂ → Space s₂ (93 :: rest) → ElemsAt s [t] rest
  | cons : Space s s₁ → ValueAt s₁ t s₂ → Space s₂ (44 :: s₃) → ElemsAt s₃ ts rest → ElemsAt s (t :: ts) rest

-- The fields of an object, up to the closing brace.
inductive FieldsAt : JsString → List (JsString × Tree) → JsString → Prop
  | last : KeyAt s key s₁ → Space s₁ s₂ → ValueAt s₂ t s₃ → Space s₃ (125 :: rest) → FieldsAt s [(key, t)] rest
  | cons : KeyAt s key s₁ → Space s₁ s₂ → ValueAt s₂ t s₃ → Space s₃ (44 :: s₄) → FieldsAt s₄ fields rest →
    FieldsAt s ((key, t) :: fields) rest

end

-- `JSON-text = ws value ws`
def IsText (s : JsString) (t : Tree) : Prop :=
  ∃ s₁ s₂, Space s s₁ ∧ ValueAt s₁ t s₂ ∧ Space s₂ []

-- `Number(s)` for the text of a number.
def toNumber (s : JsString) : Number :=
  ((parseNumber s).map (·.1)).getD .nan

mutual

-- The value of a text, where the last one of equal keys is kept.
def Tree.denote : Tree → Value
  | .null          => .null
  | .bool b        => .bool b
  | .number s      => .number <| toNumber s
  | .string s      => .string s
  | .array elems   => .array <| denoteElems elems
  | .object fields => .object <| (denoteFields fields).foldl (fun fields f => setField fields f.1 f.2) []

def Tree.denoteElems : List Tree → List Value
  | []      => []
  | t :: ts => t.denote :: denoteElems ts

def Tree.denoteFields : List (JsString × Tree) → List (JsString × Value)
  | []               => []
  | (key, t) :: rest => (key, t.denote) :: denoteFields rest

end

namespace Tree

-- The value is in the tree, and it is enclosed in the given number of containers.
inductive Encloses : Tree → ℕ → Tree → Prop
  | self : Encloses t 0 t
  | elem : t ∈ elems → Encloses t n v → Encloses (array elems) (n + 1) v
  | field : f ∈ fields → Encloses f.2 n v → Encloses (object fields) (n + 1) v

-- No object has two equal keys, and no value is below more than `maxDepth` containers.
structure Unambiguous (maxDepth depth : ℕ) (t : Tree) : Prop where
  distinct : ∀ n fields, t.Encloses n (.object fields) → (fields.map Prod.fst).Nodup
  shallow  : ∀ n v, t.Encloses n v → depth + n ≤ maxDepth

end Tree

namespace Tree

variable {maxDepth depth : ℕ}

-- A value which is not a container.
inductive IsLeaf : Tree → Prop
  | null : IsLeaf null
  | bool : IsLeaf (bool b)
  | number : IsLeaf (number s)
  | string : IsLeaf (string s)

theorem IsLeaf.unambiguous_iff (h : IsLeaf t) : t.Unambiguous maxDepth depth ↔ depth ≤ maxDepth := by
  refine ⟨fun hu => hu.shallow 0 _ .self, fun hd => ⟨fun n fields he => ?_, fun n v he => ?_⟩⟩
  · cases h <;> cases he
  · cases h <;> cases he <;> exact hd

theorem unambiguous_array_iff : (array elems).Unambiguous maxDepth depth ↔
    depth ≤ maxDepth ∧ ∀ t ∈ elems, t.Unambiguous maxDepth (depth + 1) := by
  constructor
  · refine fun h => ⟨h.shallow 0 _ .self, fun t ht => ⟨fun n fields he => ?_, fun n v he => ?_⟩⟩
    · exact h.distinct _ _ <| .elem ht he
    · have := h.shallow _ _ <| .elem ht he
      omega
  · refine fun ⟨hd, h⟩ => ⟨fun n fields he => ?_, fun n v he => ?_⟩
    · cases he with
      | elem ht he => exact (h _ ht).distinct _ _ he
    · cases he with
      | self => exact hd
      | elem ht he =>
        have := (h _ ht).shallow _ _ he
        omega

theorem unambiguous_object_iff : (object fields).Unambiguous maxDepth depth ↔
    depth ≤ maxDepth ∧ (fields.map Prod.fst).Nodup ∧ ∀ f ∈ fields, f.2.Unambiguous maxDepth (depth + 1) := by
  constructor
  · refine fun h => ⟨h.shallow 0 _ .self, h.distinct 0 _ .self, fun t ht => ⟨fun n fields he => ?_, fun n v he => ?_⟩⟩
    · exact h.distinct _ _ <| .field ht he
    · have := h.shallow _ _ <| .field ht he
      omega
  · refine fun ⟨hd, hn, h⟩ => ⟨fun n fields he => ?_, fun n v he => ?_⟩
    · cases he with
      | self => exact hn
      | field ht he => exact (h _ ht).distinct _ _ he
    · cases he with
      | self => exact hd
      | field ht he =>
        have := (h _ ht).shallow _ _ he
        omega

end Tree

theorem Space.length_le (h : Space s rest) : rest.length ≤ s.length := by
  obtain ⟨spaces, -, rfl⟩ := h
  simp

theorem KeyAt.length_lt (h : KeyAt s key rest) : rest.length < s.length := by
  obtain ⟨chars, s', h₁, -, h₂⟩ := h
  have h₁ := h₁.length_le
  have h₂ := h₂.length_le
  simp only [List.length_cons, List.length_append] at h₁ h₂
  omega

theorem IsNumber.length_pos (h : IsNumber s) : 0 < s.length := by
  obtain ⟨-, hi, -, -⟩ := h
  cases hi <;> simp [js]

mutual

theorem ValueAt.length_lt : ValueAt s t rest → rest.length < s.length
  | .null          => by simp [js]; omega
  | .true          => by simp [js]; omega
  | .false         => by simp [js]; omega
  | .number h      => by simpa using h.length_pos
  | .string _      => by simp; omega
  | .emptyArray h  => by simpa using h.length_le.trans (Nat.le_succ _)
  | .array h       => h.length_lt.trans (Nat.lt_succ_self _)
  | .emptyObject h => by simpa using h.length_le.trans (Nat.le_succ _)
  | .object h      => h.length_lt.trans (Nat.lt_succ_self _)

theorem ElemsAt.length_lt : ElemsAt s ts rest → rest.length < s.length
  | .last h₁ h h₂    => (Nat.lt_of_succ_le h₂.length_le).trans <| h.length_lt.trans_le h₁.length_le
  | .cons h₁ h h₂ hs =>
    hs.length_lt.trans <| (Nat.lt_of_succ_le h₂.length_le).trans <| h.length_lt.trans_le h₁.length_le

theorem FieldsAt.length_lt : FieldsAt s fields rest → rest.length < s.length
  | .last hk h₁ h h₂    =>
    (Nat.lt_of_succ_le h₂.length_le).trans <| h.length_lt.trans <| h₁.length_le.trans_lt hk.length_lt
  | .cons hk h₁ h h₂ hs =>
    hs.length_lt.trans <| (Nat.lt_of_succ_le h₂.length_le).trans <| h.length_lt.trans <|
      h₁.length_le.trans_lt hk.length_lt

end

namespace Tree

@[simp]
theorem denoteElems_eq : denoteElems ts = ts.map denote := by
  induction ts <;> simp_all [denoteElems]

def denoteField (f : JsString × Tree) : JsString × Value :=
  (f.1, f.2.denote)

@[simp]
theorem denoteFields_eq : denoteFields fs = fs.map denoteField := by
  induction fs <;> simp_all [denoteFields, denoteField]

@[simp]
theorem map_fst_denoteField {fs : List (JsString × Tree)} :
    (fs.map denoteField).map Prod.fst = fs.map Prod.fst := by
  simp [denoteField, Function.comp_def]

-- All fields are kept if their keys are distinct.
theorem denote_object (h : (fs.map Prod.fst).Nodup) : (object fs).denote = .object (fs.map denoteField) := by
  have hn : (([] ++ fs.map denoteField).map Prod.fst).Nodup := by rwa [List.nil_append, map_fst_denoteField]
  rw [denote, denoteFields_eq, foldl_setField hn, List.nil_append]

@[simp]
theorem denote_array : (array ts).denote = .array (ts.map denote) := by
  rw [denote, denoteElems_eq]

end Tree

section

variable {s rest : JsString}

theorem space_skip (s : JsString) : Space s (skip s) :=
  ⟨s.takeWhile isSpace, fun _ hu => List.mem_takeWhile_imp hu, List.takeWhile_append_dropWhile.symm⟩

theorem Space.refl : Space s s :=
  ⟨[], by simp, rfl⟩

theorem Space.trans (h₁ : Space s₁ s₂) (h₂ : Space s₂ s₃) : Space s₁ s₃ := by
  obtain ⟨spaces₁, hs₁, rfl⟩ := h₁
  obtain ⟨spaces₂, hs₂, rfl⟩ := h₂
  refine ⟨spaces₁ ++ spaces₂, fun u hu => ?_, by simp⟩
  exact (List.mem_append.mp hu).elim (hs₁ u) (hs₂ u)

-- All spaces are skipped.
theorem Space.skip_eq (h : Space s rest) : skip s = skip rest := by
  obtain ⟨spaces, hs, rfl⟩ := h
  exact List.dropWhile_append_of_pos hs

theorem Space.skip_cons (h : Space s (u :: rest)) (hu : ¬ isSpace u) : skip s = u :: rest :=
  h.skip_eq.trans <| Json.skip_cons hu

theorem skip_eq_nil_iff : skip s = [] ↔ Space s [] :=
  ⟨fun h => h ▸ space_skip s, fun h => h.skip_eq.trans rfl⟩

theorem expect_eq_some_iff {part : JsString} : expect part s = some rest ↔ s = part ++ rest := by
  constructor
  · intro h
    rw [expect] at h
    split_ifs at h with ht
    cases h
    conv => lhs; rw [←List.take_append_drop part.length s, ht]
  · rintro rfl
    exact expect_append

-- What comes next, after some spaces.
theorem expect_skip_iff {part : String} (hj : js part = [c]) (hc : ¬ isSpace c) :
    expect (js part) (skip s) = some rest ↔ Space s (c :: rest) := by
  rw [hj]
  constructor
  · intro h
    have hs := space_skip s
    cases hk : skip s
    case nil => simp [hk, expect] at h
    case cons u s' =>
      by_cases hu : u = c
      case pos =>
        subst hu
        obtain rfl : s' = rest := by simpa [hk, expect] using h
        rwa [hk] at hs
      case neg =>
        rw [hk, expect_eq_none hu] at h
        cases h
  · intro h
    rw [h.skip_cons hc]
    simp [expect]

theorem expect_skip_eq_none {part : String} (hj : js part = [c]) (h : Space s (u :: rest)) (hu : ¬ isSpace u)
    (hn : u ≠ c) : expect (js part) (skip s) = none := by
  rw [hj, h.skip_cons hu]
  exact expect_eq_none hn

theorem expect_comma_iff : expect (js ",") (skip s) = some rest ↔ Space s (44 :: rest) :=
  expect_skip_iff rfl (by decide)

theorem expect_colon_iff : expect (js ":") (skip s) = some rest ↔ Space s (58 :: rest) :=
  expect_skip_iff rfl (by decide)

theorem expect_bracket_iff : expect (js "]") (skip s) = some rest ↔ Space s (93 :: rest) :=
  expect_skip_iff rfl (by decide)

theorem expect_brace_iff : expect (js "\x7d") (skip s) = some rest ↔ Space s (125 :: rest) :=
  expect_skip_iff rfl (by decide)

theorem expect_comma_of_ne (h : Space s (u :: rest)) (hu : u ∈ [93, 125]) : expect (js ",") (skip s) = none := by
  fin_cases hu
  · exact expect_skip_eq_none rfl h (by decide) (by decide)
  · exact expect_skip_eq_none rfl h (by decide) (by decide)

theorem Space.ends (h : Space s (u :: rest)) (hu : u ∈ [44, 93, 125]) : Ends s := by
  obtain ⟨spaces, hs, rfl⟩ := h
  cases spaces
  case nil =>
    rintro v ⟨rfl⟩
    fin_cases hu <;> decide
  case cons v spaces =>
    rintro w ⟨rfl⟩
    have := hs v List.mem_cons_self
    simp only [isSpace, decide_eq_true_eq] at this
    rcases this with rfl | rfl | rfl | rfl <;> decide

theorem Space.ends_nil (h : Space s []) : Ends s := by
  obtain ⟨spaces, hs, rfl⟩ := h
  cases spaces
  case nil => rintro v ⟨⟩
  case cons v spaces =>
    rintro w ⟨rfl⟩
    have := hs v List.mem_cons_self
    simp only [isSpace, decide_eq_true_eq] at this
    rcases this with rfl | rfl | rfl | rfl <;> decide

theorem head_of_isInt (h : IsInt x) : ∃ u s, x = u :: s ∧ isDigit u := by
  cases h
  case zero => exact ⟨48, [], rfl, by decide⟩
  case digits u s _ h => exact ⟨u, s, rfl, h.isDigit u List.mem_cons_self⟩

theorem head_of_isNumber (h : IsNumber x) : ∃ u s, x = u :: s ∧ (isDigit u ∨ u = 45) := by
  obtain ⟨hm, hi, hf, he⟩ := h
  obtain ⟨u, s, rfl, hu⟩ := head_of_isInt hi
  fin_cases hm
  · exact ⟨u, _, rfl, .inl hu⟩
  · exact ⟨45, _, rfl, .inr rfl⟩

-- A value starts with something else than a space or a closing bracket.
theorem ValueAt.head (h : ValueAt s t rest) : ∃ u s', s = u :: s' ∧ ¬ isSpace u ∧ u ≠ 93 ∧ u ≠ 125 := by
  cases h
  case number hn =>
    obtain ⟨u, s, rfl, hu⟩ := head_of_isNumber hn
    have hne (c : UInt16) (hc : ¬ (isDigit c ∨ c = 45)) : u ≠ c := fun h => hc <| h ▸ hu
    refine ⟨u, _, rfl, ?_, hne 93 (by decide), hne 125 (by decide)⟩
    simp [isSpace, hne 9 (by decide), hne 10 (by decide), hne 13 (by decide), hne 32 (by decide)]
  all_goals exact ⟨_, _, rfl, by decide⟩

theorem ElemsAt.head (h : ElemsAt s ts rest) : ∃ u s', Space s (u :: s') ∧ ¬ isSpace u ∧ u ≠ 93 := by
  cases h with
  | last h₁ h _ | cons h₁ h _ _ =>
    obtain ⟨u, s', rfl, hu, hn, -⟩ := h.head
    exact ⟨u, s', h₁, hu, hn⟩

theorem FieldsAt.head (h : FieldsAt s fs rest) : ∃ s', Space s (34 :: s') := by
  cases h with
  | last hk _ _ _ | cons hk _ _ _ _ =>
    obtain ⟨chars, s', h, -, -⟩ := hk
    exact ⟨_, h⟩

end

section

variable {s rest : JsString}

theorem span_digits (h : ∀ u ∈ ds, isDigit u) (hr : ∀ u ∈ rest.head?, ¬ isDigit u) :
    (ds ++ rest).takeWhile isDigit = ds ∧ (ds ++ rest).dropWhile isDigit = rest := by
  rw [List.takeWhile_append_of_pos h, List.dropWhile_append_of_pos h]
  cases rest
  case nil => simp
  case cons u rest =>
    have : isDigit u = false := by simpa using hr u rfl
    simp [this]

-- What follows an integer does not go on with a digit.
theorem not_isDigit_exponent (h : IsExponent e) (hr : Ends rest) : ∀ u ∈ (e ++ rest).head?, ¬ isDigit u := by
  cases h
  case nil => exact hr.head
  case digits he hs hd => fin_cases he <;> rintro u ⟨rfl⟩ <;> decide

theorem not_isDigit_fraction (h : IsFraction f) (he : IsExponent e) (hr : Ends rest) :
    ∀ u ∈ (f ++ (e ++ rest)).head?, ¬ isDigit u := by
  cases h
  case nil =>
    rw [List.nil_append]
    exact not_isDigit_exponent he hr
  case digits => exact not_isDigit_point _

theorem take_exponent_ne (h : IsExponent e) (hr : Ends rest) : (e ++ rest).take 1 ≠ js "." := by
  cases h
  case nil => exact hr.take_ne.left
  case digits he hs hd =>
    have hn : ∀ u : UInt16, u ≠ 46 → ∀ s, (u :: s).take 1 ≠ js "." := by simp [js]
    fin_cases he
    · exact hn 101 (by decide) _
    · exact hn 69 (by decide) _

theorem parseFraction_of_isFraction (h : IsFraction f) : ∃ ds, ∀ e rest, IsExponent e → Ends rest →
    parseFraction (f ++ (e ++ rest)) = some (ds, e ++ rest) := by
  cases h
  case nil => exact ⟨[], fun e rest he hr => parseFraction_of_ne (s := e ++ rest) <| take_exponent_ne he hr⟩
  case digits ds hd =>
    refine ⟨ds, fun e rest he hr => ?_⟩
    have ht : (js "." ++ ds ++ (e ++ rest)).take 1 = js "." := rfl
    have hr' : (js "." ++ ds ++ (e ++ rest)).drop 1 = ds ++ (e ++ rest) := rfl
    have ⟨h₁, h₂⟩ := span_digits hd.isDigit <| not_isDigit_exponent he hr
    rw [parseFraction, if_pos ht, hr', h₁, h₂]
    dsimp only
    rw [if_neg hd.ne_nil]

theorem parseExponent_of_isExponent (h : IsExponent e) : ∃ k, ∀ rest, Ends rest →
    parseExponent (e ++ rest) = some (k, rest) := by
  cases h
  case nil => exact ⟨0, fun rest hr => parseExponent_of_ends hr⟩
  case digits e sign ds he hs hd =>
    obtain ⟨d, ds, rfl⟩ := List.exists_cons_of_ne_nil hd.ne_nil
    have hdd : d ≠ 43 ∧ d ≠ 45 := by
      have := hd.isDigit d List.mem_cons_self
      constructor <;> rintro rfl <;> exact absurd this (by decide)
    refine ⟨if sign = js "-" then -digitsValue (d :: ds) else digitsValue (d :: ds), fun rest hr => ?_⟩
    have ⟨h₁, h₂⟩ := span_digits hd.isDigit hr.head
    have hd' : (d :: ds ++ rest).take 1 ≠ js "-" ∧ (d :: ds ++ rest).take 1 ≠ js "+" := by
      simp [js, hdd]
    have he' (s : JsString) : (e ++ s).take 1 = js "e" ∨ (e ++ s).take 1 = js "E" := by
      fin_cases he
      · exact .inl rfl
      · exact .inr rfl
    have hde (s : JsString) : (e ++ s).drop 1 = s ∧ (e ++ s).drop 2 = s.drop 1 := by
      fin_cases he <;> exact ⟨rfl, rfl⟩
    rw [parseExponent, List.append_assoc, List.append_assoc, if_pos (he' _), (hde _).left, (hde _).right]
    fin_cases hs
    · simp only [List.nil_append, hd', false_or, if_false, h₁, h₂]
      rw [if_neg hd.ne_nil]
      rfl
    · have hn : (js "+" ++ (d :: ds ++ rest)).take 1 ≠ js "-" := by simp [js]
      have hp : (js "+" ++ (d :: ds ++ rest)).take 1 = js "+" := rfl
      have hdr : (js "+" ++ (d :: ds ++ rest)).drop 1 = d :: ds ++ rest := rfl
      simp only [hp, or_true, if_true, hdr, h₁, h₂]
      rw [if_neg hd.ne_nil]
    · have hn : (js "-" ++ (d :: ds ++ rest)).take 1 = js "-" := rfl
      have hdr : (js "-" ++ (d :: ds ++ rest)).drop 1 = d :: ds ++ rest := rfl
      simp only [hn, true_or, if_true, hdr, h₁, h₂]
      rw [if_neg hd.ne_nil]

theorem IsInt.spec (h : IsInt x) :
    (∀ u ∈ x, Json.isDigit u) ∧ x ≠ [] ∧ (x.take 1 = js "0" → x.length = 1) := by
  cases h
  case zero => exact ⟨by simp [js]; decide, by simp [js], fun _ => rfl⟩
  case digits u s hu h =>
    refine ⟨h.isDigit, List.cons_ne_nil u s, fun ht => ?_⟩
    have : u = 48 := by simpa [js] using ht
    exact absurd this hu

-- The text of a number is parsed completely if nothing follows which would belong to it.
theorem parseNumber_append (h : IsNumber x) (hr : Ends rest) : parseNumber (x ++ rest) = some (toNumber x, rest) := by
  suffices hv : ∃ v, ∀ rest, Ends rest → parseNumber (x ++ rest) = some (v, rest) by
    obtain ⟨v, hv⟩ := hv
    have hx := hv [] (by rintro u ⟨⟩)
    rw [List.append_nil] at hx
    rw [hv rest hr, toNumber, hx]
    rfl
  obtain ⟨hm, hi, hf, he⟩ := h
  obtain ⟨fs, hf'⟩ := parseFraction_of_isFraction hf
  obtain ⟨k, he'⟩ := parseExponent_of_isExponent he
  rename_i minus int fraction exponent
  obtain ⟨hd, hn, hz⟩ := hi.spec
  have hu (neg : Bool) (rest : JsString) (hr : Ends rest) :
      parseUnsigned neg (int ++ (fraction ++ (exponent ++ rest))) =
        some (ofRational neg <| digitsValue (int ++ fs) * 10 ^ (k - fs.length), rest) := by
    have ⟨h₁, h₂⟩ := span_digits hd <| not_isDigit_fraction hf he hr
    have hg : int ≠ [] ∧ (int.take 1 = js "0" → int.length = 1) := ⟨hn, hz⟩
    rw [parseUnsigned, h₁, h₂, hf' exponent rest he hr, guard, if_pos hg]
    simp [he' rest hr]
  refine ⟨ofRational (minus = js "-") <| digitsValue (int ++ fs) * 10 ^ (k - fs.length), fun rest hr => ?_⟩
  simp only [List.append_assoc]
  rw [parseNumber]
  fin_cases hm
  · have hh : (int ++ (fraction ++ (exponent ++ rest))).take 1 ≠ js "-" := by
      obtain ⟨u, s, rfl, hv⟩ := head_of_isInt hi
      have : u ≠ 45 := by
        rintro rfl
        exact absurd hv (by decide)
      simpa [js] using this
    rw [List.nil_append, if_neg hh, hu false rest hr]
    rfl
  · have hh : (js "-" ++ (int ++ (fraction ++ (exponent ++ rest)))).take 1 = js "-" := rfl
    have hd : (js "-" ++ (int ++ (fraction ++ (exponent ++ rest)))).drop 1 =
        int ++ (fraction ++ (exponent ++ rest)) := rfl
    rw [if_pos hh, hd, hu true rest hr]
    rfl

theorem parseChars_append (h : IsChars x t) : parseChars (x ++ 34 :: rest) = some (t, rest) := by
  induction h
  case nil => rw [List.nil_append, parseChars.eq_def]; rfl
  case unescaped h₁ h₂ h₃ _ ih =>
    rw [List.cons_append, parseChars_self h₁ h₂ h₃, ih]
    rfl
  case escape e u s t he _ ih =>
    have hne : e ≠ 117 := by
      rintro rfl
      have hu : unescape 117 = none := by decide
      rw [hu] at he
      cases he
    rw [List.cons_append, List.cons_append, parseChars_escape hne he, ih]
    rfl
  case hex a b c d u s t hu _ ih =>
    have : parseChars (92 :: 117 :: a :: b :: c :: d :: (s ++ 34 :: rest)) =
        (unhex4 [a, b, c, d]).bind fun u => prepend u <| parseChars (s ++ 34 :: rest) := by
      rw [parseChars, if_neg (by decide), if_pos rfl]
      rfl
    exact this.trans <| by rw [hu, ih]; rfl

theorem parseKey_of_keyAt (h : KeyAt s key rest) : parseKey s = some (key, rest) := by
  obtain ⟨chars, s', h₁, hc, h₂⟩ := h
  have h₁ : expect (js "\"") (skip s) = some (chars ++ 34 :: s') := (expect_skip_iff rfl (by decide)).mpr h₁
  have h₂ : expect (js ":") (skip s') = some rest := (expect_skip_iff rfl (by decide)).mpr h₂
  rw [parseKey, h₁, Option.bind_eq_bind, Option.bind_some, parseChars_append hc, Option.bind_eq_bind,
    Option.bind_some]
  simp only [h₂, Option.bind_some, Option.pure_def]

-- What `JSON.parse` makes of a value, of elements and of fields which the grammar derives.
theorem parseValue_complete (fuel : ℕ) :
    (∀ s s' t rest, Space s s' → ValueAt s' t rest → Ends rest → 2 * s.length ≤ fuel →
      parseValue fuel s = some (t.denote, rest)) ∧
    (∀ s ts rest, ElemsAt s ts rest → 2 * s.length + 1 ≤ fuel →
      parseElems fuel s = some (ts.map Tree.denote, rest)) ∧
    (∀ s fs rest, FieldsAt s fs rest → 2 * s.length + 1 ≤ fuel →
      parseFields fuel s = some (fs.map Tree.denoteField, rest)) := by
  induction fuel
  case zero =>
    refine ⟨fun s s' t rest hs h _ hf => ?_, fun s ts rest _ hf => ?_, fun s fs rest _ hf => ?_⟩
    · have := h.length_lt.trans_le hs.length_le
      omega
    · omega
    · omega
  case succ fuel ih =>
    obtain ⟨ihv, ihe, ihf⟩ := ih
    refine ⟨fun s s' t rest hs h hr hf => ?_, fun s ts rest h hf => ?_, fun s fs rest h hf => ?_⟩
    case refine_1 =>
      have hl := hs.length_le
      rw [parseValue]
      cases h with
      | null =>
        have hs : Space s (110 :: (js "ull" ++ rest)) := hs
        simp [hs.skip_cons, isSpace, expect_append, Tree.denote]
      | true =>
        have hs : Space s (116 :: (js "rue" ++ rest)) := hs
        simp [hs.skip_cons, isSpace, expect_append, Tree.denote]
      | false =>
        have hs : Space s (102 :: (js "alse" ++ rest)) := hs
        simp [hs.skip_cons, isSpace, expect_append, Tree.denote]
      | number hn =>
        have hp := parseNumber_append hn hr
        obtain ⟨u, x, rfl, hu⟩ := head_of_isNumber hn
        have hne (c : UInt16) (hc : ¬ (isDigit c ∨ c = 45)) : u ≠ c := fun h => hc <| h ▸ hu
        have hsp : ¬ isSpace u := by
          simp [isSpace, hne 9 (by decide), hne 10 (by decide), hne 13 (by decide), hne 32 (by decide)]
        rw [List.cons_append] at hs hp
        rw [hs.skip_cons hsp]
        simp only [hne 34 (by decide), hne 91 (by decide), hne 123 (by decide), hne 110 (by decide),
          hne 116 (by decide), hne 102 (by decide), if_false, hp, Option.map_some, Tree.denote]
      | string hc =>
        rw [hs.skip_cons (by decide)]
        dsimp only
        rw [if_pos rfl, parseChars_append hc]
        rfl
      | emptyArray h =>
        rw [hs.skip_cons (by decide)]
        dsimp only
        rw [if_neg (by decide), if_pos rfl, expect_bracket_iff.mpr h]
        simp [Tree.denote]
      | array h =>
        obtain ⟨u, s₁, h₁, hu, hn⟩ := h.head
        have hl := hs.length_le
        rw [List.length_cons] at hl
        rw [hs.skip_cons (by decide)]
        dsimp only
        rw [if_neg (by decide), if_pos rfl, expect_skip_eq_none rfl h₁ hu hn, ihe _ _ _ h (by omega)]
        simp [Tree.denote]
      | emptyObject h =>
        rw [hs.skip_cons (by decide)]
        dsimp only
        rw [if_neg (by decide), if_neg (by decide), if_pos rfl, expect_brace_iff.mpr h]
        simp [Tree.denote]
      | object h =>
        obtain ⟨s₁, h₁⟩ := h.head
        have hl := hs.length_le
        rw [List.length_cons] at hl
        rw [hs.skip_cons (by decide)]
        dsimp only
        rw [if_neg (by decide), if_neg (by decide), if_pos rfl,
          expect_skip_eq_none rfl h₁ (by decide) (by decide), ihf _ _ _ h (by omega)]
        simp [Tree.denote]
    case refine_2 =>
      rw [parseElems]
      cases h with
      | last h₁ h h₂ =>
        rw [ihv _ _ _ _ h₁ h (h₂.ends <| by decide) (by omega), Option.bind_some]
        simp only [expect_comma_of_ne h₂ (by decide), expect_bracket_iff.mpr h₂]
        rfl
      | cons h₁ h h₂ hs =>
        have hl := (Nat.lt_of_succ_le h₂.length_le).trans <| h.length_lt.trans_le h₁.length_le
        rw [ihv _ _ _ _ h₁ h (h₂.ends <| by decide) (by omega), Option.bind_some]
        simp only [expect_comma_iff.mpr h₂, ihe _ _ _ hs (by omega)]
        rfl
    case refine_3 =>
      rw [parseFields]
      cases h with
      | last hk h₁ h h₂ =>
        have hl := hk.length_lt
        rw [parseKey_of_keyAt hk, Option.bind_some]
        dsimp only
        rw [ihv _ _ _ _ h₁ h (h₂.ends <| by decide) (by omega), Option.bind_some]
        simp only [expect_comma_of_ne h₂ (by decide), expect_brace_iff.mpr h₂]
        rfl
      | cons hk h₁ h h₂ hs =>
        have hl := (Nat.lt_of_succ_le h₂.length_le).trans <| h.length_lt.trans <| h₁.length_le.trans_lt hk.length_lt
        have hl' := hk.length_lt
        rw [parseKey_of_keyAt hk, Option.bind_some]
        dsimp only
        rw [ihv _ _ _ _ h₁ h (h₂.ends <| by decide) (by omega), Option.bind_some]
        simp only [expect_comma_iff.mpr h₂, ihf _ _ _ hs (by omega)]
        rfl

-- `JSON.parse` reads every text of the grammar, as the value which it denotes.
theorem parse_of_isText (h : IsText s t) : parse s = some t.denote := by
  obtain ⟨s₁, s₂, h₁, h, h₂⟩ := h
  rw [parse, (parseValue_complete _).left s s₁ t s₂ h₁ h h₂.ends_nil le_rfl]
  simp [skip_eq_nil_iff.mpr h₂]

end

end Json
