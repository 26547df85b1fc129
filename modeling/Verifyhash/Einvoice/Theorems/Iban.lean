import Verifyhash.Einvoice.Iban
import Verifyhash.Library.Checksum

namespace Iban

-- The number without spaces.
def compact (s : Str) : Str :=
  s.filter (¬ Str.isSpace ·)

-- An error in a number: one character is replaced by another one of its kind, or two neighbours of one kind
-- are swapped in the check digits or in the account.
inductive SingleError : Str → Str → Prop
  | digit  : isDigit x → isDigit y → x ≠ y → SingleError (a ++ x :: b) (a ++ y :: b)
  | letter : isUpper x → isUpper y → x ≠ y → SingleError (a ++ x :: b) (a ++ y :: b)
  | digits : isDigit x → isDigit y → x ≠ y → (compact a).length = 2 ∨ 4 ≤ (compact a).length →
    SingleError (a ++ x :: y :: b) (a ++ y :: x :: b)
  | letters : isUpper x → isUpper y → x ≠ y → (compact a).length = 2 ∨ 4 ≤ (compact a).length →
    SingleError (a ++ x :: y :: b) (a ++ y :: x :: b)

-- The sum which is tested, and the weight of a character in it.
def weight (c : Char) : ZMod 97 :=
  10 ^ (Nat.toDigits 10 (code c)).length

def digit (c : Char) : ZMod 97 :=
  code c

-- The country code and the check digits are moved to the end.
def rotate (s : Str) : Str :=
  s.drop 4 ++ s.take 4

section

variable {s text : Str} {x y : Char}

theorem flatten_words : (words text).flatten = compact text := by
  have hf : ∀ l : List Str, (l.filter (· ≠ [])).flatten = l.flatten := by
    intro l
    induction l
    case nil => rfl
    case cons s l ih => cases s <;> simp_all
  rw [words, hf, compact]
  induction text
  case nil => rfl
  case cons c s ih =>
    rw [List.splitOnP_cons_eq_if_modifyHead, List.filter_cons]
    split_ifs with hc hn hn
    · simp [hc] at hn
    · simpa using ih
    · obtain ⟨p, ps, hs⟩ := List.exists_cons_of_ne_nil <| List.splitOnP_ne_nil Str.isSpace s
      rw [hs] at ih ⊢
      simpa using ih
    · simp [hc] at hn

-- The words of a text are joined by a space, unless there is only one.
theorem nsp_eq_compact (h : ' ' ∉ nsp (some text)) : nsp (some text) = compact text := by
  simp only [nsp] at h ⊢
  rw [←flatten_words]
  generalize words text = ws at h ⊢
  rcases ws with _ | ⟨w, _ | ⟨v, ws⟩⟩
  · rfl
  · simp [List.intercalate]
  · simp [List.intercalate] at h

theorem compact_removeSpaces : compact (removeSpaces text) = compact text := by
  rw [compact, compact, removeSpaces, List.filter_filter]
  apply List.filter_congr
  intro c _
  have hs : ∀ c ∈ [' ', '\n', '\r', '\t'], Str.isSpace c := List.all_eq_true.mp (by decide)
  by_cases hc : c ∈ [' ', '\n', '\r', '\t']
  · simp [hs c hc, hc]
  · simp [hc]

theorem isUpper_iff : isUpper x ↔ 65 ≤ x.toNat ∧ x.toNat ≤ 90 := by
  simp [isUpper, Char.le_def, UInt32.le_iff_toNat_le]

theorem isDigit_iff : isDigit x ↔ 48 ≤ x.toNat ∧ x.toNat ≤ 57 := by
  simp [isDigit, Char.le_def, UInt32.le_iff_toNat_le]

theorem space_not_mem (h : hasShape s) : ' ' ∉ s := by
  simp only [hasShape, decide_eq_true_eq, List.all_eq_true] at h
  obtain ⟨-, hu, hd, -, ha⟩ := h
  intro hm
  rw [←List.take_append_drop 2 s, List.mem_append, ←List.take_append_drop 2 (s.drop 2), List.mem_append,
    List.drop_drop] at hm
  rcases hm with hm | hm | hm
  · exact absurd (hu _ hm) (by decide)
  · exact absurd (hd _ hm) (by decide)
  · exact absurd (ha _ hm) (by decide)

theorem toUpper_of_isUpper (h : isUpper x) : x.toUpper = x := by
  rw [isUpper_iff] at h
  rw [Char.toUpper, dif_neg]
  rintro ⟨h', -⟩
  have : 97 ≤ x.toNat := UInt32.le_iff_toNat_le.mp h'
  omega

theorem int_flatMap : (int (s.flatMap fun c => Nat.toDigits 10 (code c)) : ZMod 97) =
    Checksum.eval weight digit s := by
  have hi (acc : ℕ) : ((Nat.ofDigitChars 10 (s.flatMap fun c => Nat.toDigits 10 (code c)) acc : ℕ) : ZMod 97) =
      s.foldl (fun acc c => acc * weight c + digit c) (acc : ZMod 97) := by
    induction s generalizing acc
    case nil => simp
    case cons c s ih =>
      rw [List.flatMap_cons, Nat.ofDigitChars_append, ih, List.foldl_cons, Nat.ofDigitChars_eq_ofDigitChars_zero,
        Nat.ofDigitChars_toDigits]
      · push_cast
        rw [weight, digit, mul_comm]
      all_goals norm_num
  have := hi 0
  rwa [Nat.cast_zero] at this

-- What an accepted number satisfies.
theorem of_ibanOk (h : ibanOk (some text)) :
    hasShape (compact text) ∧ Checksum.eval weight digit (rotate (compact text)) = 1 := by
  rw [ibanOk] at h
  split_ifs at h with hs
  have hn : nsp (some (removeSpaces text)) = compact text :=
    (nsp_eq_compact <| space_not_mem hs).trans compact_removeSpaces
  simp only [Option.getD_some, hn] at h hs
  have hu : ((compact text).take 2).map Char.toUpper = (compact text).take 2 := by
    simp only [hasShape, decide_eq_true_eq, List.all_eq_true] at hs
    refine (List.map_congr_left fun c hc => ?_).trans <| List.map_id _
    exact toUpper_of_isUpper <| hs.right.left c hc
  have ht : (compact text).take 4 = (compact text).take 2 ++ ((compact text).drop 2).take 2 := by
    rw [←List.take_add]
  rw [hu, List.append_assoc, ←ht, decide_eq_true_eq] at h
  have hz : ((int ((rotate (compact text)).flatMap fun c => Nat.toDigits 10 (code c)) : ℕ) : ZMod 97) = (1 : ℕ) := by
    rw [ZMod.natCast_eq_natCast_iff']
    exact h
  rw [int_flatMap, Nat.cast_one] at hz
  exact ⟨hs, hz⟩

theorem rotate_replace (a b : Str) : ∃ p q, ∀ x, rotate (a ++ x :: b) = p ++ x :: q := by
  by_cases ha : 4 ≤ a.length
  case pos =>
    refine ⟨a.drop 4, b ++ a.take 4, fun x => ?_⟩
    rw [rotate, List.drop_append_of_le_length ha, List.take_append_of_le_length ha]
    simp
  case neg =>
    obtain ⟨n, hn⟩ : ∃ n, 4 = a.length + (n + 1) := ⟨3 - a.length, by omega⟩
    refine ⟨b.drop n ++ a, b.take n, fun x => ?_⟩
    have hd : (a ++ x :: b).drop (a.length + (n + 1)) = b.drop n := by
      rw [List.drop_length_add_append, List.drop_succ_cons]
    have ht : (a ++ x :: b).take (a.length + (n + 1)) = a ++ x :: b.take n := by
      rw [List.take_length_add_append, List.take_succ_cons]
    rw [rotate, hn, hd, ht, List.append_assoc]

theorem rotate_swap (a b : Str) (h : a.length = 2 ∨ 4 ≤ a.length) :
    ∃ p q, ∀ x y, rotate (a ++ x :: y :: b) = p ++ x :: y :: q := by
  rcases h with ha | ha
  case inl =>
    refine ⟨b ++ a, [], fun x y => ?_⟩
    match a, ha with
    | [c, d], _ => simp [rotate]
  case inr =>
    refine ⟨a.drop 4, b ++ a.take 4, fun x y => ?_⟩
    rw [rotate, List.drop_append_of_le_length ha, List.take_append_of_le_length ha]
    simp

-- What two different characters of one kind have in common.
structure Similar (x y : Char) : Prop where
  weight_eq : weight x = weight y
  weight_ne : weight x ≠ 1
  digit_ne  : digit x ≠ digit y
  left      : ¬ Str.isSpace x
  right     : ¬ Str.isSpace y

theorem not_isSpace (h₁ : 48 ≤ x.toNat) (h₂ : x.toNat ≤ 90) : ¬ Str.isSpace x := by
  have hn : x.val.toNat = x.toNat := rfl
  simp only [Str.isSpace, List.mem_cons, List.not_mem_nil, or_false, decide_eq_true_eq,
    UInt32.le_iff_toNat_le, ←UInt32.toNat_inj, hn]
  simp
  omega

theorem similar_of_weight {w : ZMod 97} (hx : weight x = w) (hy : weight y = w) (hw : w ≠ 1)
    (hc : code x ≠ code y) (hx₁ : 48 ≤ x.toNat) (hx₂ : x.toNat ≤ 90) (hy₁ : 48 ≤ y.toNat) (hy₂ : y.toNat ≤ 90) :
    Similar x y where
  weight_eq := hx.trans hy.symm
  weight_ne := hx ▸ hw
  digit_ne h := by
    have hl {c : Char} (h₂ : c.toNat ≤ 90) : code c < 97 := by
      rw [code]
      split_ifs <;> omega
    rw [digit, digit, ZMod.natCast_eq_natCast_iff', Nat.mod_eq_of_lt (hl hx₂), Nat.mod_eq_of_lt (hl hy₂)] at h
    exact hc h
  left  := not_isSpace hx₁ hx₂
  right := not_isSpace hy₁ hy₂

theorem weight_of_isDigit (h : isDigit x) : weight x = 10 ∧ code x = x.toNat - 48 := by
  rw [isDigit_iff] at h
  have hc : code x = x.toNat - 48 := if_neg <| by omega
  have hl : ∀ n < 10, (Nat.toDigits 10 n).length = 1 := by decide
  rw [weight, hl _ <| by rw [hc]; omega, pow_one]
  exact ⟨rfl, hc⟩

theorem weight_of_isUpper (h : isUpper x) : weight x = 3 ∧ code x = x.toNat - 55 := by
  rw [isUpper_iff] at h
  have hc : code x = x.toNat - 55 := if_pos <| by omega
  have hl : ∀ n < 26, (Nat.toDigits 10 (10 + n)).length = 2 := by decide
  have hn : code x = 10 + (x.toNat - 65) := by omega
  rw [weight, hn, hl _ <| by omega]
  exact ⟨by decide, by omega⟩

theorem similar_of_isDigit (hx : isDigit x) (hy : isDigit y) (h : x ≠ y) : Similar x y := by
  have ⟨hwx, hcx⟩ := weight_of_isDigit hx
  have ⟨hwy, hcy⟩ := weight_of_isDigit hy
  have hn : x.toNat ≠ y.toNat := fun hn => h <| Char.toNat_inj.mp hn
  rw [isDigit_iff] at hx hy
  exact similar_of_weight hwx hwy (by decide) (by omega) (by omega) (by omega) (by omega) (by omega)

theorem similar_of_isUpper (hx : isUpper x) (hy : isUpper y) (h : x ≠ y) : Similar x y := by
  have ⟨hwx, hcx⟩ := weight_of_isUpper hx
  have ⟨hwy, hcy⟩ := weight_of_isUpper hy
  have hn : x.toNat ≠ y.toNat := fun hn => h <| Char.toNat_inj.mp hn
  rw [isUpper_iff] at hx hy
  exact similar_of_weight hwx hwy (by decide) (by omega) (by omega) (by omega) (by omega) (by omega)

theorem weight_ne_zero (c : Char) : weight c ≠ 0 := by
  have hz : (10 : ZMod 97) ≠ 0 := by decide
  have := Fact.mk (by norm_num : Nat.Prime 97)
  exact pow_ne_zero _ hz

variable {raw raw' a b : Str}

theorem compact_cons (h : ¬ Str.isSpace x) : compact (x :: s) = x :: compact s := by
  rw [compact, List.filter_cons_of_pos (by simpa using h)]
  rfl

theorem compact_append : compact (a ++ b) = compact a ++ compact b :=
  List.filter_append ..

-- A number is not accepted if one character of an accepted number is replaced.
theorem not_ibanOk_replace (h : ibanOk (some (a ++ x :: b))) (hs : Similar x y) :
    ¬ ibanOk (some (a ++ y :: b)) := by
  intro h'
  have := Fact.mk (by norm_num : Nat.Prime 97)
  have ⟨_, he⟩ := of_ibanOk h
  have ⟨_, he'⟩ := of_ibanOk h'
  obtain ⟨p, q, hr⟩ := rotate_replace (compact a) (compact b)
  rw [compact_append, compact_cons hs.left, hr] at he
  rw [compact_append, compact_cons hs.right, hr] at he'
  exact Checksum.eval_replace_ne weight_ne_zero hs.weight_eq hs.digit_ne <| he.trans he'.symm

-- A number is not accepted if two neighbours in an accepted number are swapped.
theorem not_ibanOk_swap (h : ibanOk (some (a ++ x :: y :: b))) (hs : Similar x y)
    (ha : (compact a).length = 2 ∨ 4 ≤ (compact a).length) : ¬ ibanOk (some (a ++ y :: x :: b)) := by
  intro h'
  have := Fact.mk (by norm_num : Nat.Prime 97)
  have ⟨_, he⟩ := of_ibanOk h
  have ⟨_, he'⟩ := of_ibanOk h'
  obtain ⟨p, q, hr⟩ := rotate_swap (compact a) (compact b) ha
  rw [compact_append, compact_cons hs.left, compact_cons hs.right, hr] at he
  rw [compact_append, compact_cons hs.right, compact_cons hs.left, hr] at he'
  exact Checksum.eval_swap_ne weight_ne_zero hs.weight_eq hs.weight_ne hs.digit_ne <| he.trans he'.symm

theorem removeSpaces_filter : removeSpaces (raw.filter (· ≠ ' ')) = removeSpaces raw := by
  rw [removeSpaces, removeSpaces, List.filter_filter]
  apply List.filter_congr
  intro c _
  by_cases hc : c = ' ' <;> simp [hc]

-- Single errors are detected, and spaces do not matter.
theorem ibanOk_detects_errors :
    (∀ raw raw', ibanOk (some raw) → SingleError raw raw' → ¬ ibanOk (some raw')) ∧
      ∀ raw raw' : Str, raw.filter (· ≠ ' ') = raw'.filter (· ≠ ' ') →
        ibanOk (some raw) = ibanOk (some raw') := by
  constructor
  case left =>
    intro raw raw' h he
    cases he
    case digit hx hy hn       => exact not_ibanOk_replace h <| similar_of_isDigit hx hy hn
    case letter hx hy hn      => exact not_ibanOk_replace h <| similar_of_isUpper hx hy hn
    case digits hx hy hn ha   => exact not_ibanOk_swap h (similar_of_isDigit hx hy hn) ha
    case letters hx hy hn ha  => exact not_ibanOk_swap h (similar_of_isUpper hx hy hn) ha
  case right =>
    intro raw raw' h
    have hr : removeSpaces raw = removeSpaces raw' := by
      rw [←removeSpaces_filter, h, removeSpaces_filter]
    rw [ibanOk, ibanOk, Option.getD_some, Option.getD_some, hr]

theorem ibanOk_detects_errors_de :
    ¬ ibanOk (some (str "DE79 0000 0000 1234 5678 91")) ∧
      ibanOk (some (str "DE79000000001234567890")) = ibanOk (some (str "DE79 0000 0000 1234 5678 90")) :=
  ⟨ibanOk_detects_errors.left (str "DE79 0000 0000 1234 5678 9" ++ '0' :: []) _ (by decide +kernel)
      (.digit (by decide) (by decide) (by decide)),
    ibanOk_detects_errors.right _ _ (by decide)⟩

end

end Iban
