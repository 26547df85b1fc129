import Verifyhash.VerifierRs.Json
import Verifyhash.VerifierRs.Render
import Verifyhash.Library.Fallible
import Verifyhash.Library.Fields

-- What is rendered is read back by the parser.
namespace RustJson

open Fallible Unicode

section

variable {ch : Char} {rest : Bytes} {fuel : ℕ} {out : List Char}

theorem from_utf8_char (ch : Char) : from_utf8 (String.utf8EncodeChar ch) = some [ch] := by
  have h := List.utf8Decode?_utf8Encode (l := [ch])
  rw [List.utf8Encode, List.flatMap_singleton] at h
  rw [from_utf8, h]
  rfl

-- The lead bytes of the sequences of two, three and four bytes, and the classes of the bytes.
theorem byte_cases : (∀ n < 256,
    (sequenceLength (UInt8.ofNat n &&& 0x1f ||| 0xc0) = some 2 ∧
      sequenceLength (UInt8.ofNat n &&& 0x0f ||| 0xe0) = some 3 ∧
        sequenceLength (UInt8.ofNat n &&& 0x07 ||| 0xf0) = some 4) ∧
    (sequenceLength (UInt8.ofNat n) ≠ some 1 → UInt8.ofNat n ≠ 34 ∧ UInt8.ofNat n ≠ 92)) ∧
  ∀ n < 256, (isDigit (UInt8.ofNat n) → ¬ isWhitespace (UInt8.ofNat n) ∧
      UInt8.ofNat n ≠ 123 ∧ UInt8.ofNat n ≠ 91 ∧ UInt8.ofNat n ≠ 34 ∧
        ¬ (UInt8.ofNat n = 116 ∨ UInt8.ofNat n = 102) ∧ UInt8.ofNat n ≠ 110 ∧ UInt8.ofNat n ≠ 45 ∧
          UInt8.ofNat n ≠ 43) ∧
    (isWhitespace (UInt8.ofNat n) → ¬ isNumeric (UInt8.ofNat n)) := by
  constructor
  all_goals decide +kernel

-- The lead byte of a character tells how many bytes follow, and whether it is a quote or a backslash.
theorem exists_lead (ch : Char) : ∃ b bs, String.utf8EncodeChar ch = b :: bs ∧
    sequenceLength b = some (bs.length + 1) ∧ (b = 34 → ch = '"') ∧ (b = 92 → ch = '\\') := by
  have hofNat (b : UInt8) : UInt8.ofNat b.toNat = b := UInt8.ofNat_toNat
  have hne {b : UInt8} {k : ℕ} (h : sequenceLength b = some k) (hk : k ≠ 1) : b ≠ 34 ∧ b ≠ 92 := by
    have := (byte_cases.left b.toNat b.toNat_lt).right
    rw [hofNat] at this
    exact this <| by simp [h, hk]
  have hlead (x : UInt8) := (byte_cases.left x.toNat x.toNat_lt).left
  simp only [hofNat] at hlead
  have h₁ := ch.utf8Size_pos
  have h₂ := ch.utf8Size_le_four
  obtain h | h | h | h : ch.utf8Size = 1 ∨ ch.utf8Size = 2 ∨ ch.utf8Size = 3 ∨ ch.utf8Size = 4 := by omega
  · have hlt : ch.val.toNat < 128 := by
      rw [Char.utf8Size_eq_one_iff] at h
      exact Nat.lt_succ_of_le h
    have hb : ch.val.toUInt8.toNat = ch.val.toNat := by
      rw [UInt32.toNat_toUInt8]
      omega
    have hch {d : Char} (hd : ch.val.toNat = d.val.toNat) : ch = d := Char.ext <| UInt32.toNat_inj.mp hd
    refine ⟨_, [], String.utf8EncodeChar_eq_singleton h, ?_, fun h => ?_, fun h => ?_⟩
    · rw [sequenceLength, if_pos]
      · rfl
      · rw [UInt8.lt_iff_toNat_lt, hb]
        exact hlt
    · exact hch <| hb.symm.trans <| congrArg UInt8.toNat h
    · exact hch <| hb.symm.trans <| congrArg UInt8.toNat h
  · have hl := (hlead (ch.val >>> 6).toUInt8).left
    have hn := hne hl (by norm_num)
    exact ⟨_, _, String.utf8EncodeChar_eq_cons_cons h, hl, fun h => absurd h hn.left, fun h => absurd h hn.right⟩
  · have hl := (hlead (ch.val >>> 12).toUInt8).right.left
    have hn := hne hl (by norm_num)
    exact ⟨_, _, String.utf8EncodeChar_eq_cons_cons_cons h, hl, fun h => absurd h hn.left,
      fun h => absurd h hn.right⟩
  · have hl := (hlead (ch.val >>> 18).toUInt8).right.right
    have hn := hne hl (by norm_num)
    exact ⟨_, _, String.utf8EncodeChar_eq_cons_cons_cons_cons h, hl, fun h => absurd h hn.left,
      fun h => absurd h hn.right⟩

-- A character which is not escaped is copied.
theorem string_loop_char (hq : ch ≠ '"') (hb : ch ≠ '\\') :
    string_loop (fuel + 1) (String.utf8EncodeChar ch ++ rest) out = string_loop fuel rest (out ++ [ch]) := by
  obtain ⟨b, bs, he, hl, h₁, h₂⟩ := exists_lead ch
  have ht : ((b :: bs) ++ rest).take (bs.length + 1) = b :: bs := List.take_left' rfl
  have hd : ((b :: bs) ++ rest).drop (bs.length + 1) = rest := List.drop_left' rfl
  rw [he]
  simp only [List.cons_append] at ht hd ⊢
  rw [string_loop, if_neg (mt h₁ hq), if_neg (mt h₂ hb), parse_raw, hl]
  dsimp only
  rw [if_neg (by simp), ht, hd, ←he, from_utf8_char]
  rfl

-- The bytes of the escape of a control character, and the number which is read from them.
theorem hex4_control : ∀ n < 32, ∃ a b, utf8 ((Numeral.digits 16 4 n).map Nat.digitChar) = [48, 48, a, b] ∧
    [48, 48, a, b].mapM nibble = Except.ok (Numeral.digits 16 4 n) ∧ Numeral.value 16 (Numeral.digits 16 4 n) = n ∧
      n.isValidChar := by
  intro n hn
  refine ⟨(utf8 ((Numeral.digits 16 4 n).map Nat.digitChar)).getD 2 0,
    (utf8 ((Numeral.digits 16 4 n).map Nat.digitChar)).getD 3 0, ?_⟩
  revert n
  decide

theorem parse_unicode_control {n : ℕ} (hn : n < 32) :
    parse_unicode (utf8 ((Numeral.digits 16 4 n).map Nat.digitChar) ++ rest) = .ok (Char.ofNat n, rest) := by
  obtain ⟨a, b, hu, hm, hv, hc⟩ := hex4_control n hn
  have hh : parse_hex4 ([48, 48, a, b] ++ rest) = .ok (n, rest) := by
    have ht : ([48, 48, a, b] ++ rest).take 4 = [48, 48, a, b] := rfl
    rw [parse_hex4, if_neg (by simp), ht, hm, ok_bind, hv]
    rfl
  rw [hu, parse_unicode, hh, ok_bind]
  dsimp only
  rw [if_neg (by omega), from_u32, if_pos hc]
  rfl

-- One escaped character is read back by one step of the loop.
theorem string_loop_escapeChar (ch : Char) :
    string_loop (fuel + 1) (utf8 (escapeChar ch) ++ rest) out = string_loop fuel rest (out ++ [ch]) := by
  rw [escapeChar]
  split_ifs with h₁ h₂ h₃ h₄ h₅ h₆
  · subst h₁; rfl
  · subst h₂; rfl
  · subst h₃; rfl
  · subst h₄; rfl
  · subst h₅; rfl
  · have hu : utf8 (['\\', 'u'] ++ (Numeral.digits 16 4 ch.toNat).map Nat.digitChar) ++ rest =
        92 :: 117 :: (utf8 ((Numeral.digits 16 4 ch.toNat).map Nat.digitChar) ++ rest) := rfl
    have he : parse_escape (117 :: (utf8 ((Numeral.digits 16 4 ch.toNat).map Nat.digitChar) ++ rest)) =
        .ok (ch, rest) := by
      have hp (x : Bytes) : parse_escape (117 :: x) = parse_unicode x := rfl
      rw [hp, parse_unicode_control h₆, Char.ofNat_toNat]
    rw [hu, string_loop, if_neg (by decide), if_pos rfl, he, ok_bind]
  · have hu : utf8 [ch] = String.utf8EncodeChar ch := List.flatMap_singleton ..
    rw [hu, string_loop_char h₁ h₂]

theorem utf8_append (cs ds : List Char) : utf8 (cs ++ ds) = utf8 cs ++ utf8 ds :=
  List.flatMap_append

theorem string_loop_escape {s : List Char} (hf : s.length < fuel) :
    string_loop fuel (utf8 (json_escape s) ++ 34 :: rest) out = .ok (out ++ s, rest) := by
  induction s generalizing fuel out
  case nil =>
    cases fuel
    case zero      => cases hf
    case succ fuel =>
      rw [List.append_nil]
      rfl
  case cons ch s ih =>
    cases fuel
    case zero      => cases hf
    case succ fuel =>
      rw [json_escape, List.flatMap_cons, utf8_append, List.append_assoc, string_loop_escapeChar]
      have : string_loop fuel (utf8 (json_escape s) ++ 34 :: rest) (out ++ [ch]) = .ok (out ++ [ch] ++ s, rest) :=
        ih (by simpa using hf)
      rw [json_escape] at this
      rw [this, List.append_assoc, List.singleton_append]

theorem escapeChar_ne_nil (ch : Char) : escapeChar ch ≠ [] := by
  rw [escapeChar]
  split_ifs <;> simp

theorem length_utf8_pos {cs : List Char} (h : cs ≠ []) : 0 < (utf8 cs).length := by
  cases cs
  case nil => exact absurd rfl h
  case cons c cs =>
    obtain ⟨b, bs, he, _⟩ := exists_lead c
    rw [utf8, List.flatMap_cons, he]
    simp

theorem length_le_escape (s : List Char) : s.length ≤ (utf8 (json_escape s)).length := by
  induction s
  case nil => simp
  case cons ch s ih =>
    have h₁ := length_utf8_pos (escapeChar_ne_nil ch)
    rw [json_escape, List.flatMap_cons, utf8_append, List.length_append, List.length_cons]
    rw [json_escape] at ih
    omega

theorem utf8_quoted (s : List Char) : utf8 (quoted s) = 34 :: (utf8 (json_escape s) ++ [34]) := by
  rw [quoted, List.append_assoc, utf8_append, utf8_append]
  rfl

-- A quoted text is read back as the text.
theorem parse_string_quoted {total : ℕ} {s : List Char} :
    parse_string total (utf8 (quoted s) ++ rest) = .ok (s, rest) := by
  rw [utf8_quoted, List.cons_append, List.append_assoc, List.singleton_append]
  have hl := length_le_escape s
  rw [parse_string, expect, List.head?_cons, if_pos rfl, ok_bind, List.tail_cons,
    string_loop_escape (by rw [List.length_append]; omega), List.nil_append]

-- A text is read as a value, whatever follows it that could not belong to a number.
def Ends (rest : Bytes) : Prop :=
  ∀ b ∈ rest.head?, ¬ isNumeric b

def Parses (total : ℕ) (t : List Char) (v : Value) : Prop :=
  ∀ rest fuel, Ends rest → 2 * (utf8 t).length ≤ fuel → parse_value total fuel (utf8 t ++ rest) = .ok (v, rest)

def IsSpace (w : Bytes) : Prop :=
  ∀ b ∈ w, isWhitespace b

variable {total : ℕ} {t w : List Char} {v : Value} {map : List (List Char × Value)} {items : List Value}

theorem skip_ws_append {w : Bytes} (h : IsSpace w) : skip_ws (w ++ rest) = skip_ws rest :=
  List.dropWhile_append_of_pos h

theorem parse_value_append {w : Bytes} (h : IsSpace w) :
    parse_value total fuel (w ++ rest) = parse_value total fuel rest := by
  cases fuel
  case zero => rfl
  case succ fuel => rw [parse_value, parse_value, skip_ws_append h]

theorem parses_quoted (s : List Char) : Parses total (quoted s) (.string s) := by
  intro rest fuel _ hf
  obtain ⟨x, hx⟩ : ∃ x, utf8 (quoted s) ++ rest = 34 :: x := ⟨_, by rw [utf8_quoted, List.cons_append]⟩
  cases fuel
  case zero => rw [utf8_quoted] at hf; simp at hf
  case succ fuel =>
    have hs : skip_ws (34 :: x) = 34 :: x := rfl
    have hp : parse_string total (utf8 (quoted s) ++ rest) = .ok (s, rest) := parse_string_quoted
    rw [hx] at hp ⊢
    rw [parse_value, hs]
    dsimp only
    rw [if_neg (by decide), if_neg (by decide), if_pos rfl, hp]
    rfl

-- The bytes of the texts which the renderer writes by hand.
theorem utf8_literals : utf8 "null".toList = [110, 117, 108, 108] ∧ utf8 "true".toList = [116, 114, 117, 101] ∧
    utf8 "false".toList = [102, 97, 108, 115, 101] ∧ "\": ".toList = ['"', ':', ' '] ∧
    utf8 ['"', ':', ' '] = [34, 58, 32] ∧ utf8 "\n    ".toList = [10, 32, 32, 32, 32] ∧
    utf8 "\n  ]".toList = [10, 32, 32] ++ [93] ∧ utf8 " ".toList = [32] ∧ utf8 " \x7d".toList = [32] ++ [125] ∧
    utf8 "\n  \x7d".toList = [10, 32, 32] ++ [125] ∧ utf8 "\n  ".toList = [10, 32, 32] ∧
    utf8 "\n\x7d".toList = [10] ++ [125] ∧ utf8 (listing []) = [91, 93] ∧ "\"OK\"".toList = quoted "OK".toList ∧
    "\"REJECTED\"".toList = quoted "REJECTED".toList := by
  and_intros <;> rfl

theorem parses_literals : Parses total "null".toList .null ∧ Parses total "true".toList (.bool true) ∧
    Parses total "false".toList (.bool false) := by
  have ⟨h₁, h₂, h₃, _⟩ := utf8_literals
  refine ⟨fun rest fuel _ hf => ?_, fun rest fuel _ hf => ?_, fun rest fuel _ hf => ?_⟩
  all_goals
    obtain ⟨fuel, rfl⟩ : ∃ n, fuel = n + 1 := ⟨fuel - 1, by
      have : 0 < fuel := by
        simp only [h₁, h₂, h₃, List.length_cons] at hf
        omega
      omega⟩
  · rw [h₁]; rfl
  · rw [h₂]; rfl
  · rw [h₃]; rfl

theorem parses_bool (b : Bool) : Parses total (bool_json b) (.bool b) := by
  cases b
  · exact parses_literals.right.right
  · exact parses_literals.right.left

def countValue (n : ℕ) : Value :=
  match parse_f64 (utf8 (count n)) with
  | some x => .number x
  | none   => .null

def opt_str_value (o : Option (List Char)) : Value :=
  match o with
  | some s => .string s
  | none   => .null

def opt_bool_value (o : Option Bool) : Value :=
  match o with
  | some b => .bool b
  | none   => .null

theorem parses_opt_bool (o : Option Bool) : Parses total (opt_bool_json o) (opt_bool_value o) := by
  cases o
  · exact parses_literals.left
  · exact parses_bool _

theorem parses_opt_str (o : Option (List Char)) : Parses total (opt_str_json o) (opt_str_value o) := by
  cases o
  · exact parses_literals.left
  · exact parses_quoted _

theorem count_eq (n : ℕ) : count n = Nat.toDigits 10 n := by
  rw [count, Nat.toString_eq_repr, Nat.repr, String.toList_ofList]

theorem utf8_count (n : ℕ) : utf8 (count n) ≠ [] ∧ ∀ b ∈ utf8 (count n), isDigit b := by
  rw [count_eq]
  constructor
  · exact List.ne_nil_of_length_pos <| length_utf8_pos Nat.toDigits_ne_nil
  · intro b hb
    obtain ⟨c, hc, hb⟩ := List.mem_flatMap.mp hb
    have hd : c.isDigit := Nat.isDigit_of_mem_toDigits (by norm_num) (by norm_num) hc
    simp only [Char.isDigit, Bool.and_eq_true, decide_eq_true_eq, ge_iff_le, UInt32.le_iff_toNat_le] at hd
    have h₁ : '0'.val.toNat = 48 := rfl
    have h₂ : '9'.val.toNat = 57 := rfl
    rw [h₁, h₂] at hd
    have hs : c.utf8Size = 1 := by
      rw [Char.utf8Size_eq_one_iff, UInt32.le_iff_toNat_le]
      exact hd.right.trans (by decide)
    rw [String.utf8EncodeChar_eq_singleton hs, List.mem_singleton] at hb
    subst hb
    have hv : c.val.toUInt8.toNat = c.val.toNat := by
      rw [UInt32.toNat_toUInt8]
      omega
    have h₃ : (48 : UInt8).toNat = 48 := rfl
    have h₄ : (57 : UInt8).toNat = 57 := rfl
    rw [isDigit, decide_eq_true_eq, UInt8.le_iff_toNat_le, UInt8.le_iff_toNat_le, hv, h₃, h₄]
    exact hd

theorem parse_f64_digits {ds : Bytes} (hne : ds ≠ []) (hd : ∀ b ∈ ds, isDigit b)
    (hs : ds.head? ≠ some 45 ∧ ds.head? ≠ some 43) : (parse_f64 ds).isSome := by
  have ht : ds.takeWhile isDigit = ds := List.takeWhile_eq_self_iff.mpr hd
  have hw : ds.dropWhile isDigit = [] := List.dropWhile_eq_nil_iff.mpr hd
  simp [parse_f64, hs.left, hs.right, ht, hw, hne, exponent?]

theorem parses_count (n : ℕ) : Parses total (count n) (countValue n) := by
  obtain ⟨hne, hd⟩ := utf8_count n
  unfold Parses countValue
  generalize utf8 (count n) = ds at hne hd
  have hnum : ∀ b ∈ ds, isNumeric b := fun b hb => by simp [isNumeric, hd b hb]
  obtain ⟨d, ds', rfl⟩ := List.exists_cons_of_ne_nil hne
  have hdd := hd d List.mem_cons_self
  have hsp := (byte_cases.right d.toNat d.toNat_lt).left
  rw [UInt8.ofNat_toNat] at hsp
  obtain ⟨hw, h₁, h₂, h₃, h₄, h₅, h₆, h₇⟩ := hsp hdd
  obtain ⟨x, hx⟩ := Option.isSome_iff_exists.mp <|
    parse_f64_digits hne hd ⟨by simpa using h₆, by simpa using h₇⟩
  intro rest fuel he hf
  rw [hx]
  obtain ⟨fuel, rfl⟩ : ∃ n, fuel = n + 1 := ⟨fuel - 1, by simp only [List.length_cons] at hf; omega⟩
  have hs : skip_ws (d :: (ds' ++ rest)) = d :: (ds' ++ rest) := List.dropWhile_cons_of_neg hw
  have hr : rest.takeWhile isNumeric = [] ∧ rest.dropWhile isNumeric = rest := by
    cases rest
    case nil => exact ⟨rfl, rfl⟩
    case cons b rest =>
      have hb := he b rfl
      exact ⟨List.takeWhile_cons_of_neg hb, List.dropWhile_cons_of_neg hb⟩
  have ht : (d :: ds' ++ rest).takeWhile isNumeric = d :: ds' := by
    rw [List.takeWhile_append_of_pos hnum, hr.left, List.append_nil]
  have hdw : (d :: ds' ++ rest).dropWhile isNumeric = rest := by
    rw [List.dropWhile_append_of_pos hnum, hr.right]
  have hn : parse_number (d :: ds' ++ rest) = .ok (.number x, rest) := by
    have hh : (d :: ds' ++ rest).head? ≠ some 45 := by simpa using h₆
    rw [parse_number]
    simp only [if_neg hh, List.take_zero, List.nil_append, List.drop_zero, ht, hx, hdw]
  rw [List.cons_append] at hn ⊢
  rw [parse_value, hs]
  dsimp only
  rw [if_neg h₁, if_neg h₂, if_neg h₃, if_neg h₄, if_neg h₅, if_pos (.inr hdd), hn]

-- A key of an object, as it is written by hand in the renderer.
def IsPlain (key : String) : Prop :=
  json_escape key.toList = key.toList

instance {key : String} : Decidable (IsPlain key) :=
  inferInstanceAs <| Decidable <| json_escape key.toList = key.toList

theorem utf8_entry {key : String} (hk : IsPlain key) :
    utf8 (entry key t) = utf8 (quoted key.toList) ++ (58 :: 32 :: utf8 t) := by
  have ⟨_, _, _, hq, hc, _⟩ := utf8_literals
  rw [entry, hq, utf8_quoted, hk, utf8_append, utf8_append, utf8_append, hc, List.append_assoc, List.append_assoc]
  simp [utf8]
  rfl

theorem isSpace_blank : IsSpace [32] := by
  intro b hb
  rw [List.mem_singleton.mp hb]
  decide

-- One entry of an object, and what follows it.
theorem object_loop_entry {key : String} {w X : Bytes} (hw : IsSpace w) (hk : IsPlain key) (hp : Parses total t v)
    (hX : Ends X) (hf : 2 * (utf8 t).length ≤ fuel) :
    object_loop total (fuel + 1) (w ++ (utf8 (entry key t) ++ X)) map =
      if (skip_ws X).head? = some 44 then object_loop total fuel (skip_ws X).tail ((key.toList, v) :: map)
      else if (skip_ws X).head? = some 125 then .ok (.object ((key.toList, v) :: map), (skip_ws X).tail)
      else .error s!"expected ',' or '\x7d' at byte {total - (skip_ws X).length}" := by
  have hs : parse_string total (utf8 (quoted key.toList) ++ (58 :: 32 :: (utf8 t ++ X))) =
      .ok (key.toList, 58 :: 32 :: (utf8 t ++ X)) :=
    parse_string_quoted
  have he : utf8 (entry key t) ++ X = utf8 (quoted key.toList) ++ (58 :: 32 :: (utf8 t ++ X)) := by
    rw [utf8_entry hk, List.append_assoc]
    rfl
  have hq : skip_ws (utf8 (quoted key.toList) ++ (58 :: 32 :: (utf8 t ++ X))) =
      utf8 (quoted key.toList) ++ (58 :: 32 :: (utf8 t ++ X)) := by
    rw [utf8_quoted]
    rfl
  have hh : (utf8 (quoted key.toList) ++ (58 :: 32 :: (utf8 t ++ X))).head? = some 34 := by
    rw [utf8_quoted]
    rfl
  have hcolon : expect total 58 (skip_ws (58 :: 32 :: (utf8 t ++ X))) = .ok (32 :: (utf8 t ++ X)) := rfl
  have hv : parse_value total fuel (32 :: (utf8 t ++ X)) = .ok (v, X) :=
    (parse_value_append isSpace_blank).trans <| hp X fuel hX hf
  rw [object_loop, skip_ws_append hw, he, hq]
  dsimp only
  rw [if_neg (not_not.mpr hh), hs, ok_bind]
  dsimp only
  rw [hcolon, ok_bind, hv, ok_bind]

theorem ends_of_space {w : Bytes} {b : UInt8} (hw : IsSpace w) (hb : ¬ isNumeric b) : Ends (w ++ b :: rest) := by
  intro x hx
  cases w
  case nil =>
    obtain rfl := Option.some_inj.mp hx
    exact hb
  case cons y w =>
    obtain rfl := Option.some_inj.mp hx
    have := (byte_cases.right y.toNat y.toNat_lt).right
    rw [UInt8.ofNat_toNat] at this
    exact this <| hw y List.mem_cons_self

-- The entries of an object, with the texts of their values.
structure Entry where
  key   : String
  text  : List Char
  value : Value

def Entry.Valid (total : ℕ) (e : Entry) : Prop :=
  IsPlain e.key ∧ Parses total e.text e.value

def Entry.line (e : Entry) : String × List Char :=
  (e.key, e.text)

def Entry.pair (e : Entry) : List Char × Value :=
  (e.key.toList, e.value)

theorem object_loop_lines {indent : String} {es : List Entry} {w : Bytes} (hi : IsSpace (utf8 indent.toList))
    (hne : es ≠ []) (he : ∀ e ∈ es, e.Valid total) (hw : IsSpace w)
    (hf : 2 * (utf8 (lines indent (es.map Entry.line))).length ≤ fuel) :
    object_loop total fuel (utf8 (lines indent (es.map Entry.line)) ++ (w ++ 125 :: rest)) map =
      .ok (.object ((es.map Entry.pair).reverse ++ map), rest) := by
  have h44 : ¬ isNumeric 44 := by decide
  have h125 : ¬ isNumeric 125 := by decide
  induction es generalizing fuel map
  case nil => exact absurd rfl hne
  case cons e es ih =>
    have ⟨⟨hk, hp⟩, hes⟩ := List.forall_mem_cons.mp he
    cases es
    case nil =>
      have hl : utf8 (lines indent ([e].map Entry.line)) = utf8 indent.toList ++ utf8 (entry e.key e.text) :=
        utf8_append _ _
      rw [hl, utf8_entry hk, utf8_quoted] at hf
      simp only [List.length_append, List.length_cons] at hf
      obtain ⟨fuel, rfl⟩ : ∃ n, fuel = n + 1 := ⟨fuel - 1, by omega⟩
      have hs : skip_ws (w ++ 125 :: rest) = 125 :: rest := by
        rw [skip_ws_append hw]
        rfl
      rw [hl, List.append_assoc, object_loop_entry hi hk hp (ends_of_space hw h125) (by omega), hs,
        List.head?_cons, if_neg (by simp), if_pos rfl]
      rfl
    case cons e' es =>
      have hl : utf8 (lines indent ((e :: e' :: es).map Entry.line)) = utf8 indent.toList ++
          (utf8 (entry e.key e.text) ++ 44 :: utf8 (lines indent ((e' :: es).map Entry.line))) := by
        have : lines indent ((e :: e' :: es).map Entry.line) =
            indent.toList ++ entry e.key e.text ++ [','] ++ lines indent ((e' :: es).map Entry.line) := rfl
        rw [this, utf8_append, utf8_append, utf8_append, List.append_assoc, List.append_assoc]
        rfl
      rw [hl, utf8_entry hk, utf8_quoted] at hf
      simp only [List.length_append, List.length_cons] at hf
      obtain ⟨fuel, rfl⟩ : ∃ n, fuel = n + 1 := ⟨fuel - 1, by omega⟩
      have hX : Ends (44 :: utf8 (lines indent ((e' :: es).map Entry.line)) ++ (w ++ 125 :: rest)) :=
        ends_of_space (w := []) nofun h44
      have hs : skip_ws (44 :: utf8 (lines indent ((e' :: es).map Entry.line)) ++ (w ++ 125 :: rest)) =
          44 :: (utf8 (lines indent ((e' :: es).map Entry.line)) ++ (w ++ 125 :: rest)) := rfl
      rw [hl, List.append_assoc, List.append_assoc, object_loop_entry hi hk hp hX (by omega), hs, List.head?_cons,
        if_pos rfl, List.tail_cons, ih (by simp) hes (by omega)]
      simp [Entry.pair]

theorem skip_ws_skip_ws (x : Bytes) : skip_ws (skip_ws x) = skip_ws x :=
  List.dropWhile_idempotent ..

theorem object_loop_skip_ws (x : Bytes) : object_loop total fuel (skip_ws x) map = object_loop total fuel x map := by
  cases fuel
  case zero => rw [object_loop, object_loop]
  case succ fuel => rw [object_loop, object_loop, skip_ws_skip_ws]

theorem parse_value_skip_ws (x : Bytes) : parse_value total fuel (skip_ws x) = parse_value total fuel x := by
  cases fuel
  case zero => rw [parse_value, parse_value]
  case succ fuel => rw [parse_value, parse_value, skip_ws_skip_ws]

theorem array_loop_skip_ws (x : Bytes) : array_loop total fuel (skip_ws x) items = array_loop total fuel x items := by
  cases fuel
  case zero => rw [array_loop, array_loop]
  case succ fuel => rw [array_loop, array_loop, parse_value_skip_ws]

-- The lines start with a key, after the space.
theorem head_lines {indent : String} {es : List Entry} (hne : es ≠ []) (he : ∀ e ∈ es, e.Valid total) :
    ∃ z, utf8 (lines indent (es.map Entry.line)) = utf8 indent.toList ++ 34 :: z := by
  obtain ⟨e, es, rfl⟩ := List.exists_cons_of_ne_nil hne
  have ⟨⟨hk, _⟩, _⟩ := List.forall_mem_cons.mp he
  have hl : ∃ z, lines indent ((e :: es).map Entry.line) = indent.toList ++ entry e.key e.text ++ z := by
    cases es
    · exact ⟨[], (List.append_nil _).symm⟩
    · exact ⟨_, List.append_assoc ..⟩
  obtain ⟨z, hz⟩ := hl
  rw [hz, utf8_append, utf8_append, utf8_entry hk, utf8_quoted, List.append_assoc]
  exact ⟨_, rfl⟩

theorem parses_object {indent : String} {es : List Entry} {close : List Char} {w : Bytes}
    (hi : IsSpace (utf8 indent.toList)) (hc : utf8 close = w ++ [125]) (hw : IsSpace w) (hne : es ≠ [])
    (he : ∀ e ∈ es, e.Valid total) :
    Parses total (['{'] ++ lines indent (es.map Entry.line) ++ close) (.object (es.map Entry.pair).reverse) := by
  intro rest fuel _ hf
  have hu : utf8 (['{'] ++ lines indent (es.map Entry.line) ++ close) =
      123 :: (utf8 (lines indent (es.map Entry.line)) ++ (w ++ [125])) := by
    rw [utf8_append, utf8_append, hc, List.append_assoc]
    rfl
  rw [hu] at hf ⊢
  simp only [List.length_cons, List.length_append] at hf
  obtain ⟨fuel, rfl⟩ : ∃ n, fuel = n + 1 := ⟨fuel - 1, by omega⟩
  have ha : 123 :: (utf8 (lines indent (es.map Entry.line)) ++ (w ++ [125])) ++ rest =
      123 :: (utf8 (lines indent (es.map Entry.line)) ++ (w ++ 125 :: rest)) := by simp
  have hs (x : Bytes) : skip_ws (123 :: x) = 123 :: x := rfl
  have hh : (skip_ws (utf8 (lines indent (es.map Entry.line)) ++ (w ++ 125 :: rest))).head? ≠ some 125 := by
    obtain ⟨z, hz⟩ : ∃ z, utf8 (lines indent (es.map Entry.line)) = utf8 indent.toList ++ 34 :: z :=
      head_lines hne he
    have hq (x : Bytes) : skip_ws (34 :: x) = 34 :: x := rfl
    rw [hz, List.append_assoc, skip_ws_append hi, List.cons_append, hq]
    simp
  rw [ha, parse_value, hs]
  dsimp only
  rw [if_pos rfl, if_neg hh, object_loop_skip_ws, object_loop_lines hi hne he hw (by omega), List.append_nil]

-- The rows of an array, which are objects.
theorem array_loop_rows {es : List (List Char × Value)} {w : Bytes} (hne : es ≠ [])
    (he : ∀ e ∈ es, Parses total e.fst e.snd) (hw : IsSpace w)
    (hf : 2 * (utf8 (rows (es.map Prod.fst))).length ≤ fuel) :
    array_loop total fuel (utf8 (rows (es.map Prod.fst)) ++ (w ++ 93 :: rest)) items =
      .ok (.array (items ++ es.map Prod.snd), rest) := by
  have h44 : ¬ isNumeric 44 := by decide
  have h93 : ¬ isNumeric 93 := by decide
  have ⟨_, _, _, _, _, hi, _⟩ := utf8_literals
  have hsp : IsSpace [10, 32, 32, 32, 32] := by
    unfold IsSpace
    simp [isWhitespace]
  induction es generalizing fuel items
  case nil => exact absurd rfl hne
  case cons e es ih =>
    have ⟨hp, hes⟩ := List.forall_mem_cons.mp he
    cases es
    case nil =>
      have hl : utf8 (rows ([e].map Prod.fst)) = [10, 32, 32, 32, 32] ++ utf8 e.fst := hi ▸ utf8_append _ _
      rw [hl, List.length_append, List.length_cons] at hf
      obtain ⟨fuel, rfl⟩ : ∃ n, fuel = n + 1 := ⟨fuel - 1, by omega⟩
      have hs : skip_ws (w ++ 93 :: rest) = 93 :: rest := by
        rw [skip_ws_append hw]
        rfl
      rw [hl, List.append_assoc, array_loop, parse_value_append hsp, hp _ _ (ends_of_space hw h93) (by omega), ok_bind]
      dsimp only
      rw [hs, List.head?_cons, if_neg (by simp), if_pos rfl]
      rfl
    case cons e' es =>
      have hl : utf8 (rows ((e :: e' :: es).map Prod.fst)) =
          [10, 32, 32, 32, 32] ++ (utf8 e.fst ++ 44 :: utf8 (rows ((e' :: es).map Prod.fst))) := by
        have : rows ((e :: e' :: es).map Prod.fst) =
            "\n    ".toList ++ e.fst ++ [','] ++ rows ((e' :: es).map Prod.fst) := rfl
        rw [this, utf8_append, utf8_append, utf8_append, hi, List.append_assoc, List.append_assoc]
        rfl
      rw [hl] at hf
      simp only [List.length_append, List.length_cons] at hf
      obtain ⟨fuel, rfl⟩ : ∃ n, fuel = n + 1 := ⟨fuel - 1, by omega⟩
      have hX : Ends (44 :: utf8 (rows ((e' :: es).map Prod.fst)) ++ (w ++ 93 :: rest)) :=
        ends_of_space (w := []) nofun h44
      have hs : skip_ws (44 :: utf8 (rows ((e' :: es).map Prod.fst)) ++ (w ++ 93 :: rest)) =
          44 :: (utf8 (rows ((e' :: es).map Prod.fst)) ++ (w ++ 93 :: rest)) := rfl
      rw [hl, List.append_assoc, List.append_assoc, array_loop, parse_value_append hsp, hp _ _ hX (by omega), ok_bind]
      dsimp only
      rw [hs, List.head?_cons, if_pos rfl, List.tail_cons, ih (by simp) hes (by omega), List.append_assoc]
      rfl

theorem parses_listing {es : List (List Char × Value)} (he : ∀ e ∈ es, Parses total e.fst e.snd)
    (hb : ∀ e ∈ es, ∃ z, utf8 e.fst = 123 :: z) :
    Parses total (listing (es.map Prod.fst)) (.array (es.map Prod.snd)) := by
  intro rest fuel _ hf
  have hs (x : Bytes) : skip_ws (91 :: x) = 91 :: x := rfl
  cases es
  case nil =>
    have ⟨_, _, _, _, _, _, _, _, _, _, _, _, hu, _⟩ := utf8_literals
    rw [List.map_nil, hu] at hf ⊢
    obtain ⟨fuel, rfl⟩ : ∃ n, fuel = n + 1 := ⟨fuel - 1, by simp at hf; omega⟩
    rfl
  case cons e es =>
    have ⟨_, _, _, _, _, hi, hcl, _⟩ := utf8_literals
    have hsp : IsSpace [10, 32, 32] := by
      unfold IsSpace
      simp [isWhitespace]
    have hu : utf8 (listing ((e :: es).map Prod.fst)) =
        91 :: (utf8 (rows ((e :: es).map Prod.fst)) ++ ([10, 32, 32] ++ [93])) := by
      have : listing ((e :: es).map Prod.fst) = ['['] ++ rows ((e :: es).map Prod.fst) ++ "\n  ]".toList := rfl
      rw [this, utf8_append, utf8_append, hcl, List.append_assoc]
      rfl
    rw [hu] at hf ⊢
    simp only [List.length_cons, List.length_append] at hf
    obtain ⟨fuel, rfl⟩ : ∃ n, fuel = n + 1 := ⟨fuel - 1, by omega⟩
    have ha : 91 :: (utf8 (rows ((e :: es).map Prod.fst)) ++ ([10, 32, 32] ++ [93])) ++ rest =
        91 :: (utf8 (rows ((e :: es).map Prod.fst)) ++ ([10, 32, 32] ++ 93 :: rest)) := by simp
    have hh : (skip_ws (utf8 (rows ((e :: es).map Prod.fst)) ++ ([10, 32, 32] ++ 93 :: rest))).head? ≠ some 93 := by
      obtain ⟨z, hz⟩ := hb e List.mem_cons_self
      have hr : ∃ y, rows ((e :: es).map Prod.fst) = "\n    ".toList ++ e.fst ++ y := by
        cases es
        · exact ⟨[], (List.append_nil _).symm⟩
        · exact ⟨_, List.append_assoc ..⟩
      obtain ⟨y, hy⟩ := hr
      have hq (z x : Bytes) : skip_ws ([10, 32, 32, 32, 32] ++ (123 :: z ++ x)) = 123 :: z ++ x := rfl
      rw [hy, utf8_append, utf8_append, hi, hz, List.append_assoc, List.append_assoc, hq]
      simp
    rw [ha, parse_value, hs]
    dsimp only
    rw [if_neg (by decide), if_pos rfl, if_neg hh, array_loop_skip_ws, array_loop_rows (by simp) he hsp (by omega),
      List.nil_append]

-- The value of a row.
def rowValue (fields : List (String × List Char)) : Value :=
  .object (fields.map fun kv => (kv.fst.toList, .string kv.snd)).reverse

-- A field of a row with its value.
def rowField (kv : String × List Char) : Entry :=
  ⟨kv.fst, quoted kv.snd, .string kv.snd⟩

theorem parses_row {fields : List (String × List Char)} (hne : fields ≠ []) (hk : ∀ kv ∈ fields, IsPlain kv.fst) :
    Parses total (row fields) (rowValue fields) ∧ ∃ z, utf8 (row fields) = 123 :: z := by
  have ⟨_, _, _, _, _, _, _, hi, hc, _⟩ := utf8_literals
  have h : Parses total (['{'] ++ lines " " ((fields.map rowField).map Entry.line) ++ " \x7d".toList)
      (.object ((fields.map rowField).map Entry.pair).reverse) := by
    refine parses_object (hi ▸ isSpace_blank) hc isSpace_blank (by simpa using hne) fun e he => ?_
    obtain ⟨kv, hm, rfl⟩ := List.mem_map.mp he
    exact ⟨hk kv hm, parses_quoted _⟩
  rw [List.map_map, List.map_map] at h
  exact ⟨h, _, rfl⟩

def countEntries (r : VerifyResult) : List Entry := [
  ⟨"matched", count r.matched.length, countValue r.matched.length⟩,
  ⟨"changed", count r.changed.length, countValue r.changed.length⟩,
  ⟨"missing", count r.missing.length, countValue r.missing.length⟩,
  ⟨"escaped", count r.escaped.length, countValue r.escaped.length⟩,
  ⟨"unexpected", count r.unexpected.length, countValue r.unexpected.length⟩
]

-- The fields of an array of rows, which are made from the elements of a list.
def rowEntry (key : String) (l : List α) (f : α → List (String × List Char)) : Entry :=
  ⟨key, listing <| l.map fun a => row (f a), .array <| l.map fun a => rowValue (f a)⟩

theorem valid_rowEntry {key : String} {l : List α} {f : α → List (String × List Char)} (hk : IsPlain key)
    (hne : ∀ a, f a ≠ []) (hf : ∀ a, ∀ kv ∈ f a, IsPlain kv.fst) : (rowEntry key l f).Valid total := by
  have hr (a : α) : Parses total (row (f a)) (rowValue (f a)) ∧ ∃ z, utf8 (row (f a)) = 123 :: z :=
    parses_row (hne a) (hf a)
  have h : Parses total (listing ((l.map fun a => (row (f a), rowValue (f a))).map Prod.fst))
      (.array ((l.map fun a => (row (f a), rowValue (f a))).map Prod.snd)) := by
    refine parses_listing (fun e he => ?_) fun e he => ?_
    · obtain ⟨a, _, rfl⟩ := List.mem_map.mp he
      exact (hr a).left
    · obtain ⟨a, _, rfl⟩ := List.mem_map.mp he
      exact (hr a).right
  rw [List.map_map, List.map_map] at h
  exact ⟨hk, h⟩

def changedRow (ch : ChangedEntry) : List (String × List Char) :=
  [("relPath", ch.rel_path), ("expectedContentHash", ch.expected), ("actualContentHash", ch.actual)]

-- The fields of the output with their values.
def entries (r : VerifyResult) : List Entry := [
    ⟨"artifact", quoted r.artifact, .string r.artifact⟩,
    ⟨"kind", quoted r.kind, .string r.kind⟩,
    ⟨"payloadKind", opt_str_json r.payload_kind, opt_str_value r.payload_kind⟩,
    ⟨"signed", bool_json r.signed, .bool r.signed⟩,
    ⟨"verdict", (if r.accepted then "\"OK\"" else "\"REJECTED\"").toList,
      .string (if r.accepted then "OK" else "REJECTED").toList⟩,
    ⟨"reason", quoted r.reason, .string r.reason⟩,
    ⟨"accepted", bool_json r.accepted, .bool r.accepted⟩,
    ⟨"recoveredSigner", opt_str_json r.recovered_signer, opt_str_value r.recovered_signer⟩,
    ⟨"claimedSigner", opt_str_json r.claimed_signer, opt_str_value r.claimed_signer⟩,
    ⟨"pinnedVendor", opt_str_json r.pinned_vendor, opt_str_value r.pinned_vendor⟩,
    ⟨"signatureOk", opt_bool_json r.signature_ok, opt_bool_value r.signature_ok⟩,
    ⟨"signerMatchesVendor", opt_bool_json r.signer_matches_vendor, opt_bool_value r.signer_matches_vendor⟩,
    ⟨"sealedRoot", opt_str_json r.sealed_root, opt_str_value r.sealed_root⟩,
    ⟨"recomputedRoot", opt_str_json r.recomputed_root, opt_str_value r.recomputed_root⟩,
    ⟨"rootMatches", opt_bool_json r.root_matches, opt_bool_value r.root_matches⟩,
    ⟨"counts", counts r, .object ((countEntries r).map Entry.pair).reverse⟩,
    rowEntry "matched" r.matched fun m => [("relPath", m.fst), ("contentHash", m.snd)],
    rowEntry "changed" r.changed changedRow,
    rowEntry "missing" r.missing fun m => [("relPath", m)],
    rowEntry "escaped" r.escaped fun m => [("relPath", m)],
    rowEntry "unexpected" r.unexpected fun m => [("relPath", m)]
  ] ++ (if r.exact_dir then [⟨"exactDir", bool_json true, .bool true⟩] else []) ++
    [⟨"note", quoted TRUST_NOTE, .string TRUST_NOTE⟩]

theorem map_line_entries (r : VerifyResult) : (entries r).map Entry.line = fields r := by
  rw [entries, fields]
  cases r.exact_dir <;> simp [Entry.line, rowEntry, relPaths, changedRow]

-- The keys of the output.
def keys (exactDir : Bool) : List String :=
  ["artifact", "kind", "payloadKind", "signed", "verdict", "reason", "accepted", "recoveredSigner", "claimedSigner",
    "pinnedVendor", "signatureOk", "signerMatchesVendor", "sealedRoot", "recomputedRoot", "rootMatches", "counts",
    "matched", "changed", "missing", "escaped", "unexpected"] ++ (if exactDir then ["exactDir"] else []) ++ ["note"]

theorem map_key_entries (r : VerifyResult) : (entries r).map Entry.key = keys r.exact_dir := by
  rw [entries, keys]
  cases r.exact_dir <;> rfl

theorem plain_keys : (∀ b, ∀ k ∈ keys b, IsPlain k) ∧ (∀ b, (keys b).Nodup) ∧ IsPlain "relPath" ∧
    (IsPlain "contentHash" ∧ IsPlain "expectedContentHash" ∧ IsPlain "actualContentHash") ∧
    ["relPath".toList, "expectedContentHash".toList, "actualContentHash".toList].Nodup := by
  decide

theorem plain_relPath : IsPlain "relPath" :=
  plain_keys.right.right.left

theorem plain_hashes : IsPlain "contentHash" ∧ IsPlain "expectedContentHash" ∧ IsPlain "actualContentHash" :=
  plain_keys.right.right.right.left

theorem parses_counts (r : VerifyResult) :
    Parses total (counts r) (.object ((countEntries r).map Entry.pair).reverse) := by
  have ⟨_, _, _, _, _, hi, _, _, _, hc, _⟩ := utf8_literals
  suffices h : Parses total (['{'] ++ lines "\n    " ((countEntries r).map Entry.line) ++ "\n  \x7d".toList)
      (.object ((countEntries r).map Entry.pair).reverse) from h
  refine parses_object ?_ hc ?_ (by simp [countEntries]) ?_
  · rw [hi]
    unfold IsSpace
    simp [isWhitespace]
  · unfold IsSpace
    simp [isWhitespace]
  · intro e he
    simp only [countEntries, List.mem_cons, List.not_mem_nil, or_false] at he
    have hk (k : String) (hk : k ∈ keys false) := plain_keys.left false k hk
    rcases he with rfl | rfl | rfl | rfl | rfl
    · exact ⟨hk "matched" (by decide), parses_count _⟩
    · exact ⟨hk "changed" (by decide), parses_count _⟩
    · exact ⟨hk "missing" (by decide), parses_count _⟩
    · exact ⟨hk "escaped" (by decide), parses_count _⟩
    · exact ⟨hk "unexpected" (by decide), parses_count _⟩

theorem parses_verdict (b : Bool) : Parses total (if b then "\"OK\"" else "\"REJECTED\"").toList
    (.string (if b then "OK" else "REJECTED").toList) := by
  have ⟨_, _, _, _, _, _, _, _, _, _, _, _, _, h₁, h₂⟩ := utf8_literals
  cases b
  · exact h₂ ▸ parses_quoted _
  · exact h₁ ▸ parses_quoted _

theorem valid_entries (r : VerifyResult) : ∀ e ∈ entries r, e.Valid total := by
  intro e he
  have hk : IsPlain e.key := plain_keys.left r.exact_dir e.key <| map_key_entries r ▸ List.mem_map_of_mem he
  simp only [entries, List.mem_append, List.mem_cons, List.not_mem_nil, or_false] at he
  rcases he with ((rfl | rfl | rfl | rfl | rfl | rfl | rfl | rfl | rfl | rfl | rfl | rfl | rfl | rfl | rfl | rfl | rfl |
    rfl | rfl | rfl | rfl) | he) | rfl
  · exact ⟨hk, parses_quoted _⟩
  · exact ⟨hk, parses_quoted _⟩
  · exact ⟨hk, parses_opt_str _⟩
  · exact ⟨hk, parses_bool _⟩
  · exact ⟨hk, parses_verdict _⟩
  · exact ⟨hk, parses_quoted _⟩
  · exact ⟨hk, parses_bool _⟩
  · exact ⟨hk, parses_opt_str _⟩
  · exact ⟨hk, parses_opt_str _⟩
  · exact ⟨hk, parses_opt_str _⟩
  · exact ⟨hk, parses_opt_bool _⟩
  · exact ⟨hk, parses_opt_bool _⟩
  · exact ⟨hk, parses_opt_str _⟩
  · exact ⟨hk, parses_opt_str _⟩
  · exact ⟨hk, parses_opt_bool _⟩
  · exact ⟨hk, parses_counts r⟩
  · exact valid_rowEntry hk (by simp) fun a => List.forall_mem_cons.mpr
      ⟨plain_relPath, List.forall_mem_singleton.mpr plain_hashes.left⟩
  · exact valid_rowEntry hk (by simp [changedRow]) fun a => List.forall_mem_cons.mpr
      ⟨plain_relPath, List.forall_mem_cons.mpr
        ⟨plain_hashes.right.left, List.forall_mem_singleton.mpr plain_hashes.right.right⟩⟩
  · exact valid_rowEntry hk (by simp) fun a => List.forall_mem_singleton.mpr plain_relPath
  · exact valid_rowEntry hk (by simp) fun a => List.forall_mem_singleton.mpr plain_relPath
  · exact valid_rowEntry hk (by simp) fun a => List.forall_mem_singleton.mpr plain_relPath
  · split_ifs at he
    · obtain rfl := List.mem_singleton.mp he
      exact ⟨hk, parses_bool true⟩
    · cases he
  · exact ⟨hk, parses_quoted _⟩

theorem parse_of_parses (h : Parses (utf8 t).length t v) : parse t = .ok v := by
  have hp := h [] (2 * (utf8 t).length + 2) nofun (by omega)
  rw [List.append_nil] at hp
  rw [parse]
  dsimp only
  rw [parse_value_skip_ws, hp, ok_bind]
  rfl

-- What the output is read back as.
def readValue (r : VerifyResult) : Value :=
  .object ((entries r).map Entry.pair).reverse

theorem parse_render_json (r : VerifyResult) : parse (render_json r) = .ok (readValue r) := by
  have ⟨_, _, _, _, _, _, _, _, _, _, hi, hc, _⟩ := utf8_literals
  refine parse_of_parses ?_
  rw [render_json, ←map_line_entries]
  refine parses_object ?_ hc ?_ (by simp [entries]) (valid_entries r)
  · rw [hi]
    unfold IsSpace
    simp [isWhitespace]
  · unfold IsSpace
    simp [isWhitespace]

-- The paths in the array with a key.
def readPaths (v : Value) (key : String) : Option (List (List Char)) := do
  let items ← (← v.get key.toList).as_array
  items.mapM fun item => do (← item.get "relPath".toList).as_str

theorem toList_injective : Function.Injective String.toList :=
  fun _ _ => String.toList_inj.mp

theorem get_readValue {e : Entry} (r : VerifyResult) (he : e ∈ entries r) :
    (readValue r).get e.key.toList = some e.value := by
  have hn := plain_keys.right.left
  refine Fields.lookup_of_mem ?_ (List.mem_reverse.mpr <| List.mem_map_of_mem (f := Entry.pair) he)
  have hk : ((entries r).map Entry.pair).map Prod.fst = (keys r.exact_dir).map String.toList := by
    rw [←map_key_entries, List.map_map, List.map_map]
    rfl
  rw [List.map_reverse, List.nodup_reverse, hk]
  exact (hn _).map toList_injective

-- The paths of rows are read back from their array.
theorem readPaths_rowEntry {key : String} {l : List α} {f : α → List (String × List Char)} {path : α → List Char}
    {v : Value} (hv : v.get key.toList = some (rowEntry key l f).value)
    (hf : ∀ a, (rowValue (f a)).get "relPath".toList = some (.string (path a))) :
    readPaths v key = some (l.map path) := by
  have hm (l : List α) : (l.map fun a => rowValue (f a)).mapM
      (fun item => (do (← item.get "relPath".toList).as_str : Option (List Char))) = some (l.map path) := by
    induction l
    case nil => rfl
    case cons a l ih =>
      rw [List.map_cons, List.mapM_cons, ih, hf]
      rfl
  rw [readPaths, hv]
  exact hm l

-- What is rendered is read back: every quoted text, and the lists of paths of every result.
structure ReadsBack : Prop where
  text   : ∀ s, parse (quoted s) = .ok (.string s)
  result : ∀ r : VerifyResult, ∃ v, parse (render_json r) = .ok v ∧
    readPaths v "changed" = some (r.changed.map ChangedEntry.rel_path) ∧
      readPaths v "missing" = some r.missing ∧ readPaths v "unexpected" = some r.unexpected

theorem get_relPath (m : List Char) : (rowValue [("relPath", m)]).get "relPath".toList = some (.string m) := by
  refine Fields.lookup_of_mem ?_ ?_ <;> simp

theorem get_relPath_changed (ch : ChangedEntry) :
    (rowValue (changedRow ch)).get "relPath".toList = some (.string ch.rel_path) := by
  have hn := plain_keys.right.right.right.right
  refine Fields.lookup_of_mem ?_ ?_
  · rw [List.map_reverse, List.nodup_reverse]
    simpa only [changedRow, List.map_cons, List.map_nil] using hn
  · simp [changedRow]

theorem reads_back : ReadsBack where
  text s   := parse_of_parses <| parses_quoted s
  result r := by
    have hc := get_readValue (e := rowEntry "changed" r.changed changedRow) r (by simp [entries])
    have hm := get_readValue (e := rowEntry "missing" r.missing fun m => [("relPath", m)]) r (by simp [entries])
    have hu := get_readValue (e := rowEntry "unexpected" r.unexpected fun m => [("relPath", m)]) r (by simp [entries])
    refine ⟨readValue r, parse_render_json r, ?_, ?_, ?_⟩
    · exact readPaths_rowEntry hc get_relPath_changed
    · exact (readPaths_rowEntry hm get_relPath).trans <| by rw [List.map_id']
    · exact (readPaths_rowEntry hu get_relPath).trans <| by rw [List.map_id']

end

end RustJson
