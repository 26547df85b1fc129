import Verifyhash.Data.Json.Canonical
import Verifyhash.VerifierRs.Theorems.Json

-- What `JSON.stringify` writes is read by the parser in Rust.
namespace VerifierRs

open Fallible Unicode Json
open RustJson (Parses parse_string string_loop Ends skip_ws object_loop array_loop parse_value)

section

variable {rest : Bytes} {fuel total : ℕ} {out : List Char}

-- The escape of a character by `JSON.stringify`.
def escapeUnit (ch : Char) : List Char :=
  if ch = Char.ofNat 8 then ['\\', 'b']
  else if ch = Char.ofNat 12 then ['\\', 'f']
  else RustJson.escapeChar ch

def stringText (s : List Char) : List Char :=
  '"' :: (s.flatMap escapeUnit ++ ['"'])

theorem string_loop_escapeUnit (ch : Char) :
    string_loop (fuel + 1) (utf8 (escapeUnit ch) ++ rest) out = string_loop fuel rest (out ++ [ch]) := by
  rw [escapeUnit]
  split_ifs with h₁ h₂
  · subst h₁; rfl
  · subst h₂; rfl
  · exact RustJson.string_loop_escapeChar ch

theorem escapeUnit_ne_nil (ch : Char) : escapeUnit ch ≠ [] := by
  rw [escapeUnit]
  split_ifs
  · simp
  · simp
  · exact RustJson.escapeChar_ne_nil ch

theorem string_loop_escapes {s : List Char} (hf : s.length < fuel) :
    string_loop fuel (utf8 (s.flatMap escapeUnit) ++ 34 :: rest) out = .ok (out ++ s, rest) := by
  induction s generalizing fuel out
  case nil =>
    cases fuel
    case zero      => cases hf
    case succ fuel =>
      rw [List.append_nil]
      rfl
  case cons ch s ih =>
    cases fuel
    case zero      => cases hf
    case succ fuel =>
      rw [List.flatMap_cons, RustJson.utf8_append, List.append_assoc, string_loop_escapeUnit, ih (by simpa using hf),
        List.append_assoc, List.singleton_append]

theorem length_le_escapes (s : List Char) : s.length ≤ (utf8 (s.flatMap escapeUnit)).length := by
  induction s
  case nil => simp
  case cons ch s ih =>
    have h₁ := RustJson.length_utf8_pos (escapeUnit_ne_nil ch)
    rw [List.flatMap_cons, RustJson.utf8_append, List.length_append, List.length_cons]
    omega

theorem utf8_stringText (s : List Char) : utf8 (stringText s) = 34 :: (utf8 (s.flatMap escapeUnit) ++ [34]) := by
  rw [stringText, ←List.singleton_append, RustJson.utf8_append, RustJson.utf8_append]
  rfl

theorem parse_string_stringText (s : List Char) :
    parse_string total (utf8 (stringText s) ++ rest) = .ok (s, rest) := by
  rw [utf8_stringText, List.cons_append, List.append_assoc, List.singleton_append]
  have hl := length_le_escapes s
  rw [parse_string, RustJson.expect, List.head?_cons, if_pos rfl, ok_bind, List.tail_cons,
    string_loop_escapes (by rw [List.length_append]; omega), List.nil_append]

theorem parses_stringText (s : List Char) : Parses total (stringText s) (.string s) := by
  intro rest fuel _ hf
  obtain ⟨x, hx⟩ : ∃ x, utf8 (stringText s) ++ rest = 34 :: x := ⟨_, by rw [utf8_stringText, List.cons_append]⟩
  cases fuel
  case zero => rw [utf8_stringText] at hf; simp at hf
  case succ fuel =>
    have hs : skip_ws (34 :: x) = 34 :: x := rfl
    have hp : parse_string total (utf8 (stringText s) ++ rest) = .ok (s, rest) := parse_string_stringText s
    rw [hx] at hp ⊢
    rw [parse_value, hs]
    dsimp only
    rw [if_neg (by decide), if_neg (by decide), if_pos rfl, hp]
    rfl

-- A unit which is not half of a pair is escaped alone.
theorem unitTexts_cons {u : UInt16} {s : JsString} (h : ¬ isHigh u) : unitTexts (u :: s) = unitText u ++ unitTexts s := by
  cases s
  case nil => rw [unitTexts, unitTexts, List.append_nil]
  case cons v s => rw [unitTexts, if_neg fun hp => h hp.left]

theorem unitText_ascii : ∀ n < 128, unitText (.ofNat n) = utf16 (escapeUnit (.ofNat n)) := by
  decide +kernel

theorem escapeUnit_of_le {ch : Char} (h : 128 ≤ ch.toNat) : escapeUnit ch = [ch] := by
  have hne (d : Char) (hd : d.toNat < 128) : ch ≠ d := by
    rintro rfl
    omega
  rw [escapeUnit, if_neg (hne _ (by decide)), if_neg (hne _ (by decide)), RustJson.escapeChar, if_neg (hne _ (by decide)),
    if_neg (hne _ (by decide)), if_neg (hne _ (by decide)), if_neg (hne _ (by decide)), if_neg (hne _ (by decide)),
    if_neg (by omega)]

theorem unitText_of_le {u : UInt16} (h : 128 ≤ u.toNat) (hh : ¬ isHigh u) (hl : ¬ isLow u) : unitText u = [u] := by
  have hne (v : UInt16) (hv : v.toNat < 128) : u ≠ v := by
    rintro rfl
    omega
  have hlt : ¬ u < 32 := by
    rw [UInt16.lt_iff_toNat_lt]
    have : (32 : UInt16).toNat = 32 := rfl
    omega
  rw [unitText, if_neg (hne _ (by decide)), if_neg (hne _ (by decide)), if_neg (hne _ (by decide)), if_neg (hne _ (by decide)),
    if_neg (hne _ (by decide)), if_neg (hne _ (by decide)), if_neg (hne _ (by decide)), if_neg (by tauto)]

theorem unitTexts_utf16 (s : List Char) : unitTexts (utf16 s) = utf16 (s.flatMap escapeUnit) := by
  induction s
  case nil => rfl
  case cons ch s ih =>
    rw [utf16_cons, List.flatMap_cons, utf16_append, ←ih]
    obtain h | h := Nat.lt_or_ge ch.toNat 128
    case inl =>
      have hc : utf16Char ch = [.ofNat ch.toNat] := by rw [utf16Char, if_pos (by omega)]
      have hh : ¬ isHigh (.ofNat ch.toNat) := by
        rw [isHigh_iff, toNat_ofNat_of_lt (by omega)]
        omega
      have := unitText_ascii ch.toNat h
      rw [Char.ofNat_toNat] at this
      rw [hc, List.singleton_append, unitTexts_cons hh, this]
    case inr =>
      rw [escapeUnit_of_le h]
      have h₁ : utf16 [ch] = utf16Char ch := List.flatMap_singleton ..
      rw [h₁]
      obtain ⟨u, hu, hhi, hlo, ho⟩ | ⟨u, v, hu, hhi, hlo, _⟩ := utf16Char_cases ch
      case inl =>
        have hn : 128 ≤ u.toNat := by
          rw [utf16Char] at hu
          split_ifs at hu with hc
          · rw [←(List.cons.inj hu).left, toNat_ofNat_of_lt hc]
            exact h
          · simp at hu
        rw [hu, List.singleton_append, unitTexts_cons hhi, unitText_of_le hn hhi hlo]
      case inr =>
        rw [hu, List.cons_append, List.singleton_append, unitTexts, if_pos ⟨hhi, hlo⟩]
        rfl

theorem quote_utf16 (s : List Char) : quote (utf16 s) = utf16 (stringText s) := by
  rw [quote, unitTexts_utf16, stringText, utf16_cons, utf16_append]
  rfl

end

-- The text of a value in JavaScript is read as the value in Rust.
def ReadAs (v : Value) (w : RustJson.Value) : Prop :=
  ∃ cs, stringify v = some (utf16 cs) ∧ ∀ total, Parses total cs w

theorem readAs_string (s : List Char) : ReadAs (.string <| utf16 s) (.string s) := by
  refine ⟨stringText s, ?_, fun _ => parses_stringText s⟩
  rw [stringify, quote_utf16]

-- The counts which occur.
theorem numberText_count : ∀ n ≤ 25, numberText (.ofNat n) = utf16 (RustJson.count n) := by
  decide +kernel

theorem readAs_nat {n : ℕ} (h : n ≤ 25) : ReadAs (.nat n) (RustJson.countValue n) := by
  refine ⟨RustJson.count n, ?_, fun _ => RustJson.parses_count n⟩
  rw [Value.nat, stringify, numberText_count n h]

section

variable {rest : Bytes} {fuel total : ℕ}

def commas (texts : List (List Char)) : List Char :=
  [','].intercalate texts

theorem commas_cons_cons (t t' : List Char) (ts : List (List Char)) :
    commas (t :: t' :: ts) = t ++ ',' :: commas (t' :: ts) := by
  simp [commas, List.intercalate]

theorem commas_singleton (t : List Char) : commas [t] = t := by
  simp [commas, List.intercalate]

theorem utf16_commas (ts : List (List Char)) : utf16 (commas ts) = join (ts.map utf16) := by
  induction ts
  case nil => rfl
  case cons t ts ih =>
    cases ts
    case nil => simp [commas_singleton, join, List.intercalate]
    case cons t' ts =>
      rw [commas_cons_cons, utf16_append, utf16_cons, ih]
      simp [join, List.intercalate]
      rfl

theorem utf8_commas_cons_cons (t t' : List Char) (ts : List (List Char)) :
    utf8 (commas (t :: t' :: ts)) = utf8 t ++ 44 :: utf8 (commas (t' :: ts)) := by
  rw [commas_cons_cons, RustJson.utf8_append, ←List.singleton_append, RustJson.utf8_append]
  rfl

theorem ends_of_head {b : UInt8} (h : ¬ RustJson.isNumeric b) : Ends (b :: rest) :=
  RustJson.ends_of_space (w := []) nofun h

theorem array_loop_commas {es : List (List Char × RustJson.Value)} (hne : es ≠ [])
    (he : ∀ e ∈ es, Parses total e.fst e.snd) (hf : 2 * (utf8 (commas (es.map Prod.fst))).length < fuel) {items : List RustJson.Value} :
    array_loop total fuel (utf8 (commas (es.map Prod.fst)) ++ 93 :: rest) items =
      .ok (.array (items ++ es.map Prod.snd), rest) := by
  obtain ⟨fuel, rfl⟩ : ∃ n, fuel = n + 1 := ⟨fuel - 1, by omega⟩
  induction es generalizing fuel items
  case nil => exact absurd rfl hne
  case cons e es ih =>
    have ⟨hp, hes⟩ := List.forall_mem_cons.mp he
    cases es
    case nil =>
      rw [List.map_singleton, commas_singleton] at hf ⊢
      have hs : skip_ws (93 :: rest) = 93 :: rest := rfl
      rw [array_loop, hp _ _ (ends_of_head (by decide)) (by omega), ok_bind]
      dsimp only
      rw [hs, List.head?_cons, if_neg (by simp), if_pos rfl]
      rfl
    case cons e' es =>
      rw [List.map_cons, List.map_cons, utf8_commas_cons_cons, ←List.map_cons] at hf ⊢
      simp only [List.length_append, List.length_cons] at hf
      obtain ⟨fuel, rfl⟩ : ∃ n, fuel = n + 1 := ⟨fuel - 1, by omega⟩
      have hs (x : Bytes) : skip_ws (44 :: x) = 44 :: x := rfl
      rw [List.append_assoc, List.cons_append, array_loop, hp _ _ (ends_of_head (by decide)) (by omega), ok_bind]
      dsimp only
      rw [hs, List.head?_cons, if_pos rfl, List.tail_cons, ih (by simp) hes fuel (by omega), List.append_assoc]
      rfl

-- What is read as a value does not close an array.
theorem head_of_parses {t : List Char} {v : RustJson.Value} (h : Parses total t v) (he : Ends rest) :
    (skip_ws (utf8 t ++ rest)).head? ≠ some 93 := by
  intro hh
  obtain ⟨x, hx⟩ := List.head?_eq_some_iff.mp hh
  have hp := h rest (2 * (utf8 t).length + 1) he (by omega)
  rw [parse_value, hx] at hp
  cases hp

theorem parses_array {es : List (List Char × RustJson.Value)} (he : ∀ e ∈ es, Parses total e.fst e.snd) :
    Parses total ('[' :: (commas (es.map Prod.fst) ++ [']'])) (.array <| es.map Prod.snd) := by
  intro rest fuel _ hf
  have hs (x : Bytes) : skip_ws (91 :: x) = 91 :: x := rfl
  have hu : utf8 ('[' :: (commas (es.map Prod.fst) ++ [']'])) = 91 :: (utf8 (commas (es.map Prod.fst)) ++ [93]) := by
    rw [←List.singleton_append, RustJson.utf8_append, RustJson.utf8_append]
    rfl
  rw [hu] at hf ⊢
  simp only [List.length_cons, List.length_append] at hf
  obtain ⟨fuel, rfl⟩ : ∃ n, fuel = n + 1 := ⟨fuel - 1, by omega⟩
  rw [List.cons_append, List.append_assoc, List.singleton_append, parse_value, hs]
  dsimp only
  rw [if_neg (by decide), if_pos rfl]
  cases es
  case nil => rfl
  case cons e es =>
    have hh : (skip_ws (utf8 (commas ((e :: es).map Prod.fst)) ++ 93 :: rest)).head? ≠ some 93 := by
      have hp := he e List.mem_cons_self
      cases es
      case nil =>
        rw [List.map_singleton, commas_singleton]
        exact head_of_parses hp <| ends_of_head (by decide)
      case cons e' es =>
        rw [List.map_cons, List.map_cons, utf8_commas_cons_cons, List.append_assoc, List.cons_append]
        exact head_of_parses hp <| ends_of_head (by decide)
    rw [if_neg hh, RustJson.array_loop_skip_ws, array_loop_commas (by simp) he (by omega), List.nil_append]

-- A field, as it is written and as it is read.
structure Field where
  key   : List Char
  text  : List Char
  value : RustJson.Value

def Field.entry (f : Field) : List Char :=
  stringText f.key ++ ':' :: f.text

def Field.pair (f : Field) : List Char × RustJson.Value :=
  (f.key, f.value)

theorem utf8_entry (f : Field) : utf8 f.entry = utf8 (stringText f.key) ++ 58 :: utf8 f.text := by
  rw [Field.entry, RustJson.utf8_append, ←List.singleton_append, RustJson.utf8_append]
  rfl

theorem object_loop_field {f : Field} (hp : Parses total f.text f.value) (hX : Ends rest)
    (hf : 2 * (utf8 f.text).length ≤ fuel) {map : List (List Char × RustJson.Value)} :
    object_loop total (fuel + 1) (utf8 f.entry ++ rest) map =
      if (skip_ws rest).head? = some 44 then object_loop total fuel (skip_ws rest).tail (f.pair :: map)
      else if (skip_ws rest).head? = some 125 then .ok (.object (f.pair :: map), (skip_ws rest).tail)
      else .error s!"expected ',' or '\x7d' at byte {total - (skip_ws rest).length}" := by
  have hs : parse_string total (utf8 (stringText f.key) ++ (58 :: (utf8 f.text ++ rest))) =
      .ok (f.key, 58 :: (utf8 f.text ++ rest)) := parse_string_stringText _
  have he : utf8 f.entry ++ rest = utf8 (stringText f.key) ++ (58 :: (utf8 f.text ++ rest)) := by
    rw [utf8_entry, List.append_assoc]
    rfl
  have hq : skip_ws (utf8 (stringText f.key) ++ (58 :: (utf8 f.text ++ rest))) =
      utf8 (stringText f.key) ++ (58 :: (utf8 f.text ++ rest)) := by
    rw [utf8_stringText]
    rfl
  have hh : (utf8 (stringText f.key) ++ (58 :: (utf8 f.text ++ rest))).head? = some 34 := by
    rw [utf8_stringText]
    rfl
  have hcolon : RustJson.expect total 58 (skip_ws (58 :: (utf8 f.text ++ rest))) = .ok (utf8 f.text ++ rest) := rfl
  rw [object_loop, he, hq]
  dsimp only
  rw [if_neg (not_not.mpr hh), hs, ok_bind]
  dsimp only
  rw [hcolon, ok_bind, hp rest fuel hX hf, ok_bind]
  rfl

theorem object_loop_commas {fs : List Field} (hne : fs ≠ []) (he : ∀ f ∈ fs, Parses total f.text f.value)
    (hf : 2 * (utf8 (commas (fs.map Field.entry))).length < fuel) {map : List (List Char × RustJson.Value)} :
    object_loop total fuel (utf8 (commas (fs.map Field.entry)) ++ 125 :: rest) map =
      .ok (.object ((fs.map Field.pair).reverse ++ map), rest) := by
  obtain ⟨fuel, rfl⟩ : ∃ n, fuel = n + 1 := ⟨fuel - 1, by omega⟩
  induction fs generalizing fuel map
  case nil => exact absurd rfl hne
  case cons f fs ih =>
    have ⟨hp, hfs⟩ := List.forall_mem_cons.mp he
    have hl : (utf8 f.text).length < (utf8 f.entry).length := by
      rw [utf8_entry, List.length_append, List.length_cons]
      omega
    cases fs
    case nil =>
      rw [List.map_singleton, commas_singleton] at hf ⊢
      have hs : skip_ws (125 :: rest) = 125 :: rest := rfl
      rw [object_loop_field hp (ends_of_head (by decide)) (by omega), hs, List.head?_cons, if_neg (by simp), if_pos rfl]
      rfl
    case cons f' fs =>
      rw [List.map_cons, List.map_cons, utf8_commas_cons_cons, ←List.map_cons] at hf ⊢
      simp only [List.length_append, List.length_cons] at hf
      obtain ⟨fuel, rfl⟩ : ∃ n, fuel = n + 1 := ⟨fuel - 1, by omega⟩
      have hs (x : Bytes) : skip_ws (44 :: x) = 44 :: x := rfl
      rw [List.append_assoc, List.cons_append, object_loop_field hp (ends_of_head (by decide)) (by omega), hs,
        List.head?_cons, if_pos rfl, List.tail_cons, ih (by simp) hfs fuel (by omega)]
      simp

theorem parses_object {fs : List Field} (hne : fs ≠ []) (he : ∀ f ∈ fs, Parses total f.text f.value) :
    Parses total ('\x7b' :: (commas (fs.map Field.entry) ++ ['\x7d'])) (.object (fs.map Field.pair).reverse) := by
  intro rest fuel _ hf
  have hs (x : Bytes) : skip_ws (123 :: x) = 123 :: x := rfl
  have hu : utf8 ('\x7b' :: (commas (fs.map Field.entry) ++ ['\x7d'])) =
      123 :: (utf8 (commas (fs.map Field.entry)) ++ [125]) := by
    rw [←List.singleton_append, RustJson.utf8_append, RustJson.utf8_append]
    rfl
  rw [hu] at hf ⊢
  simp only [List.length_cons, List.length_append] at hf
  obtain ⟨fuel, rfl⟩ : ∃ n, fuel = n + 1 := ⟨fuel - 1, by omega⟩
  rw [List.cons_append, List.append_assoc, List.singleton_append, parse_value, hs]
  dsimp only
  have hh : (skip_ws (utf8 (commas (fs.map Field.entry)) ++ 125 :: rest)).head? ≠ some 125 := by
    obtain ⟨f, fs, rfl⟩ := List.exists_cons_of_ne_nil hne
    have hq (x : Bytes) : skip_ws (34 :: x) = 34 :: x := rfl
    obtain ⟨y, hy⟩ : ∃ y, utf8 (commas ((f :: fs).map Field.entry)) = utf8 f.entry ++ y := by
      cases fs
      case nil => exact ⟨[], by rw [List.map_singleton, commas_singleton, List.append_nil]⟩
      case cons f' fs => exact ⟨_, utf8_commas_cons_cons ..⟩
    rw [hy, utf8_entry, utf8_stringText, List.cons_append, List.cons_append, List.cons_append, hq]
    simp
  rw [if_pos rfl, if_neg hh, RustJson.object_loop_skip_ws, object_loop_commas hne he (by omega), List.append_nil]

end

theorem readAs_array {vs : List Value} {ws : List RustJson.Value} (h : vs.Forall₂ ReadAs ws) :
    ReadAs (.array vs) (.array ws) := by
  have ⟨es, hs, hw, hp⟩ : ∃ es : List (List Char × RustJson.Value), stringifyElems vs = es.map (utf16 ·.fst) ∧
      es.map Prod.snd = ws ∧ ∀ total, ∀ e ∈ es, Parses total e.fst e.snd := by
    induction h
    case nil => exact ⟨[], rfl, rfl, by simp⟩
    case cons v w vs ws hv _ ih =>
      obtain ⟨es, hs, rfl, hp⟩ := ih
      obtain ⟨cs, hc, hcp⟩ := hv
      exact ⟨(cs, w) :: es, by rw [stringifyElems, hc, hs]; rfl, rfl,
        fun total => List.forall_mem_cons.mpr ⟨hcp total, hp total⟩⟩
  refine ⟨_, ?_, fun total => hw ▸ parses_array (hp total)⟩
  rw [stringify, hs, utf16_cons, utf16_append, utf16_commas, List.map_map]
  rfl

theorem readAs_object {fields : List (JsString × Value)} {entries : List (List Char × RustJson.Value)} (hne : fields ≠ [])
    (h : fields.Forall₂ (fun f e => f.fst = utf16 e.fst ∧ ReadAs f.snd e.snd) entries)
    (hn : (fields.map Prod.fst).Nodup) (ho : ownOrder (fields.map Prod.fst) = fields.map Prod.fst) :
    ReadAs (.object fields) (.object entries.reverse) := by
  have ⟨fs, hs, hk, hw, hp⟩ : ∃ fs : List Field,
      stringifyFields fields = (fs.map fun f => (utf16 f.key, utf16 f.text)).map (fun f => (f.fst, some f.snd)) ∧
        fields.map Prod.fst = (fs.map fun f => (utf16 f.key, utf16 f.text)).map Prod.fst ∧
          fs.map Field.pair = entries ∧ ∀ total, ∀ f ∈ fs, Parses total f.text f.value := by
    clear hne hn ho
    induction h
    case nil => exact ⟨[], rfl, rfl, rfl, by simp⟩
    case cons f e fields entries hv _ ih =>
      obtain ⟨fs, hs, hk, rfl, hp⟩ := ih
      obtain ⟨k, v⟩ := f
      obtain ⟨rfl, cs, hc, hcp⟩ := hv
      refine ⟨⟨e.fst, cs, e.snd⟩ :: fs, ?_, ?_, rfl, fun total => List.forall_mem_cons.mpr ⟨hcp total, hp total⟩⟩
      · rw [stringifyFields, hc, hs]
        rfl
      · rw [List.map_cons, hk]
        rfl
  have hfs : fs ≠ [] := by
    rintro rfl
    exact hne <| by simpa using hk
  rw [hk] at hn ho
  refine ⟨_, ?_, fun total => hw ▸ parses_object hfs (hp total)⟩
  rw [stringify, hs, Fields.arrange_self hn ho, joinFields, utf16_cons, utf16_append, utf16_commas, List.map_map, List.map_map]
  have he : (fs.map fun f => quote (utf16 f.key) ++ js ":" ++ utf16 f.text) = fs.map (utf16 ∘ Field.entry) := by
    refine List.map_congr_left fun f _ => ?_
    rw [Function.comp_apply, Field.entry, utf16_append, utf16_cons, quote_utf16, List.append_assoc]
    rfl
  rw [←he]
  rfl

-- The line of a text is read as the value.
theorem parse_line {v : Value} {w : RustJson.Value} (h : ReadAs v w) :
    ∃ cs, (stringify v).map (· ++ [10]) = some (utf16 cs) ∧ RustJson.parse cs = .ok w := by
  obtain ⟨cs, hs, hp⟩ := h
  refine ⟨cs ++ ['\n'], ?_, ?_⟩
  · rw [hs, utf16_append]
    rfl
  · have hu : utf8 (cs ++ ['\n']) = utf8 cs ++ [10] := RustJson.utf8_append _ _
    have hp := hp (utf8 (cs ++ ['\n'])).length [10] (2 * (utf8 (cs ++ ['\n'])).length + 2) (ends_of_head (by decide)) (by
      rw [hu, List.length_append]
      omega)
    rw [←hu] at hp
    rw [RustJson.parse]
    dsimp only
    rw [RustJson.parse_value_skip_ws, hp, ok_bind]
    rfl

end VerifierRs
