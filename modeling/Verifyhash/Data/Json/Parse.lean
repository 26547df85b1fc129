import Verifyhash.Data.Json.Number
import Verifyhash.Data.Json.Text

-- `JSON.parse`, and the texts from which it reads back a value.
namespace Json

-- The assignment of a property, which replaces an earlier one with the same key.
def setField (fields : List (JsString × Value)) (key : JsString) (v : Value) : List (JsString × Value) :=
  if key ∈ fields.map (·.fst) then
    fields.map fun f => if f.fst = key then (key, v) else f
  else
    fields ++ [(key, v)]

def isSpace (u : UInt16) : Bool :=
  u = 9 ∨ u = 10 ∨ u = 13 ∨ u = 32

def skip (s : JsString) : JsString :=
  s.dropWhile isSpace

-- The rest of a text after a fixed part.
def expect (part s : JsString) : Option JsString :=
  if s.take part.length = part then some (s.drop part.length) else none

-- A key and the colon after it.
def parseKey (s : JsString) : Option (JsString × JsString) := do
  let s ← expect (js "\"") <| skip s
  let (key, s) ← parseChars s
  let s ← expect (js ":") <| skip s
  return (key, s)

mutual

-- A value at the start of a text, and the rest of the text. The recursion stops after `fuel` steps.
def parseValue : ℕ → JsString → Option (Value × JsString)
  | 0, _        => none
  | fuel + 1, s =>
    match skip s with
    | []     => none
    | u :: s =>
      if u = 34 then
        (parseChars s).map fun (t, s) => (.string t, s)
      else if u = 91 then
        match expect (js "]") (skip s) with
        | some s => some (.array [], s)
        | none   => (parseElems fuel s).map fun (elems, s) => (.array elems, s)
      else if u = 123 then
        match expect (js "\x7d") (skip s) with
        | some s => some (.object [], s)
        | none   =>
          (parseFields fuel s).map fun (fields, s) =>
            (.object <| fields.foldl (fun fields f => setField fields f.fst f.snd) [], s)
      else if u = 110 then
        (expect (js "ull") s).map fun s => (.null, s)
      else if u = 116 then
        (expect (js "rue") s).map fun s => (.bool true, s)
      else if u = 102 then
        (expect (js "alse") s).map fun s => (.bool false, s)
      else
        (parseNumber (u :: s)).map fun (n, s) => (.number n, s)

-- The elements of an array up to the closing bracket.
def parseElems : ℕ → JsString → Option (List Value × JsString)
  | 0, _        => none
  | fuel + 1, s =>
    (parseValue fuel s).bind fun (v, s) =>
      match expect (js ",") (skip s) with
      | some s => (parseElems fuel s).map fun (vs, s) => (v :: vs, s)
      | none   => (expect (js "]") <| skip s).map fun s => ([v], s)

-- The fields of an object up to the closing brace.
def parseFields : ℕ → JsString → Option (List (JsString × Value) × JsString)
  | 0, _        => none
  | fuel + 1, s =>
    (parseKey s).bind fun (key, s) => (parseValue fuel s).bind fun (v, s) =>
      match expect (js ",") (skip s) with
      | some s => (parseFields fuel s).map fun (fs, s) => ((key, v) :: fs, s)
      | none   => (expect (js "\x7d") <| skip s).map fun s => ([(key, v)], s)

end

-- `JSON.parse`, which throws instead of returning `none`. Two steps are enough for each code unit.
def parse (s : JsString) : Option Value := do
  let (v, s) ← parseValue (2 * s.length) s
  guard (skip s = [])
  return v

-- `parts.join(",")`
def join (parts : List JsString) : JsString :=
  (js ",").intercalate parts

mutual

-- The text of a value, without spaces and with the fields in their order.
def render : Value → JsString
  | .undefined     => []
  | .null          => js "null"
  | .bool b        => if b then js "true" else js "false"
  | .number n      => numberText n
  | .string s      => quote s
  | .array elems   => js "[" ++ join (renderElems elems) ++ js "]"
  | .object fields => js "\x7b" ++ join (renderFields fields) ++ js "\x7d"

def renderElems : List Value → List JsString
  | []      => []
  | v :: vs => render v :: renderElems vs

def renderFields : List (JsString × Value) → List JsString
  | []           => []
  | (k, v) :: fs => (quote k ++ js ":" ++ render v) :: renderFields fs

end

-- The values which a text can stand for.
inductive Plain : Value → Prop
  | null   : Plain .null
  | bool   : Plain (.bool b)
  | number : Double.IsDouble q → Plain (.number <| .finite q)
  | string : Plain (.string s)
  | array  : (∀ v ∈ elems, Plain v) → Plain (.array elems)
  | object : (fields.map Prod.fst).Nodup → (∀ f ∈ fields, Plain f.snd) → Plain (.object fields)

@[simp]
theorem renderElems_eq : renderElems vs = vs.map render := by
  induction vs <;> simp_all [renderElems]

-- The text of a field.
def renderField (f : JsString × Value) : JsString :=
  quote f.fst ++ js ":" ++ render f.snd

@[simp]
theorem renderFields_eq : renderFields fs = fs.map renderField := by
  induction fs <;> simp_all [renderFields, renderField]

@[simp]
theorem join_singleton : join [x] = x :=
  List.append_nil x

@[simp]
theorem join_cons_cons : join (x :: y :: l) = x ++ js "," ++ join (y :: l) := by
  simp [join, List.intercalate]

theorem skip_cons (h : ¬ isSpace u) : skip (u :: s) = u :: s :=
  List.dropWhile_cons_of_neg h

@[simp]
theorem expect_append : expect part (part ++ s) = some s := by
  simp [expect]

theorem expect_eq_none (h : u ≠ c) : expect [c] (u :: s) = none := by
  simp [expect, h]

-- Texts which start with something else than a space or a closing bracket.
def Starts (s : JsString) : Prop :=
  ∃ u s', s = u :: s' ∧ ¬ isSpace u ∧ u ≠ 93

section

variable {rest : JsString}

theorem Starts.append (h : Starts s) : Starts (s ++ rest) := by
  obtain ⟨u, s', rfl, h⟩ := h
  exact ⟨u, s' ++ rest, rfl, h⟩

theorem starts_of_isDigit (h : isDigit u) : Starts (u :: s) := by
  refine ⟨u, s, rfl, ?_, ?_⟩
  · intro hs
    simp only [isSpace, decide_eq_true_eq] at hs
    rcases hs with rfl | rfl | rfl | rfl <;> exact absurd h (by decide)
  · rintro rfl
    exact absurd h (by decide)

theorem rationalText_head (hq : Double.IsDouble q) :
    ∃ u s, rationalText q = u :: s ∧ (isDigit u ∨ u = 45) := by
  have hm (s : JsString) : ∃ u t, js "-" ++ s = u :: t ∧ (isDigit u ∨ u = 45) := ⟨45, s, rfl, .inr rfl⟩
  rw [rationalText]
  split_ifs with h₀ hn
  case pos => exact ⟨48, [], rfl, .inl rfl⟩
  case pos =>
    simp only
    exact hm _
  case neg =>
    have ha : |q| = q := abs_of_nonneg <| not_lt.mp hn
    have hs := Double.shortest_spec hq <| lt_of_le_of_ne (not_lt.mp hn) (Ne.symm h₀)
    obtain ⟨u, s, h, hu⟩ := head_decimalText (n := (Double.shortest q).snd) hs.ne_nil hs.lt
    exact ⟨u, s, by simpa only [ha] using h, .inl hu⟩

theorem starts_render (h : Plain v) : Starts (render v) := by
  cases h
  case null => exact ⟨110, _, rfl, by decide⟩
  case bool b =>
    cases b
    · exact ⟨102, _, rfl, by decide⟩
    · exact ⟨116, _, rfl, by decide⟩
  case number hq =>
    obtain ⟨u, s, h, hu⟩ := rationalText_head hq
    rw [render, numberText, h]
    rcases hu with hu | rfl
    · exact starts_of_isDigit hu
    · exact ⟨45, s, rfl, by decide⟩
  case string => exact ⟨34, _, rfl, by decide⟩
  case array  => exact ⟨91, _, rfl, by decide⟩
  case object => exact ⟨123, _, rfl, by decide⟩

-- Values which are parsed back from their text, whatever follows it.
def ParsesBack (v : Value) : Prop :=
  ∀ fuel rest, 2 * (render v).length ≤ fuel → Ends rest → parseValue fuel (render v ++ rest) = some (v, rest)

theorem ends_js {part : String} (h : js part = [44] ∨ js part = [93] ∨ js part = [125]) :
    Ends (js part ++ rest) := by
  rcases h with h | h | h <;> rw [h] <;> rintro v ⟨rfl⟩ <;> decide

section

variable {s : JsString}

@[simp]
theorem expect_comma : expect (js ",") (skip <| js "," ++ s) = some s :=
  rfl

@[simp]
theorem expect_comma_bracket : expect (js ",") (skip <| js "]" ++ s) = none :=
  rfl

@[simp]
theorem expect_comma_brace : expect (js ",") (skip <| js "\x7d" ++ s) = none :=
  rfl

@[simp]
theorem expect_bracket : expect (js "]") (skip <| js "]" ++ s) = some s :=
  rfl

@[simp]
theorem expect_brace : expect (js "\x7d") (skip <| js "\x7d" ++ s) = some s :=
  rfl

end

theorem Starts.length_pos (h : Starts s) : 0 < s.length := by
  obtain ⟨_, _, rfl, _⟩ := h
  simp

theorem join_map_cons_cons {f : α → JsString} {l : List α} :
    join ((a :: b :: l).map f) = f a ++ (js "," ++ join ((b :: l).map f)) := by
  rw [List.map_cons, List.map_cons, join_cons_cons, List.append_assoc]

@[simp]
theorem join_nil : join [] = [] :=
  rfl

theorem starts_join {f : α → JsString} {l : List α} (h : Starts <| f a) : Starts (join <| (a :: l).map f) := by
  rcases l with _ | ⟨b, l⟩
  case nil  => rwa [List.map_singleton, join_singleton]
  case cons => exact join_map_cons_cons ▸ h.append

theorem renderFields_head (f : JsString × Value) (fields) :
    ∃ s, join ((f :: fields).map renderField) = 34 :: s := by
  rcases fields with _ | ⟨g, fields⟩
  case nil  => exact ⟨_, by rw [List.map_singleton, join_singleton]; rfl⟩
  case cons => exact ⟨_, join_map_cons_cons.trans rfl⟩

theorem Starts.expect_bracket (h : Starts s) : expect (js "]") (skip s) = none := by
  obtain ⟨u, s', rfl, hs, hu⟩ := h
  rw [skip_cons hs]
  exact expect_eq_none hu

theorem length_comma : (js ",").length = 1 :=
  rfl

theorem parseElems_eq {elems : List Value} (hn : elems ≠ []) (hp : ∀ v ∈ elems, Plain v)
    (h : ∀ v ∈ elems, ParsesBack v) (hf : 2 * (join <| elems.map render).length + 1 ≤ fuel) :
    parseElems fuel (join (elems.map render) ++ (js "]" ++ rest)) = some (elems, rest) := by
  induction elems generalizing fuel
  case nil => exact absurd rfl hn
  case cons v elems ih =>
    obtain ⟨fuel, rfl⟩ : ∃ k, fuel = k + 1 := ⟨fuel - 1, by omega⟩
    have ⟨hv, h⟩ := List.forall_mem_cons.mp h
    have ⟨hpv, hp⟩ := List.forall_mem_cons.mp hp
    rcases elems with _ | ⟨w, elems⟩
    case nil =>
      rw [List.map_singleton, join_singleton] at hf ⊢
      rw [parseElems, hv fuel _ (by omega) <| ends_js <| .inr <| .inl rfl]
      simp
    case cons =>
      rw [join_map_cons_cons] at hf ⊢
      simp only [List.length_append, length_comma] at hf
      have ih := @ih fuel (by simp) hp h (by omega)
      rw [parseElems, List.append_assoc, List.append_assoc, hv fuel _ (by omega) <| ends_js <| .inl rfl]
      simp only [Option.bind_some, expect_comma, ih, Option.map_some]

theorem parseKey_eq (k s : JsString) : parseKey (quote k ++ (js ":" ++ s)) = some (k, s) := by
  have hq : expect (js "\"") (skip <| quote k ++ (js ":" ++ s)) =
      some (unitTexts k ++ js "\"" ++ (js ":" ++ s)) := by
    have : quote k ++ (js ":" ++ s) = js "\"" ++ (unitTexts k ++ js "\"" ++ (js ":" ++ s)) := by
      simp [quote]
    rw [this]
    rfl
  have hc : expect (js ":") (skip <| js ":" ++ s) = some s := rfl
  rw [parseKey, hq, Option.bind_eq_bind, Option.bind_some, parseChars_unitTexts, Option.bind_eq_bind,
    Option.bind_some]
  simp only [hc, Option.bind_some, Option.pure_def]

theorem parseFields_eq {fields : List (JsString × Value)} (hn : fields ≠ [])
    (hp : ∀ f ∈ fields, Plain f.snd) (h : ∀ f ∈ fields, ParsesBack f.snd)
    (hf : 2 * (join <| fields.map renderField).length + 1 ≤ fuel) :
    parseFields fuel (join (fields.map renderField) ++ (js "\x7d" ++ rest)) = some (fields, rest) := by
  have hr (f) : (render f.snd).length ≤ (renderField f).length := by
    simp only [renderField, List.length_append]
    omega
  induction fields generalizing fuel
  case nil => exact absurd rfl hn
  case cons f fields ih =>
    obtain ⟨fuel, rfl⟩ : ∃ k, fuel = k + 1 := ⟨fuel - 1, by omega⟩
    have ⟨hv, h⟩ := List.forall_mem_cons.mp h
    have ⟨hpv, hp⟩ := List.forall_mem_cons.mp hp
    have hr := hr f
    rcases fields with _ | ⟨g, fields⟩
    case nil =>
      rw [List.map_singleton, join_singleton] at hf ⊢
      rw [parseFields, renderField, List.append_assoc, List.append_assoc, parseKey_eq, Option.bind_some]
      simp only
      rw [hv fuel _ (by omega) <| ends_js <| .inr <| .inr rfl]
      simp
    case cons =>
      rw [join_map_cons_cons] at hf ⊢
      simp only [List.length_append, length_comma] at hf
      have ih := @ih fuel (by simp) hp h (by omega)
      rw [parseFields, renderField, List.append_assoc, List.append_assoc, List.append_assoc,
        List.append_assoc, parseKey_eq, Option.bind_some]
      simp only
      rw [hv fuel _ (by omega) <| ends_js <| .inl rfl]
      simp only [Option.bind_some, expect_comma, ih, Option.map_some]

-- Properties with distinct keys are all kept.
theorem foldl_setField {fields acc : List (JsString × Value)}
    (h : ((acc ++ fields).map Prod.fst).Nodup) :
    fields.foldl (fun fields f => setField fields f.fst f.snd) acc = acc ++ fields := by
  induction fields generalizing acc
  case nil => simp
  case cons f fields ih =>
    have hf : f.fst ∉ acc.map Prod.fst := by
      rw [List.map_append, List.nodup_append] at h
      intro hm
      exact h.right.right _ hm _ (by simp) rfl
    rw [List.foldl_cons, setField, if_neg hf, ih (by simpa using h)]
    simp

-- A text of a value is not empty, so that there is fuel for the first step.
theorem ParsesBack.of_succ (hp : Plain v) (h : ∀ fuel rest, 2 * (render v).length ≤ fuel + 1 →
    Ends rest → parseValue (fuel + 1) (render v ++ rest) = some (v, rest)) : ParsesBack v := by
  intro fuel rest hf
  have := (starts_render hp).length_pos
  obtain ⟨fuel, rfl⟩ : ∃ k, fuel = k + 1 := ⟨fuel - 1, by omega⟩
  exact h fuel rest hf

theorem parseValue_number (hq : Double.IsDouble q) (h : Ends rest) :
    parseValue (fuel + 1) (rationalText q ++ rest) = some (.number <| .finite q, rest) := by
  have hp := parseNumber_rationalText hq h
  obtain ⟨u, s, hs, hu⟩ := rationalText_head hq
  rw [hs, List.cons_append] at hp ⊢
  have hne (c : UInt16) (hc : ¬ (isDigit c ∨ c = 45)) : u ≠ c := fun h => hc <| h ▸ hu
  have hsp : ¬ isSpace u := by
    simp [isSpace, hne 9 (by decide), hne 10 (by decide), hne 13 (by decide), hne 32 (by decide)]
  rw [parseValue, skip_cons hsp]
  simp only [hne 34 (by decide), hne 91 (by decide), hne 123 (by decide), hne 110 (by decide),
    hne 116 (by decide), hne 102 (by decide), if_false, hp, Option.map_some]

-- The elements of a list come after the bracket unless there are none.
theorem parseValue_array {elems : List Value} (hp : ∀ v ∈ elems, Plain v) (h : ∀ v ∈ elems, ParsesBack v)
    (hf : 2 * (join <| elems.map render).length + 1 ≤ fuel) :
    parseValue (fuel + 1) (js "[" ++ (join (elems.map render) ++ (js "]" ++ rest))) =
      some (.array elems, rest) := by
  have hb (s : JsString) : parseValue (fuel + 1) (js "[" ++ s) =
      match expect (js "]") (skip s) with
      | some s => some (.array [], s)
      | none   => (parseElems fuel s).map fun (elems, s) => (.array elems, s) := rfl
  rw [hb]
  rcases elems with _ | ⟨v, elems⟩
  case nil =>
    rw [List.map_nil, join_nil, List.nil_append, expect_bracket]
  case cons =>
    have hs : Starts (join ((v :: elems).map render) ++ (js "]" ++ rest)) :=
      (starts_join <| starts_render <| hp v <| List.mem_cons_self ..).append
    rw [hs.expect_bracket, parseElems_eq (by simp) hp h hf, Option.map_some]

theorem parseValue_object {fields : List (JsString × Value)} (hp : ∀ f ∈ fields, Plain f.snd)
    (h : ∀ f ∈ fields, ParsesBack f.snd) (hn : (fields.map Prod.fst).Nodup)
    (hf : 2 * (join <| fields.map renderField).length + 1 ≤ fuel) :
    parseValue (fuel + 1) (js "\x7b" ++ (join (fields.map renderField) ++ (js "\x7d" ++ rest))) =
      some (.object fields, rest) := by
  have hb (s : JsString) : parseValue (fuel + 1) (js "\x7b" ++ s) =
      match expect (js "\x7d") (skip s) with
      | some s => some (.object [], s)
      | none   => (parseFields fuel s).map fun (fields, s) =>
          (.object <| fields.foldl (fun fields f => setField fields f.fst f.snd) [], s) := rfl
  rw [hb]
  rcases fields with _ | ⟨f, fields⟩
  case nil =>
    rw [List.map_nil, join_nil, List.nil_append, expect_brace]
  case cons =>
    obtain ⟨s, hs⟩ := renderFields_head f fields
    have : expect (js "\x7d") (skip <| join ((f :: fields).map renderField) ++ (js "\x7d" ++ rest)) = none := by
      rw [hs]
      rfl
    rw [this, parseFields_eq (by simp) hp h hf, Option.map_some]
    simp only
    rw [@foldl_setField _ [] hn, List.nil_append]

-- A value is parsed back from its text, whatever follows it.
theorem parsesBack (h : Plain v) : ParsesBack v := by
  induction v using Value.ind
  case undefined => cases h
  case null => exact .of_succ h fun fuel rest _ _ => rfl
  case bool b => exact .of_succ h fun fuel rest _ _ => by cases b <;> rfl
  case number n =>
    refine .of_succ h fun fuel rest _ he => ?_
    rcases h with _ | _ | hq
    rw [render, numberText, parseValue_number hq he]
  case string s =>
    refine .of_succ h fun fuel rest _ _ => ?_
    have : render (.string s) ++ rest = 34 :: (unitTexts s ++ js "\"" ++ rest) := by
      simp only [render, quote, List.append_assoc]
      rfl
    rw [this, parseValue, skip_cons (by decide)]
    simp only [↓reduceIte, parseChars_unitTexts, Option.map_some]
  case array elems ih =>
    refine .of_succ h fun fuel rest hf _ => ?_
    rcases h with _ | _ | _ | _ | hp
    have ht : render (.array elems) = js "[" ++ (join (elems.map render) ++ js "]") := by
      rw [render, renderElems_eq, List.append_assoc]
    have hb : (js "[").length = 1 ∧ (js "]").length = 1 := ⟨rfl, rfl⟩
    rw [ht] at hf ⊢
    simp only [List.length_append, hb] at hf
    rw [List.append_assoc, List.append_assoc]
    exact parseValue_array hp (fun v hv => ih v hv <| hp v hv) (by omega)
  case object fields ih =>
    refine .of_succ h fun fuel rest hf _ => ?_
    rcases h with _ | _ | _ | _ | _ | ⟨hn, hp⟩
    have ht : render (.object fields) = js "\x7b" ++ (join (fields.map renderField) ++ js "\x7d") := by
      rw [render, renderFields_eq, List.append_assoc]
    have hb : (js "\x7b").length = 1 ∧ (js "\x7d").length = 1 := ⟨rfl, rfl⟩
    rw [ht] at hf ⊢
    simp only [List.length_append, hb] at hf
    rw [List.append_assoc, List.append_assoc]
    exact parseValue_object hp (fun f hf => ih f hf <| hp f hf) hn (by omega)

theorem parse_render (h : Plain v) : parse (render v) = some v := by
  have := parsesBack h _ [] le_rfl (by rintro _ ⟨⟩)
  rw [List.append_nil] at this
  rw [parse, this]
  rfl

-- A file ends with a line break.
theorem parse_render_line (h : Plain v) : parse (render v ++ js "\n") = some v := by
  have := parsesBack h (2 * (render v ++ js "\n").length) (js "\n") (by simp) (by
    rintro _ ⟨⟩
    decide)
  rw [parse, this]
  rfl

-- Values with the same text are the same.
theorem render_inj (hv : Plain v) (hw : Plain w) (h : render v = render w) : v = w :=
  Option.some.inj <| (parse_render hv).symm.trans <| h ▸ parse_render hw

end

theorem printable_digitsText (h : ∀ d ∈ ds, d < 10) : Printable (digitsText ds) := by
  have : ∀ d < 10, isPrintable (digitUnit d) := by decide
  refine .ascii ?_
  rw [digitsText, List.all_map, List.all_eq_true]
  exact fun d hd => this d <| h d hd

theorem printable_exponentText : Printable (exponentText e) := by
  have hs : Printable (if 0 ≤ e then js "+" else js "-") := by
    split_ifs
    · exact .ascii <| by decide
    · exact .ascii <| by decide
  exact (Printable.ascii <| by decide).append hs |>.append <| printable_digitsText (digits_natText _).left

theorem printable_decimalText (h : ∀ d ∈ ds, d < 10) : Printable (decimalText ds n) := by
  have ht k : Printable (digitsText <| ds.take k) := printable_digitsText fun d hd => h d <| List.mem_of_mem_take hd
  have hd k : Printable (digitsText <| ds.drop k) := printable_digitsText fun d hd => h d <| List.mem_of_mem_drop hd
  have hz k : Printable (.replicate k 48) := by
    refine .ascii ?_
    rw [List.all_replicate]
    split_ifs <;> decide
  have hp : Printable (js ".") := .ascii <| by decide
  rw [decimalText]
  split_ifs
  · exact (printable_digitsText h).append <| hz _
  · exact (ht _).append hp |>.append <| hd _
  · exact (Printable.ascii <| by decide).append (hz _) |>.append <| printable_digitsText h
  · exact (printable_digitsText h).append printable_exponentText
  · exact (ht _).append hp |>.append (hd _) |>.append printable_exponentText

theorem printable_rationalText (h : Double.IsDouble q) : Printable (rationalText q) := by
  have hd (h₀ : q ≠ 0) : Printable (decimalText (Double.shortest |q|).fst (Double.shortest |q|).snd) := by
    have ha : Double.IsDouble |q| := by
      rcases abs_choice q with hq | hq <;> rw [hq]
      exacts [h, h.neg]
    exact printable_decimalText (Double.shortest_spec ha <| abs_pos.mpr h₀).lt
  rw [rationalText]
  split_ifs with h₀ hn
  case pos => exact .ascii <| by decide
  case pos => exact (Printable.ascii <| by decide).append <| hd h₀
  case neg => exact hd h₀

theorem printable_join (h : ∀ s ∈ l, Printable s) : Printable (join l) := by
  induction l
  case nil => exact .ascii rfl
  case cons s l ih =>
    have ⟨hs, h⟩ := List.forall_mem_cons.mp h
    rcases l with _ | ⟨t, l⟩
    case nil  => rwa [join_singleton]
    case cons =>
      rw [join_cons_cons]
      exact hs.append (.ascii <| by decide) |>.append <| ih h

-- The text of a value is a single line, and it can be encoded.
theorem printable_render (h : Plain v) : Printable (render v) := by
  induction v using Value.ind
  case undefined => cases h
  case null      => exact .ascii <| by decide
  case bool b    => cases b <;> exact .ascii <| by decide
  case number =>
    rcases h with _ | _ | hq
    exact printable_rationalText hq
  case string s => exact printable_quote s
  case array ih =>
    rcases h with _ | _ | _ | _ | h
    rw [render, renderElems_eq]
    refine (Printable.ascii <| by decide).append (printable_join fun s hs => ?_) |>.append <| .ascii <| by decide
    obtain ⟨v, hv, rfl⟩ := List.mem_map.mp hs
    exact ih v hv <| h v hv
  case object ih =>
    rcases h with _ | _ | _ | _ | _ | ⟨_, h⟩
    rw [render, renderFields_eq]
    refine (Printable.ascii <| by decide).append (printable_join fun s hs => ?_) |>.append <| .ascii <| by decide
    obtain ⟨f, hf, rfl⟩ := List.mem_map.mp hs
    exact (printable_quote _).append (.ascii <| by decide) |>.append <| ih f hf <| h f hf

end Json
