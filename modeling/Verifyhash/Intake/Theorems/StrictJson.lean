import Verifyhash.Intake.StrictJson
import Verifyhash.Library.Fallible

namespace Intake

open Json Fallible

theorem map_eq_ok {x : Except ε α} {f : α → β} : x.map f = .ok b ↔ ∃ a, x = .ok a ∧ f a = b := by
  cases x <;> simp [Except.map]

section

variable {n : ℕ} {s rest : JsString}

theorem parseString_append (h : IsChars x t) : parseString n (x ++ 34 :: rest) = .ok (t, rest) := by
  induction h
  case nil => rw [List.nil_append, parseString.eq_def]; rfl
  case unescaped h₁ h₂ h₃ _ ih =>
    rw [List.cons_append, parseString.eq_def]
    simp only [if_neg h₁, if_neg h₂, if_neg h₃, ih]
    rfl
  case escape e u s t he _ ih =>
    have hne : e ≠ 117 := by
      rintro rfl
      have hu : unescape 117 = none := by decide
      rw [hu] at he
      cases he
    rw [List.cons_append, List.cons_append, parseString.eq_def]
    dsimp only
    rw [if_neg (by decide), if_pos rfl, if_neg hne, he, ih]
    rfl
  case hex hu _ ih =>
    simp only [List.cons_append]
    rw [parseString, if_neg (by decide), if_pos rfl, if_pos rfl, hu, ih]
    rfl

theorem isChars_of_parseString (h : parseString n s = .ok (t, rest)) : ∃ x, s = x ++ 34 :: rest ∧ IsChars x t := by
  fun_induction parseString n s generalizing t
  case case2 =>
    cases h
    exact ⟨[], rfl, .nil⟩
  case case4 hu _ ih =>
    obtain ⟨p, hp, he⟩ := map_eq_ok.mp h
    cases he
    obtain ⟨x, rfl, hx⟩ := ih hp
    exact ⟨_, rfl, .hex hu hx⟩
  case case7 hu _ ih =>
    obtain ⟨p, hp, he⟩ := map_eq_ok.mp h
    cases he
    obtain ⟨x, rfl, hx⟩ := ih hp
    exact ⟨_, rfl, .escape hu hx⟩
  case case10 h₁ h₂ h₃ ih =>
    obtain ⟨p, hp, he⟩ := map_eq_ok.mp h
    cases he
    obtain ⟨x, rfl, hx⟩ := ih hp
    exact ⟨_, rfl, .unescaped h₁ h₂ h₃ hx⟩
  all_goals cases h

-- The first digit of the rest would still belong to the digits before it.
theorem skipDigits_append (hd : IsDigits ds) (h : ∀ u ∈ rest.head?, ¬ isDigit u) :
    skipDigits n msg (ds ++ rest) = .ok rest := by
  have hh : digitAt (ds ++ rest) := by
    obtain ⟨d, ds, rfl⟩ := List.exists_cons_of_ne_nil hd.ne_nil
    simpa [digitAt] using hd.isDigit d List.mem_cons_self
  have hr := (span_digits hd.isDigit h).right
  rw [skipDigits, if_pos hh, hr]

theorem isDigits_of_skipDigits (h : skipDigits n msg s = .ok rest) : ∃ ds, s = ds ++ rest ∧ IsDigits ds := by
  rw [skipDigits] at h
  split_ifs at h with hd
  case pos =>
    cases h
    refine ⟨s.takeWhile isDigit, List.takeWhile_append_dropWhile.symm, ?_, fun u hu => List.mem_takeWhile_imp hu⟩
    cases s
    case nil => cases hd
    case cons u s =>
      have : isDigit u := by simpa [digitAt] using hd
      simp [this]
  case neg => cases h

theorem skipInt_append (hi : IsInt x) (h : ∀ u ∈ rest.head?, ¬ isDigit u) : skipInt n (x ++ rest) = .ok rest := by
  cases hi
  case zero => rfl
  case digits u s hu hd =>
    have hn : (u :: s ++ rest).head? ≠ some 48 := by simpa using hu
    rw [skipInt, if_neg hn, skipDigits_append hd h]

theorem isInt_of_skipInt (h : skipInt n s = .ok rest) : ∃ x, s = x ++ rest ∧ IsInt x := by
  rw [skipInt] at h
  split_ifs at h with hz
  case pos =>
    cases h
    cases s
    case nil => cases hz
    case cons u s =>
      obtain rfl : u = 48 := by simpa using hz
      exact ⟨js "0", rfl, .zero⟩
  case neg =>
    obtain ⟨ds, rfl, hd⟩ := isDigits_of_skipDigits h
    obtain ⟨d, ds, rfl⟩ := List.exists_cons_of_ne_nil hd.ne_nil
    exact ⟨_, rfl, .digits (by simpa using hz) hd⟩

theorem skipFraction_append (hf : IsFraction x) (he : IsExponent e) (hr : Ends rest) :
    skipFraction n (x ++ (e ++ rest)) = .ok (e ++ rest) := by
  cases hf
  case nil =>
    have hn : (e ++ rest).head? ≠ some 46 := by
      have := take_exponent_ne he hr
      intro h
      obtain ⟨s, hs⟩ := List.head?_eq_some_iff.mp h
      exact this <| by rw [hs]; rfl
    rw [List.nil_append, skipFraction, if_neg hn]
  case digits ds hd =>
    have hp : (js "." ++ ds ++ (e ++ rest)).head? = some 46 := rfl
    have hdr : (js "." ++ ds ++ (e ++ rest)).drop 1 = ds ++ (e ++ rest) := rfl
    rw [skipFraction, if_pos hp, hdr, skipDigits_append hd <| not_isDigit_exponent he hr]

theorem isFraction_of_skipFraction (h : skipFraction n s = .ok rest) : ∃ x, s = x ++ rest ∧ IsFraction x := by
  rw [skipFraction] at h
  split_ifs at h with hp
  case pos =>
    obtain ⟨ds, hs, hd⟩ := isDigits_of_skipDigits h
    cases s
    case nil => cases hp
    case cons u s =>
      obtain rfl : u = 46 := by simpa using hp
      obtain rfl : s = ds ++ rest := hs
      exact ⟨js "." ++ ds, rfl, .digits hd⟩
  case neg =>
    cases h
    exact ⟨[], rfl, .nil⟩

theorem skipSign_append (hs : sign ∈ [[], js "+", js "-"]) (hd : d ≠ 43 ∧ d ≠ 45) :
    skipSign (sign ++ d :: s) = d :: s := by
  fin_cases hs
  · have hn : ¬ ((d :: s).head? = some 43 ∨ (d :: s).head? = some 45) := by simpa using hd
    exact if_neg hn
  · exact if_pos <| .inl rfl
  · exact if_pos <| .inr rfl

theorem exists_sign (s : JsString) : ∃ sign ∈ [[], js "+", js "-"], s = sign ++ skipSign s := by
  rw [skipSign]
  split_ifs with h
  case neg => exact ⟨[], by simp, rfl⟩
  case pos =>
    cases s
    case nil => simp at h
    case cons u s =>
      simp only [List.head?_cons, Option.some.injEq] at h
      rcases h with rfl | rfl
      · exact ⟨js "+", by simp, rfl⟩
      · exact ⟨js "-", by simp, rfl⟩

theorem skipExponent_append (he : IsExponent x) (hr : Ends rest) : skipExponent n (x ++ rest) = .ok rest := by
  cases he
  case nil =>
    have hn : ¬ (rest.head? = some 101 ∨ rest.head? = some 69) := by
      rintro (h | h)
      · exact (hr 101 h).right.right.left rfl
      · exact (hr 69 h).right.right.right rfl
    rw [List.nil_append, skipExponent, if_neg hn]
  case digits e sign ds he hs hd =>
    obtain ⟨d, ds, rfl⟩ := List.exists_cons_of_ne_nil hd.ne_nil
    have hdd : d ≠ 43 ∧ d ≠ 45 := by
      have := hd.isDigit d List.mem_cons_self
      constructor <;> rintro rfl <;> exact absurd this (by decide)
    have hp : (e ++ (sign ++ (d :: ds ++ rest))).head? = some 101 ∨ (e ++ (sign ++ (d :: ds ++ rest))).head? = some 69 := by
      fin_cases he
      · exact .inl rfl
      · exact .inr rfl
    have hdr : (e ++ (sign ++ (d :: ds ++ rest))).drop 1 = sign ++ (d :: ds ++ rest) := by
      fin_cases he <;> rfl
    rw [List.append_assoc, List.append_assoc, skipExponent, if_pos hp, hdr, List.cons_append, skipSign_append hs hdd,
      ←List.cons_append, skipDigits_append hd hr.head]

theorem isExponent_of_skipExponent (h : skipExponent n s = .ok rest) : ∃ x, s = x ++ rest ∧ IsExponent x := by
  rw [skipExponent] at h
  split_ifs at h with hp
  case pos =>
    obtain ⟨ds, hs, hd⟩ := isDigits_of_skipDigits h
    obtain ⟨sign, hsign, hs'⟩ := exists_sign (s.drop 1)
    rw [hs] at hs'
    obtain ⟨e, he, hes⟩ : ∃ e ∈ [js "e", js "E"], s = e ++ s.drop 1 := by
      cases s
      case nil => simp at hp
      case cons u s =>
        simp only [List.head?_cons, Option.some.injEq] at hp
        rcases hp with rfl | rfl
        · exact ⟨js "e", by simp, rfl⟩
        · exact ⟨js "E", by simp, rfl⟩
    refine ⟨e ++ sign ++ ds, ?_, .digits he hsign hd⟩
    rw [hes, hs']
    simp only [List.append_assoc]
  case neg =>
    cases h
    exact ⟨[], rfl, .nil⟩

theorem take_append_sub (x rest : JsString) : (x ++ rest).take ((x ++ rest).length - rest.length) = x := by
  rw [List.length_append, Nat.add_sub_cancel, List.take_left]

theorem parseNumber_append (h : IsNumber x) (hr : Ends rest) :
    parseNumber n (x ++ rest) = .ok (toNumber x, rest) := by
  have hx := take_append_sub x rest
  obtain ⟨hm, hi, hf, he⟩ := h
  rename_i minus int fraction exponent
  have hs : (if (minus ++ int ++ fraction ++ exponent ++ rest).head? = some 45 then
      (minus ++ int ++ fraction ++ exponent ++ rest).drop 1 else minus ++ int ++ fraction ++ exponent ++ rest) =
      int ++ (fraction ++ (exponent ++ rest)) := by
    fin_cases hm
    · obtain ⟨u, s, rfl, hu⟩ := head_of_isInt hi
      have hn : u ≠ 45 := by
        rintro rfl
        exact absurd hu (by decide)
      simp [hn]
    · simp [js]
  rw [parseNumber, hs, skipInt_append hi <| not_isDigit_fraction hf he hr, ok_bind, skipFraction_append hf he hr,
    ok_bind, skipExponent_append he hr, ok_bind, hx]
  rfl

theorem isNumber_of_parseNumber (h : parseNumber n s = .ok (v, rest)) :
    ∃ x, s = x ++ rest ∧ IsNumber x ∧ v = toNumber x := by
  simp only [parseNumber, bind_eq_ok, pure_eq_ok, Prod.mk.injEq] at h
  obtain ⟨s₁, h₁, s₂, h₂, s₃, h₃, rfl, rfl⟩ := h
  obtain ⟨int, hs₁, hi⟩ := isInt_of_skipInt h₁
  obtain ⟨fraction, rfl, hf⟩ := isFraction_of_skipFraction h₂
  obtain ⟨exponent, rfl, he⟩ := isExponent_of_skipExponent h₃
  obtain ⟨minus, hm, hs⟩ : ∃ minus ∈ [[], js "-"], s = minus ++ if s.head? = some 45 then s.drop 1 else s := by
    split_ifs with h
    case neg => exact ⟨[], by simp, rfl⟩
    case pos =>
      cases s
      case nil => simp at h
      case cons u s =>
        obtain rfl : u = 45 := by simpa using h
        exact ⟨js "-", by simp, rfl⟩
  have hx : s = minus ++ int ++ fraction ++ exponent ++ s₃ := by
    rw [hs, hs₁]
    simp only [List.append_assoc]
  refine ⟨_, hx, .mk hm hi hf he, ?_⟩
  rw [hx, take_append_sub]

end

-- What the parser accepts is derived by the grammar, and it is unambiguous.
theorem parseValue_sound (n maxDepth fuel : ℕ) :
    (∀ depth s v rest, parseValue n maxDepth fuel depth s = .ok (v, rest) →
      ∃ s' t, Space s s' ∧ ValueAt s' t rest ∧ t.Unambiguous maxDepth depth ∧ t.denote = v) ∧
    (∀ depth s vs rest, parseElems n maxDepth fuel depth s = .ok (vs, rest) →
      ∃ ts, ElemsAt s ts rest ∧ (∀ t ∈ ts, t.Unambiguous maxDepth (depth + 1)) ∧ ts.map Tree.denote = vs) ∧
    (∀ depth obj s fs rest, (obj.map Prod.fst).Nodup → parseFields n maxDepth fuel depth obj s = .ok (fs, rest) →
      ∃ ts, FieldsAt s ts rest ∧ (∀ f ∈ ts, f.2.Unambiguous maxDepth (depth + 1)) ∧ (fs.map Prod.fst).Nodup ∧
        obj ++ ts.map Tree.denoteField = fs) := by
  induction fuel
  case zero =>
    refine ⟨fun depth s v rest h => ?_, fun depth s vs rest h => ?_, fun depth obj s fs rest _ h => ?_⟩
    · cases h
    · cases h
    · cases h
  case succ fuel ih =>
    obtain ⟨ihv, ihe, ihf⟩ := ih
    refine ⟨fun depth s v rest h => ?_, fun depth s vs rest h => ?_, fun depth obj s fs rest hn h => ?_⟩
    case refine_1 =>
      rw [parseValue] at h
      by_cases hd : depth > maxDepth
      case pos =>
        rw [if_pos hd] at h
        cases h
      case neg =>
        rw [if_neg hd] at h
        have hd := not_lt.mp hd
        have hs := space_skip s
        cases hk : skip s
        case nil =>
          rw [hk] at h
          cases h
        case cons u s₁ =>
          rw [hk] at h hs
          dsimp only at h
          split_ifs at h with ho ha hq hnum
          case pos =>
            obtain rfl := ho
            split at h
            case h_1 s₂ hb =>
              cases h
              exact ⟨_, _, hs, .emptyObject (expect_brace_iff.mp hb),
                Tree.unambiguous_object_iff.mpr ⟨hd, .nil, by simp⟩, Tree.denote_object .nil⟩
            case h_2 =>
              obtain ⟨p, hp, he⟩ := map_eq_ok.mp h
              cases he
              obtain ⟨ts, hts, hus, hns, hfs⟩ := ihf _ [] _ _ _ List.nodup_nil hp
              rw [List.nil_append] at hfs
              rw [←hfs, Tree.map_fst_denoteField] at hns
              exact ⟨_, _, hs, .object hts, Tree.unambiguous_object_iff.mpr ⟨hd, hns, hus⟩,
                (Tree.denote_object hns).trans <| congrArg _ hfs⟩
          case pos =>
            obtain rfl := ha
            split at h
            case h_1 s₂ hb =>
              cases h
              exact ⟨_, _, hs, .emptyArray (expect_bracket_iff.mp hb),
                Tree.unambiguous_array_iff.mpr ⟨hd, by simp⟩, Tree.denote_array⟩
            case h_2 =>
              obtain ⟨p, hp, he⟩ := map_eq_ok.mp h
              cases he
              obtain ⟨ts, hts, hus, hvs⟩ := ihe _ _ _ _ hp
              exact ⟨_, _, hs, .array hts, Tree.unambiguous_array_iff.mpr ⟨hd, hus⟩,
                Tree.denote_array.trans <| congrArg _ hvs⟩
          case pos =>
            obtain rfl := hq
            obtain ⟨p, hp, he⟩ := map_eq_ok.mp h
            cases he
            obtain ⟨chars, rfl, hc⟩ := isChars_of_parseString hp
            exact ⟨_, _, hs, .string hc, Tree.IsLeaf.string.unambiguous_iff.mpr hd, by rw [Tree.denote]⟩
          case pos =>
            obtain ⟨p, hp, he⟩ := map_eq_ok.mp h
            cases he
            obtain ⟨x, hx, hn, hv⟩ := isNumber_of_parseNumber hp
            rw [hx] at hs
            exact ⟨_, _, hs, .number hn, Tree.IsLeaf.number.unambiguous_iff.mpr hd, by rw [Tree.denote, hv]⟩
          case neg =>
            split at h
            case h_1 ht =>
              cases h
              rw [expect_eq_some_iff.mp ht] at hs
              exact ⟨_, _, hs, .true, Tree.IsLeaf.bool.unambiguous_iff.mpr hd, by rw [Tree.denote]⟩
            case h_2 hf =>
              cases h
              rw [expect_eq_some_iff.mp hf] at hs
              exact ⟨_, _, hs, .false, Tree.IsLeaf.bool.unambiguous_iff.mpr hd, by rw [Tree.denote]⟩
            case h_3 hl =>
              cases h
              rw [expect_eq_some_iff.mp hl] at hs
              exact ⟨_, _, hs, .null, Tree.IsLeaf.null.unambiguous_iff.mpr hd, by rw [Tree.denote]⟩
            case h_4 => cases h
    case refine_2 =>
      simp only [parseElems, bind_eq_ok, Prod.exists] at h
      obtain ⟨v, s₂, hp, h⟩ := h
      obtain ⟨s₁, t, h₁, hv, hu, rfl⟩ := ihv _ _ _ _ hp
      split at h
      case h_1 s₃ _ hc =>
        obtain ⟨p, hp, he⟩ := map_eq_ok.mp h
        cases he
        obtain ⟨ts, hts, hus, hvs⟩ := ihe _ _ _ _ hp
        exact ⟨t :: ts, .cons h₁ hv (expect_comma_iff.mp hc) hts, List.forall_mem_cons.mpr ⟨hu, hus⟩,
          congrArg _ hvs⟩
      case h_2 s₃ _ hb =>
        cases h
        exact ⟨[t], .last h₁ hv (expect_bracket_iff.mp hb), by simpa using hu, rfl⟩
      case h_3 => cases h
    case refine_3 =>
      rw [parseFields] at h
      have hs := space_skip s
      cases hk : skip s
      case nil =>
        rw [hk] at h
        cases h
      case cons u s₁ =>
        rw [hk] at h hs
        dsimp only at h
        split_ifs at h with hq
        case pos => cases h
        case neg =>
          obtain rfl : u = 34 := not_not.mp hq
          simp only [bind_eq_ok, Prod.exists] at h
          obtain ⟨key, s₂, hp, h⟩ := h
          obtain ⟨chars, rfl, hc⟩ := isChars_of_parseString hp
          split_ifs at h with hkey
          split at h
          case h_1 => cases h
          case h_2 s₃ hcolon =>
            simp only [bind_eq_ok, Prod.exists] at h
            obtain ⟨v, s₄, hp, h⟩ := h
            obtain ⟨s₅, t, h₁, hv, hu, rfl⟩ := ihv _ _ _ _ hp
            have hka : KeyAt s key s₃ := ⟨chars, s₂, hs, hc, expect_colon_iff.mp hcolon⟩
            have hn' : ((obj ++ [(key, t.denote)]).map Prod.fst).Nodup := by
              rw [List.map_append, List.nodup_append]
              refine ⟨hn, List.nodup_singleton _, fun a ha b hb => ?_⟩
              have hb : b = key := List.mem_singleton.mp hb
              exact fun h => hkey <| hb ▸ h ▸ ha
            split at h
            case h_1 s₆ _ hcomma =>
              obtain ⟨ts, hts, hus, hns, rfl⟩ := ihf _ _ _ _ _ hn' h
              exact ⟨(key, t) :: ts, .cons hka h₁ hv (expect_comma_iff.mp hcomma) hts,
                List.forall_mem_cons.mpr ⟨hu, hus⟩, hns, by simp [Tree.denoteField]⟩
            case h_2 s₆ _ hbrace =>
              cases h
              exact ⟨[(key, t)], .last hka h₁ hv (expect_brace_iff.mp hbrace), by simpa using hu, hn',
                by simp [Tree.denoteField]⟩
            case h_3 => cases h

section

variable {n maxDepth fuel depth : ℕ} {obj : List (JsString × Value)}

-- One turn of the loop over the fields, after the key.
theorem parseFields_of_keyAt (hk : KeyAt s key s₁) (hn : key ∉ obj.map Prod.fst) :
    parseFields n maxDepth (fuel + 1) depth obj s =
      (parseValue n maxDepth fuel (depth + 1) s₁ >>= fun p =>
        match expect (js ",") (skip p.2), expect (js "\x7d") (skip p.2) with
        | some s, _    => parseFields n maxDepth fuel depth (obj ++ [(key, p.1)]) s
        | none, some s => .ok (obj ++ [(key, p.1)], s)
        | none, none   => err n (js "expected ',' or '\x7d' in object") (skip p.2)) := by
  obtain ⟨chars, s', h₁, hc, h₂⟩ := hk
  rw [parseFields, h₁.skip_cons (by decide)]
  dsimp only
  rw [if_neg <| not_not.mpr rfl, parseString_append hc, ok_bind]
  dsimp only
  rewrite [if_neg hn, expect_colon_iff.mpr h₂]
  rfl

theorem not_mem_keys {fields : List (JsString × Tree)}
    (hn : ((obj ++ ((key, t) :: fields).map Tree.denoteField).map Prod.fst).Nodup) : key ∉ obj.map Prod.fst := by
  rw [List.map_append, List.nodup_append] at hn
  intro hk
  exact hn.right.right key hk key (by simp [Tree.denoteField]) rfl

end

-- An unambiguous value which the grammar derives is accepted, as the value which it denotes.
theorem parseValue_complete (n maxDepth fuel : ℕ) :
    (∀ depth s s' t rest, Space s s' → ValueAt s' t rest → Ends rest → t.Unambiguous maxDepth depth →
      2 * s.length ≤ fuel → parseValue n maxDepth fuel depth s = .ok (t.denote, rest)) ∧
    (∀ depth s ts rest, ElemsAt s ts rest → (∀ t ∈ ts, t.Unambiguous maxDepth (depth + 1)) →
      2 * s.length + 1 ≤ fuel → parseElems n maxDepth fuel depth s = .ok (ts.map Tree.denote, rest)) ∧
    (∀ depth obj s fs rest, FieldsAt s fs rest → (∀ f ∈ fs, f.2.Unambiguous maxDepth (depth + 1)) →
      ((obj ++ fs.map Tree.denoteField).map Prod.fst).Nodup → 2 * s.length + 1 ≤ fuel →
      parseFields n maxDepth fuel depth obj s = .ok (obj ++ fs.map Tree.denoteField, rest)) := by
  induction fuel
  case zero =>
    refine ⟨fun depth s s' t rest hs h _ _ hf => ?_, fun depth s ts rest _ _ hf => ?_,
      fun depth obj s fs rest _ _ _ hf => ?_⟩
    · have := h.length_lt.trans_le hs.length_le
      omega
    · omega
    · omega
  case succ fuel ih =>
    obtain ⟨ihv, ihe, ihf⟩ := ih
    refine ⟨fun depth s s' t rest hs h hr hu hf => ?_, fun depth s ts rest h hu hf => ?_,
      fun depth obj s fs rest h hu hn hf => ?_⟩
    case refine_1 =>
      have hd : ¬ depth > maxDepth := not_lt.mpr <| hu.shallow 0 _ .self
      rw [parseValue, if_neg hd]
      cases h with
      | null =>
        have hs : Space s (110 :: (js "ull" ++ rest)) := hs
        simp [hs.skip_cons, isSpace, expect, Tree.denote, js, isDigit]
      | true =>
        have hs : Space s (116 :: (js "rue" ++ rest)) := hs
        have he : expect (js "true") (116 :: (js "rue" ++ rest)) = some rest := expect_eq_some_iff.mpr rfl
        simp [hs.skip_cons, isSpace, he, Tree.denote, isDigit]
      | false =>
        have hs : Space s (102 :: (js "alse" ++ rest)) := hs
        simp [hs.skip_cons, isSpace, expect, Tree.denote, js, isDigit]
      | number hn =>
        have hp := parseNumber_append (n := n) hn hr
        obtain ⟨u, x, rfl, hd⟩ := head_of_isNumber hn
        have hne (c : UInt16) (hc : ¬ (isDigit c ∨ c = 45)) : u ≠ c := fun h => hc <| h ▸ hd
        have hsp : ¬ isSpace u := by
          simp [isSpace, hne 9 (by decide), hne 10 (by decide), hne 13 (by decide), hne 32 (by decide)]
        rw [List.cons_append] at hs hp
        rw [hs.skip_cons hsp]
        simp only [hne 34 (by decide), hne 91 (by decide), hne 123 (by decide), if_false, if_pos hd.symm, hp]
        rw [Tree.denote]
        rfl
      | string hc =>
        rw [hs.skip_cons (by decide)]
        dsimp only
        rw [if_neg (by decide), if_neg (by decide), if_pos rfl, parseString_append hc, Tree.denote]
        rfl
      | emptyArray h =>
        rw [hs.skip_cons (by decide)]
        dsimp only
        rw [if_neg (by decide), if_pos rfl, expect_bracket_iff.mpr h, Tree.denote_array]
        rfl
      | array h =>
        obtain ⟨u, s₁, h₁, hsp, hn⟩ := h.head
        have hl := hs.length_le
        rw [List.length_cons] at hl
        have hus := (Tree.unambiguous_array_iff.mp hu).right
        rw [hs.skip_cons (by decide)]
        dsimp only
        rw [if_neg (by decide), if_pos rfl, expect_skip_eq_none rfl h₁ hsp hn, ihe _ _ _ _ h hus (by omega),
          Tree.denote_array]
        rfl
      | emptyObject h =>
        rw [hs.skip_cons (by decide)]
        dsimp only
        rw [if_pos rfl, expect_brace_iff.mpr h, (@Tree.denote_object [] List.nodup_nil)]
        rfl
      | object h =>
        obtain ⟨s₁, h₁⟩ := h.head
        have hl := hs.length_le
        rw [List.length_cons] at hl
        obtain ⟨-, hns, hus⟩ := Tree.unambiguous_object_iff.mp hu
        have hn := hns
        rw [←Tree.map_fst_denoteField] at hn
        rw [hs.skip_cons (by decide)]
        dsimp only
        rw [if_pos rfl, expect_skip_eq_none rfl h₁ (by decide) (by decide), ihf _ [] _ _ _ h hus hn (by omega),
          Tree.denote_object hns]
        rfl
    case refine_2 =>
      rw [parseElems]
      cases h with
      | last h₁ h h₂ =>
        have hu := hu _ <| List.mem_singleton_self _
        rw [ihv _ _ _ _ _ h₁ h (h₂.ends <| by decide) hu (by omega), ok_bind]
        simp only [expect_comma_of_ne h₂ (by decide), expect_bracket_iff.mpr h₂]
        rfl
      | cons h₁ h h₂ hs =>
        have hl := (Nat.lt_of_succ_le h₂.length_le).trans <| h.length_lt.trans_le h₁.length_le
        obtain ⟨hu, hus⟩ := List.forall_mem_cons.mp hu
        rw [ihv _ _ _ _ _ h₁ h (h₂.ends <| by decide) hu (by omega), ok_bind]
        simp only [expect_comma_iff.mpr h₂, ihe _ _ _ _ hs hus (by omega)]
        rfl
    case refine_3 =>
      cases h with
      | last hk h₁ h h₂ =>
        have hl := hk.length_lt
        have hu := hu _ <| List.mem_singleton_self _
        have hkey := not_mem_keys hn
        rw [parseFields_of_keyAt hk hkey, ihv _ _ _ _ _ h₁ h (h₂.ends <| by decide) hu (by omega), ok_bind]
        simp only [expect_comma_of_ne h₂ (by decide), expect_brace_iff.mpr h₂]
        rfl
      | cons hk h₁ h h₂ hs =>
        have hl := (Nat.lt_of_succ_le h₂.length_le).trans <| h.length_lt.trans <| h₁.length_le.trans_lt hk.length_lt
        have hl' := hk.length_lt
        obtain ⟨hu, hus⟩ := List.forall_mem_cons.mp hu
        have hkey := not_mem_keys hn
        rw [parseFields_of_keyAt hk hkey, ihv _ _ _ _ _ h₁ h (h₂.ends <| by decide) hu (by omega), ok_bind]
        simp only [expect_comma_iff.mpr h₂]
        rw [List.map_cons, List.append_cons obj (Tree.denoteField _)] at hn ⊢
        exact ihf _ _ _ _ _ hs hus hn (by omega)

-- The parser accepts exactly the unambiguous texts of the grammar, and it reads them as `JSON.parse` does.
theorem strictJsonParse_iff (text : JsString) (maxDepth : ℕ) :
    ((∃ v, strictJsonParse text maxDepth = .ok v) ↔ ∃ t, IsText text t ∧ t.Unambiguous maxDepth 0) ∧
    ∀ v, strictJsonParse text maxDepth = .ok v → parse text = some v ∧ ∃ t, IsText text t ∧ t.denote = v := by
  have hs {v} (h : strictJsonParse text maxDepth = .ok v) :
      ∃ t, IsText text t ∧ t.Unambiguous maxDepth 0 ∧ t.denote = v := by
    simp only [strictJsonParse, bind_eq_ok, Prod.exists] at h
    obtain ⟨v, s, hp, h⟩ := h
    split_ifs at h with hr
    case pos => cases h
    case neg =>
      cases h
      obtain ⟨s', t, h₁, ht, hu, rfl⟩ := (parseValue_sound ..).left _ _ _ _ hp
      exact ⟨t, ⟨s', s, (space_skip text).trans h₁, ht, skip_eq_nil_iff.mp <| not_not.mp hr⟩, hu, rfl⟩
  refine ⟨⟨fun ⟨v, h⟩ => ?_, fun ⟨t, ht, hu⟩ => ?_⟩, fun v h => ?_⟩
  · obtain ⟨t, ht, hu, -⟩ := hs h
    exact ⟨t, ht, hu⟩
  · obtain ⟨s₁, s₂, h₁, h, h₂⟩ := ht
    have hsk : Space (skip text) s₁ := by
      obtain ⟨u, s', rfl, hu, -, -⟩ := h.head
      rw [h₁.skip_cons hu]
      exact .refl
    have hl : 2 * (skip text).length ≤ 2 * text.length + 1 := by
      have := (space_skip text).length_le
      omega
    have hp := (parseValue_complete text.length maxDepth (2 * text.length + 1)).left 0 (skip text) s₁ t s₂ hsk h
      h₂.ends_nil hu hl
    refine ⟨t.denote, ?_⟩
    rw [strictJsonParse, hp, ok_bind]
    dsimp only
    rw [if_neg <| not_not.mpr <| skip_eq_nil_iff.mpr h₂]
    rfl
  · obtain ⟨t, ht, -, rfl⟩ := hs h
    exact ⟨parse_of_isText ht, t, ht, rfl⟩

end Intake
