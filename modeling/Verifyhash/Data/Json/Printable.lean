import Verifyhash.Data.Json.Canonical

-- The texts of any values can be encoded.
namespace Json

open Value

theorem shortest_lt (q : ℚ) : ∀ d ∈ (Double.shortest q).fst, d < 10 := by
  rw [Double.shortest]
  generalize hf : List.findSome? _ _ = digits?
  cases digits?
  case none => simp
  case some ds =>
    obtain ⟨i, -, hi⟩ := List.exists_of_findSome?_eq_some hf
    obtain ⟨⟨s, x⟩, -, rfl⟩ := Option.map_eq_some_iff.mp hi
    simp only [Option.getD_some]
    split_ifs
    · exact fun d hd => Numeral.digits_lt (by norm_num) hd
    · exact fun d hd => Numeral.digits_lt (by norm_num) hd

theorem printable_numberText (n : Number) : Printable (numberText n) := by
  cases n
  case nan => exact .ascii <| by decide
  case infinity => exact .ascii rfl
  case negZero => exact .ascii <| by decide
  case finite q =>
    have hd : Printable (decimalText (Double.shortest |q|).fst (Double.shortest |q|).snd) :=
      printable_decimalText <| shortest_lt _
    rw [numberText, rationalText]
    split_ifs
    · exact .ascii <| by decide
    · exact (Printable.ascii <| by decide).append hd
    · exact hd

-- The text of any value is a single line, and it can be encoded.
theorem printable_stringify (h : stringify v = some t) : Printable t := by
  induction v using Value.ind generalizing t
  case undefined => simp [stringify] at h
  case null =>
    obtain rfl := Option.some_inj.mp h
    exact .ascii <| by decide
  case bool b =>
    obtain rfl := Option.some_inj.mp h
    cases b <;> exact .ascii <| by decide
  case number n =>
    obtain rfl := Option.some_inj.mp h
    exact printable_numberText n
  case string s =>
    obtain rfl := Option.some_inj.mp h
    exact printable_quote s
  case array elems ih =>
    obtain rfl := Option.some_inj.mp h
    rw [stringifyElems_eq]
    refine (Printable.ascii <| by decide).append (printable_join fun s hs => ?_) |>.append <| .ascii <| by decide
    obtain ⟨v, hv, rfl⟩ := List.mem_map.mp hs
    cases ht : stringify v
    case none => exact .ascii <| by decide
    case some t => exact ih v hv ht
  case object fields ih =>
    obtain rfl := Option.some_inj.mp h
    rw [stringifyFields_eq, joinFields]
    refine (Printable.ascii <| by decide).append (printable_join fun s hs => ?_) |>.append <| .ascii <| by decide
    obtain ⟨⟨k, part⟩, hm, rfl⟩ := List.mem_map.mp hs
    have hl := Fields.mem_arrange ownOrder_perm hm
    rw [Fields.lookup_map, Option.map_eq_some_iff] at hl
    obtain ⟨v, hv, ht⟩ := hl
    exact (printable_quote _).append (.ascii <| by decide) |>.append <| ih _ (Fields.mem_of_lookup hv) ht

end Json
