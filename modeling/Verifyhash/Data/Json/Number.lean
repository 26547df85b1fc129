import Verifyhash.Data.Value
import Verifyhash.Library.Double

-- The texts of numbers.
namespace Json

def digitUnit (d : ℕ) : UInt16 :=
  .ofNat (48 + d)

def digitsText (ds : List ℕ) : JsString :=
  ds.map digitUnit

def natText (n : ℕ) : JsString :=
  digitsText <| Numeral.digits 10 (Nat.log 10 n + 1) n

def exponentText (e : ℤ) : JsString :=
  js "e" ++ (if 0 ≤ e then js "+" else js "-") ++ natText e.natAbs

-- The text of `Number::toString` for the digits of a value and the position of its decimal point.
def decimalText (ds : List ℕ) (n : ℤ) : JsString :=
  if ds.length ≤ n ∧ n ≤ 21 then
    digitsText ds ++ .replicate (n - ds.length).toNat 48
  else if 0 < n ∧ n ≤ 21 then
    digitsText (ds.take n.toNat) ++ js "." ++ digitsText (ds.drop n.toNat)
  else if -6 < n ∧ n ≤ 0 then
    js "0." ++ .replicate (-n).toNat 48 ++ digitsText ds
  else if ds.length = 1 then
    digitsText ds ++ exponentText (n - 1)
  else
    digitsText (ds.take 1) ++ js "." ++ digitsText (ds.drop 1) ++ exponentText (n - 1)

-- `JSON.stringify(n)` for a finite number.
def rationalText (q : ℚ) : JsString :=
  if q = 0 then
    js "0"
  else
    let (ds, n) := Double.shortest |q|
    if q < 0 then js "-" ++ decimalText ds n else decimalText ds n

-- `JSON.stringify(n)`
def numberText : Number → JsString
  | .finite q                => rationalText q
  | .negZero                 => js "0"
  | .nan | .infinity _       => js "null"

def isDigit (u : UInt16) : Bool :=
  48 ≤ u ∧ u ≤ 57

-- The number which a string of digits spells.
def digitsValue (s : JsString) : ℕ :=
  Numeral.value 10 <| s.map fun u => u.toNat - 48

def parseFraction (s : JsString) : Option (JsString × JsString) :=
  if s.take 1 = js "." then
    let ds := (s.drop 1).takeWhile isDigit
    if ds = [] then none else some (ds, (s.drop 1).dropWhile isDigit)
  else
    some ([], s)

def parseExponent (s : JsString) : Option (ℤ × JsString) :=
  if s.take 1 = js "e" ∨ s.take 1 = js "E" then
    let neg := (s.drop 1).take 1 = js "-"
    let s := if neg ∨ (s.drop 1).take 1 = js "+" then s.drop 2 else s.drop 1
    let ds := s.takeWhile isDigit
    if ds = [] then
      none
    else
      some (if neg then -digitsValue ds else digitsValue ds, s.dropWhile isDigit)
  else
    some (0, s)

-- The number to which a value and its sign are rounded.
def ofRational (neg : Bool) (q : ℚ) : Number :=
  match Double.round q with
  | none   => .infinity neg
  | some q => if neg then if q = 0 then .negZero else .finite (-q) else .finite q

def parseUnsigned (neg : Bool) (s : JsString) : Option (Number × JsString) := do
  let int := s.takeWhile isDigit
  guard (int ≠ [] ∧ (int.take 1 = js "0" → int.length = 1))
  let (fraction, s) ← parseFraction <| s.dropWhile isDigit
  let (exponent, s) ← parseExponent s
  let value : ℚ := digitsValue (int ++ fraction) * 10 ^ (exponent - fraction.length)
  return (ofRational neg value, s)

-- A number at the start of a text, and the rest of the text.
def parseNumber (s : JsString) : Option (Number × JsString) :=
  if s.take 1 = js "-" then parseUnsigned true (s.drop 1) else parseUnsigned false s

-- What can follow a number in a text: nothing which would belong to the number.
def Ends (s : JsString) : Prop :=
  ∀ u ∈ s.head?, ¬ isDigit u ∧ u ≠ 46 ∧ u ≠ 101 ∧ u ≠ 69

theorem ofRational_of_some (h : Double.round q = some r) :
    ofRational neg q = if neg then if r = 0 then .negZero else .finite (-r) else .finite r := by
  delta ofRational
  rw [h]

theorem ofRational_of_none (h : Double.round q = none) : ofRational neg q = .infinity neg := by
  delta ofRational
  rw [h]

section

variable {ds : List ℕ} {s rest : JsString}

theorem digitUnit_spec (h : d < 10) : isDigit (digitUnit d) ∧ (digitUnit d).toNat - 48 = d := by
  have : ∀ d < 10, isDigit (digitUnit d) ∧ (digitUnit d).toNat - 48 = d := by decide
  exact this d h

theorem isDigit_digitsText (h : ∀ d ∈ ds, d < 10) : ∀ u ∈ digitsText ds, isDigit u := by
  intro u hu
  obtain ⟨d, hd, rfl⟩ := List.mem_map.mp hu
  exact digitUnit_spec (h d hd) |>.left

@[simp]
theorem length_digitsText : (digitsText ds).length = ds.length :=
  List.length_map ..

@[simp]
theorem digitsText_eq_nil : digitsText ds = [] ↔ ds = [] :=
  List.map_eq_nil_iff

@[simp]
theorem digitsText_append : digitsText (ds₁ ++ ds₂) = digitsText ds₁ ++ digitsText ds₂ :=
  List.map_append

theorem digitsValue_digitsText (h : ∀ d ∈ ds, d < 10) : digitsValue (digitsText ds) = Numeral.value 10 ds := by
  rw [digitsValue, digitsText, List.map_map]
  congr 1
  exact (List.map_congr_left fun d hd => digitUnit_spec (h d hd) |>.right).trans <| List.map_id ds

theorem span_digitsText (h : ∀ d ∈ ds, d < 10) (hr : ∀ u ∈ rest.head?, ¬ isDigit u) :
    (digitsText ds ++ rest).takeWhile isDigit = digitsText ds ∧
      (digitsText ds ++ rest).dropWhile isDigit = rest := by
  have hd := isDigit_digitsText h
  rw [List.takeWhile_append_of_pos hd, List.dropWhile_append_of_pos hd]
  cases rest
  case nil => simp
  case cons u rest =>
    have : isDigit u = false := by simpa using hr u rfl
    simp [this]

theorem digits_natText (n : ℕ) :
    (∀ d ∈ Numeral.digits 10 (Nat.log 10 n + 1) n, d < 10) ∧
      Numeral.digits 10 (Nat.log 10 n + 1) n ≠ [] ∧
      Numeral.value 10 (Numeral.digits 10 (Nat.log 10 n + 1) n) = n :=
  ⟨fun _ => Numeral.digits_lt (by omega), List.ne_nil_of_length_pos <| by simp,
    Numeral.value_digits <| Nat.lt_pow_succ_log_self (by omega) n⟩

theorem Ends.head (h : Ends rest) : ∀ u ∈ rest.head?, ¬ isDigit u :=
  fun u hu => h u hu |>.left

theorem Ends.take_ne (h : Ends rest) : rest.take 1 ≠ js "." ∧ rest.take 1 ≠ js "e" ∧ rest.take 1 ≠ js "E" := by
  cases rest
  case nil => decide
  case cons u rest =>
    have ⟨_, h₁, h₂, h₃⟩ := h u rfl
    have hj (v : UInt16) (hv : u ≠ v) : [u] ≠ [v] := by simpa using hv
    exact ⟨hj _ h₁, hj _ h₂, hj _ h₃⟩

theorem parseExponent_of_ends (h : Ends rest) : parseExponent rest = some (0, rest) := by
  have ⟨_, h₁, h₂⟩ := h.take_ne
  rw [parseExponent, if_neg (by simp [h₁, h₂])]

theorem parseExponent_exponentText (h : Ends rest) :
    parseExponent (exponentText e ++ rest) = some (e, rest) := by
  have ⟨hd, hn, hv⟩ := digits_natText e.natAbs
  have ⟨ht, hr⟩ := span_digitsText hd h.head
  have hj : js "e" = [101] ∧ js "E" = [69] ∧ js "+" = [43] ∧ js "-" = [45] := by decide
  have hv := hv ▸ digitsValue_digitsText hd
  rw [exponentText, natText, parseExponent, hj.left, hj.right.left, hj.right.right.left,
    hj.right.right.right]
  by_cases he : 0 ≤ e
  case pos => simp [he, ht, hr, hn, hv]
  case neg =>
    have : -|e| = e := by rw [abs_of_neg (by omega), neg_neg]
    simp [he, ht, hr, hn, hv, this]

theorem parseFraction_of_ne (h : s.take 1 ≠ js ".") : parseFraction s = some ([], s) := by
  rw [parseFraction, if_neg h]

theorem parseFraction_digitsText (hd : ∀ d ∈ ds, d < 10) (hn : ds ≠ []) (h : ∀ u ∈ s.head?, ¬ isDigit u) :
    parseFraction (js "." ++ digitsText ds ++ s) = some (digitsText ds, s) := by
  have ⟨ht, hr⟩ := span_digitsText hd h
  have hj : js "." = [46] := by decide
  rw [parseFraction, hj]
  simp [ht, hr, hn]

-- A number of which the parts after the integer are parsed.
theorem parseUnsigned_eq {is fs : List ℕ} (hi : ∀ d ∈ is, d < 10) (hn : is ≠ [])
    (hz : is.head? = some 0 → is.length = 1) (hf : ∀ d ∈ fs, d < 10) (hs : ∀ u ∈ s.head?, ¬ isDigit u)
    (hp : parseFraction s = some (digitsText fs, s')) (he : parseExponent s' = some (x, rest)) :
    parseUnsigned neg (digitsText is ++ s) =
      some (ofRational neg (Numeral.value 10 (is ++ fs) * 10 ^ (x - fs.length)), rest) := by
  have ⟨ht, hr⟩ := span_digitsText hi hs
  have hv : digitsValue (digitsText is ++ digitsText fs) = Numeral.value 10 (is ++ fs) := by
    rw [←digitsText_append, digitsValue_digitsText]
    exact fun d hd => (List.mem_append.mp hd).elim (hi d) (hf d)
  have h₀ : (digitsText is).take 1 = js "0" → is.length = 1 := by
    cases is
    case nil => simp at hn
    case cons d is =>
      intro h
      have hd := digitUnit_spec (hi d (by simp)) |>.right
      have : digitUnit d = 48 := List.head_eq_of_cons_eq h
      rw [this] at hd
      exact hz <| congrArg some hd.symm
  have hg : guard (digitsText is ≠ [] ∧ ((digitsText is).take 1 = js "0" → (digitsText is).length = 1)) =
      some () := if_pos ⟨by simpa using hn, by simpa using h₀⟩
  rw [parseUnsigned, ht, hg, hr, hp]
  simp [he, hv]

theorem not_isDigit_exponentText : ∀ u ∈ (exponentText e ++ rest).head?, ¬ isDigit u := by
  have : js "e" = [101] := by decide
  simp [exponentText, this]
  decide

theorem parseFraction_exponentText :
    parseFraction (exponentText e ++ rest) = some ([], exponentText e ++ rest) := by
  have : js "e" = [101] ∧ js "." = [46] := by decide
  exact parseFraction_of_ne <| by simp [exponentText, this]

theorem not_isDigit_point (s : JsString) : ∀ u ∈ (js "." ++ s).head?, ¬ isDigit u := by
  have : js "." = [46] := by decide
  simp [this]
  decide

-- The text of a decimal is parsed to its value.
theorem parseUnsigned_decimalText (hn : ds ≠ []) (hd : ∀ d ∈ ds, d < 10) (hh : ds.head? ≠ some 0)
    (h : Ends rest) : parseUnsigned neg (decimalText ds n ++ rest) =
      some (ofRational neg (Numeral.value 10 ds * 10 ^ (n - ds.length)), rest) := by
  have ht (k) : ∀ d ∈ ds.take k, d < 10 := fun d h => hd d <| List.mem_of_mem_take h
  have hr (k) : ∀ d ∈ ds.drop k, d < 10 := fun d h => hd d <| List.mem_of_mem_drop h
  have hz (k : ℕ) : List.replicate k 48 = digitsText (.replicate k 0) := by
    simp [digitsText, digitUnit]
  have hz' (k : ℕ) : ∀ d ∈ List.replicate k 0, d < 10 := by simp
  have hl := List.length_pos_of_ne_nil hn
  have he := parseExponent_of_ends h
  have hf := parseFraction_of_ne h.take_ne.left
  rw [decimalText]
  split_ifs with h₁ h₂ h₃ h₄
  -- The digits and zeros after them.
  case pos =>
    have hi : ∀ d ∈ ds ++ .replicate (n - ds.length).toNat 0, d < 10 := fun d h =>
      (List.mem_append.mp h).elim (hd d) (hz' _ d)
    have hh : (ds ++ .replicate (n - ds.length).toNat 0).head? ≠ some 0 := by
      rwa [List.head?_append_of_ne_nil _ hn]
    have hp : (10 : ℚ) ^ (n - ds.length) = 10 ^ (n - ds.length).toNat := by
      rw [←zpow_natCast, Int.toNat_of_nonneg (by omega)]
    rw [hz, ←digitsText_append, parseUnsigned_eq hi (by simp [hn]) (fun h => absurd h hh)
      (List.forall_mem_nil _) h.head hf he, List.append_nil, Numeral.value_append, hp]
    simp
  -- The point is between the digits.
  case pos =>
    have hi : (ds.take n.toNat).head? ≠ some 0 := by
      rwa [List.head?_take, if_neg (by omega)]
    have hx : 0 - ((ds.drop n.toNat).length : ℤ) = n - ds.length := by
      rw [List.length_drop]
      omega
    have hk : ds.drop n.toNat ≠ [] := List.ne_nil_of_length_pos <| by rw [List.length_drop]; omega
    have hp := parseFraction_digitsText (hr n.toNat) hk h.head
    rw [List.append_assoc] at hp
    have hk : ds.take n.toNat ≠ [] := List.ne_nil_of_length_pos <| by rw [List.length_take]; omega
    rw [List.append_assoc, List.append_assoc, parseUnsigned_eq (ht _) hk
      (fun h => absurd h hi) (hr n.toNat) (not_isDigit_point _) hp he, List.take_append_drop, hx]
  -- There are zeros between the point and the digits.
  case pos =>
    have h₀ : js "0." = digitsText [0] ++ js "." := by decide
    have hi : ∀ d ∈ .replicate (-n).toNat 0 ++ ds, d < 10 := fun d h =>
      (List.mem_append.mp h).elim (hz' _ d) (hd d)
    have hx : 0 - ((List.replicate (-n).toNat 0 ++ ds).length : ℤ) = n - ds.length := by
      rw [List.length_append, List.length_replicate]
      omega
    have hp := parseFraction_digitsText hi (by simp [hn]) h.head
    rw [List.append_assoc, digitsText_append, ←hz, List.append_assoc] at hp
    rw [h₀, List.append_assoc, List.append_assoc, List.append_assoc, parseUnsigned_eq (by simp) (by simp)
      (by simp) hi (not_isDigit_point _) (by rw [digitsText_append, ←hz]; exact hp) he, hx,
      Numeral.value_append, Numeral.value_append, Numeral.value_replicate_zero]
    simp [Numeral.value]
  -- There is an exponent after the only digit.
  case pos =>
    have hx : n - 1 - (([] : List ℕ).length : ℤ) = n - ds.length := by
      simp [h₄]
    rw [List.append_assoc, parseUnsigned_eq hd hn (fun _ => h₄) (List.forall_mem_nil _)
      not_isDigit_exponentText parseFraction_exponentText (parseExponent_exponentText h), List.append_nil, hx]
  -- There is a point after the first digit and an exponent after the last one.
  case neg =>
    have hi : (ds.take 1).head? ≠ some 0 := by
      rwa [List.head?_take, if_neg (by omega)]
    have hx : n - 1 - ((ds.drop 1).length : ℤ) = n - ds.length := by
      rw [List.length_drop]
      omega
    have hk : ds.drop 1 ≠ [] := List.ne_nil_of_length_pos <| by rw [List.length_drop]; omega
    have hp := parseFraction_digitsText (hr 1) hk
      (@not_isDigit_exponentText rest (n - 1))
    rw [List.append_assoc] at hp
    have hk : ds.take 1 ≠ [] := List.ne_nil_of_length_pos <| by rw [List.length_take]; omega
    rw [List.append_assoc, List.append_assoc, List.append_assoc, parseUnsigned_eq (ht _) hk
      (fun h => absurd h hi) (hr 1) (not_isDigit_point _) hp (parseExponent_exponentText h),
      List.take_append_drop, hx]

-- The text starts with a digit.
theorem head_decimalText (hn : ds ≠ []) (hd : ∀ d ∈ ds, d < 10) :
    ∃ u s, decimalText ds n = u :: s ∧ isDigit u := by
  obtain ⟨d, ds, rfl⟩ := List.exists_cons_of_ne_nil hn
  have hu := digitUnit_spec (hd d (by simp)) |>.left
  rw [decimalText]
  split_ifs with h₁ h₂ h₃ h₄
  · exact ⟨_, _, rfl, hu⟩
  · obtain ⟨k, hk⟩ : ∃ k, n.toNat = k + 1 := ⟨n.toNat - 1, by omega⟩
    rw [hk]
    exact ⟨_, _, rfl, hu⟩
  · exact ⟨48, _, rfl, by decide⟩
  · exact ⟨_, _, rfl, hu⟩
  · exact ⟨_, _, rfl, hu⟩

theorem parseUnsigned_shortest (ha : Double.IsDouble a) (hp : 0 < a) (h : Ends rest) :
    parseUnsigned neg (decimalText (Double.shortest a).fst (Double.shortest a).snd ++ rest) =
      some (if neg then .finite (-a) else .finite a, rest) := by
  have hs := Double.shortest_spec ha hp
  rw [parseUnsigned_decimalText hs.ne_nil hs.lt hs.head h, ofRational_of_some hs.round]
  simp [hp.ne']

-- A number is parsed back from its text, whatever follows it.
theorem parseNumber_rationalText (hq : Double.IsDouble q) (h : Ends rest) :
    parseNumber (rationalText q ++ rest) = some (.finite q, rest) := by
  have hj : js "-" = [45] := by decide
  have hs (s : JsString) : (js "-" ++ s).take 1 = js "-" ∧ (js "-" ++ s).drop 1 = s := by simp [hj]
  have ht : js "0" = digitsText [0] := by decide
  have hne (s : JsString) (hs : ∃ u s', s = u :: s' ∧ isDigit u) : (s ++ rest).take 1 ≠ js "-" := by
    obtain ⟨u, s', rfl, hu⟩ := hs
    rintro h
    obtain rfl : u = 45 := List.head_eq_of_cons_eq <| h.trans hj
    exact absurd hu (by decide)
  rcases lt_trichotomy q 0 with hn | rfl | hp
  case inl =>
    rw [rationalText, if_neg hn.ne]
    simp only [hn, if_true]
    rw [List.append_assoc, parseNumber, if_pos (hs _).left, (hs _).right,
      parseUnsigned_shortest (abs_of_neg hn ▸ hq.neg) (abs_pos.mpr hn.ne) h, abs_of_neg hn]
    simp
  case inr.inl =>
    rw [rationalText, if_pos rfl, parseNumber, if_neg <| hne _ ⟨48, [], by decide, by decide⟩, ht,
      parseUnsigned_eq (by simp) (by simp) (by simp) (List.forall_mem_nil _) h.head
        (parseFraction_of_ne h.take_ne.left) (parseExponent_of_ends h)]
    simp [Numeral.value, ofRational_of_some Double.round_zero]
  case inr.inr =>
    have hd := Double.shortest_spec hq hp
    rw [rationalText, if_neg hp.ne', abs_of_pos hp]
    simp only [hp.not_gt, if_false]
    rw [parseNumber, if_neg <| hne _ <| head_decimalText hd.ne_nil hd.lt, parseUnsigned_shortest hq hp h]
    simp

end

end Json
