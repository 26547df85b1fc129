import Verifyhash.Intake.Signature

namespace Intake

open Json Unicode
open Words hiding isSpace

-- The fields of a header: the trimmed texts around the first equals sign of each part which has one.
def headerFields (header : JsString) : List (JsString × JsString) :=
  ((header.splitOn 44).filter fun part => 61 ∈ part).map fun part =>
    (trim <| part.takeWhile (· ≠ 61), trim (part.dropWhile (· ≠ 61)).tail)

section

variable (hmac : Bytes → Bytes → Bytes32) (rawBody : RawBody) (sigHeader secret : JsString)

-- A header which proves that a body was signed at a time `t`.
structure Authentic (t : JsString) : Prop where
  single  : (headerFields sigHeader).filter (·.fst = js "t") = [(js "t", t)]
  ne_nil  : t ≠ []
  decimal : ∀ u ∈ t, isDigit u
  safe    : digitsValue t ≤ 2 ^ 53 - 1
  signed  : ∃ v, (js "v1", v) ∈ headerFields sigHeader ∧ v ≠ [] ∧ v = digestHex hmac secret (signedPayload t rawBody)

-- Exactly the authentic deliveries within the tolerance are accepted, and only those outside of it are
-- reported as such.
def AuthenticatesExactly (opts : SignatureOpts) (nowSec toleranceSec : ℤ) : Prop :=
  ∃ r, verifyProviderSignature hmac rawBody (some sigHeader) secret opts = .ok r ∧
    (r.ok ↔ ∃ t, Authentic hmac rawBody sigHeader secret t ∧ |nowSec - digitsValue t| ≤ toleranceSec) ∧
    (r.reason = .timestampOutOfTolerance → ∃ t, Authentic hmac rawBody sigHeader secret t)

end

-- A difference above the tolerance is lost when it is rounded to a double.
def Absorbed (d tolerance : ℤ) : Prop :=
  tolerance < |d| ∧ ∃ r, Double.round (|d| : ℤ) = some r ∧ r ≤ tolerance

section

variable {header part t v : JsString} {h : SignatureHeader}

-- The step for one field of the header.
def addField (h : SignatureHeader) (f : JsString × JsString) : SignatureHeader :=
  if f.fst = js "t" then
    match h.t with
    | none   => { h with t := f.snd }
    | some _ => { h with dupT := true }
  else if f.fst = js "v1" ∧ f.snd ≠ [] then
    { h with v1s := h.v1s ++ [f.snd] }
  else
    h

theorem parseSignaturePart_eq : parseSignaturePart h part =
    if 61 ∈ part then
      addField h (trim <| part.takeWhile (· ≠ 61), trim (part.dropWhile (· ≠ 61)).tail)
    else
      h := by
  rw [parseSignaturePart]
  cases hi : part.idxOf? 61
  case none =>
    rw [List.idxOf?_eq_none_iff] at hi
    rw [if_neg hi]
  case some n =>
    have hm : 61 ∈ part := by
      by_contra hm
      rw [List.idxOf?_eq_none_iff.mpr hm] at hi
      cases hi
    have hn : part.takeWhile (· ≠ 61) = part.take n ∧ (part.dropWhile (· ≠ 61)).tail = part.drop (n + 1) := by
      clear hm
      induction part generalizing n
      case nil => simp at hi
      case cons u s ih =>
        by_cases hu : u = 61
        case pos =>
          obtain rfl : 0 = n := by simpa [List.idxOf?_cons, hu] using hi
          simp [hu]
        case neg =>
          obtain ⟨m, hm, rfl⟩ : ∃ m, s.idxOf? 61 = some m ∧ m + 1 = n := by
            simpa [List.idxOf?_cons, hu] using hi
          simpa [hu] using ih m hm
    rw [if_pos hm, hn.left, hn.right]
    simp only [addField, List.length_pos_iff]
    split_ifs <;> grind

theorem parseSignatureHeader_eq : parseSignatureHeader header = (headerFields header).foldl addField { } := by
  rw [parseSignatureHeader, headerFields]
  generalize header.splitOn 44 = parts
  generalize ({ } : SignatureHeader) = h
  induction parts generalizing h
  case nil => rfl
  case cons part parts ih =>
    rw [List.foldl_cons, parseSignaturePart_eq, List.filter_cons]
    split_ifs with hm <;> simp_all

theorem foldl_addField_t {fs : List (JsString × JsString)} :
    (fs.foldl addField h).dupT = false ∧ (fs.foldl addField h).t = some t ↔
      h.dupT = false ∧ h.t.toList ++ (fs.filter (·.fst = js "t")).map Prod.snd = [t] := by
  induction fs generalizing h
  case nil =>
    cases ht : h.t <;> simp [ht]
  case cons f fs ih =>
    rw [List.foldl_cons, ih, addField, List.filter_cons]
    by_cases hf : f.fst = js "t"
    case pos => cases h.t <;> simp [hf]
    case neg => split_ifs <;> simp_all

theorem mem_foldl_addField_v1s {fs : List (JsString × JsString)} :
    v ∈ (fs.foldl addField h).v1s ↔ v ∈ h.v1s ∨ (js "v1", v) ∈ fs ∧ v ≠ [] := by
  have hne : js "v1" ≠ js "t" := by decide
  induction fs generalizing h
  case nil => simp
  case cons f fs ih =>
    obtain ⟨k, w⟩ := f
    simp only [List.foldl_cons, ih, addField]
    by_cases hk : k = js "v1" ∧ w ≠ []
    case pos =>
      obtain ⟨rfl, hw⟩ := hk
      simp [hne, hw]
      grind
    case neg =>
      have : (js "v1", v) = (k, w) → ¬ v ≠ [] := by grind
      cases ht : h.t <;> split_ifs <;> simp <;> grind

-- What a header is parsed to, if it has a single time.
theorem parseSignatureHeader_t :
    (parseSignatureHeader header).dupT = false ∧ (parseSignatureHeader header).t = some t ↔
      (headerFields header).filter (·.fst = js "t") = [(js "t", t)] := by
  rw [parseSignatureHeader_eq, foldl_addField_t]
  have hk : ∀ f ∈ (headerFields header).filter (·.fst = js "t"), f.fst = js "t" := by
    intro f hf
    simpa using List.of_mem_filter hf
  generalize (headerFields header).filter (·.fst = js "t") = ts at hk
  rcases ts with _ | ⟨⟨k, w⟩, _ | ⟨f, ts⟩⟩ <;> simp_all

theorem mem_v1s : v ∈ (parseSignatureHeader header).v1s ↔ (js "v1", v) ∈ headerFields header ∧ v ≠ [] := by
  rw [parseSignatureHeader_eq, mem_foldl_addField_v1s]
  simp

theorem mem_of_mem_splitOn {s : JsString} (hp : part ∈ s.splitOn c) (hu : u ∈ part) : u ∈ s := by
  induction s generalizing part
  case nil => simp_all
  case cons w s ih =>
    rw [List.splitOn_cons_eq_if_modifyHead] at hp
    split_ifs at hp
    case pos =>
      rcases List.mem_cons.mp hp with rfl | hp
      · simp at hu
      · exact List.mem_cons_of_mem _ <| ih hp hu
    case neg =>
      obtain ⟨p, ps, hs⟩ := List.exists_cons_of_ne_nil <| List.splitOn_ne_nil c s
      rw [hs] at hp ih
      rcases List.mem_cons.mp hp with rfl | hp
      · rcases List.mem_cons.mp hu with rfl | hu
        · simp
        · exact List.mem_cons_of_mem _ <| ih (by simp) hu
      · exact List.mem_cons_of_mem _ <| ih (List.mem_cons_of_mem _ hp) hu

-- A header without a visible character has no fields.
theorem headerFields_of_blank (hb : trim header = []) : headerFields header = [] := by
  have hs : ∀ u ∈ header, Words.isSpace u := by
    rw [trim, List.rdropWhile_eq_nil_iff] at hb
    intro u hu
    rw [←List.takeWhile_append_dropWhile (p := Words.isSpace) (l := header), List.mem_append] at hu
    exact hu.elim List.mem_takeWhile_imp (hb u)
  have : 61 ∉ header := fun hm => absurd (hs 61 hm) (by decide)
  rw [headerFields, List.map_eq_nil_iff, List.filter_eq_nil_iff]
  intro part hp
  simp only [decide_eq_true_eq]
  rintro hm
  exact this <| mem_of_mem_splitOn hp hm

end

section

-- A text without replacement characters is decoded without loss.
theorem utf16_decode {s : JsString} (h : ∀ c ∈ decode s, c ≠ .ofNat 0xFFFD) : utf16 (decode s) = s := by
  fun_induction decode s
  case case1 u v s hs ih =>
    rw [utf16_cons, utf16Char_ofPair hs.left hs.right, ih fun c hc => h c <| List.mem_cons_of_mem _ hc]
    rfl
  case case2 u v s hs ih =>
    have hu : ¬ (isHigh u ∨ isLow u) := fun hu => h (ofUnit u) (by simp) <| if_pos hu
    rw [utf16_cons, utf16Char_ofUnit (fun h => hu <| .inl h) (fun h => hu <| .inr h),
      ih fun c hc => h c <| List.mem_cons_of_mem _ hc]
    rfl
  case case3 u =>
    have hu : ¬ (isHigh u ∨ isLow u) := fun hu => h (ofUnit u) (by simp) <| if_pos hu
    rw [utf16_cons, utf16Char_ofUnit (fun h => hu <| .inl h) (fun h => hu <| .inr h)]
    rfl
  case case4 => rfl

theorem ofUnit_ascii : ∀ d < 16, ¬ isHigh (Hex.lowerDigit d) ∧ ¬ isLow (Hex.lowerDigit d) ∧
    ofUnit (Hex.lowerDigit d) ≠ .ofNat 0xFFFD := by
  decide

variable {hmac : Bytes → Bytes → Bytes32}

-- The signatures are compared as strings: no other string has the bytes of hexadecimal digits.
theorem timingSafeHexEqual_digestHex :
    timingSafeHexEqual (digestHex hmac secret payload) v ↔ v = digestHex hmac secret payload := by
  simp only [timingSafeHexEqual, decide_eq_true_eq]
  constructor
  case mpr =>
    intro h
    rw [h]
    exact ⟨rfl, rfl⟩
  case mp =>
    rintro ⟨-, h⟩
    have h := utf8_inj h
    rw [digestHex, Hex.drop_hexlify] at h ⊢
    generalize hmac (bufferFrom secret) payload = w at h ⊢
    have hd : ∀ u ∈ (Numeral.digits 16 64 w.toNat).map Hex.lowerDigit, ¬ isHigh u ∧ ¬ isLow u ∧
        ofUnit u ≠ .ofNat 0xFFFD := by
      intro u hu
      obtain ⟨d, hd, rfl⟩ := List.mem_map.mp hu
      exact ofUnit_ascii d <| Numeral.digits_lt (by omega) hd
    generalize (Numeral.digits 16 64 w.toNat).map Hex.lowerDigit = s at h hd ⊢
    have hs : utf16 (s.map ofUnit) = s := by
      clear h
      induction s
      case nil => rfl
      case cons u s ih =>
        have ⟨⟨hh, hl, _⟩, hd⟩ := List.forall_mem_cons.mp hd
        rw [List.map_cons, utf16_cons, utf16Char_ofUnit hh hl, ih hd]
        rfl
    have hc : decode s = s.map ofUnit := by
      rw [←hs, decode_utf16, hs]
    have hv : ∀ c ∈ decode v, c ≠ .ofNat 0xFFFD := by
      intro c hv
      rw [←h, hc] at hv
      obtain ⟨u, hu, rfl⟩ := List.mem_map.mp hv
      exact hd u hu |>.right.right
    rw [←utf16_decode hv, ←h, hc, hs]

-- The number of a string of digits is a safe integer only if its exact value is.
theorem toSafeInteger?_ofDecimal {i : ℤ} :
    toSafeInteger? (ofDecimal t) = some i ↔ digitsValue t ≤ 2 ^ 53 - 1 ∧ i = digitsValue t := by
  rw [toSafeInteger?, Option.filter_eq_some_iff, ofDecimal, decide_eq_true_eq]
  by_cases hs : digitsValue t ≤ 2 ^ 53 - 1
  case pos =>
    have hi : (Number.finite (digitsValue t)).toInt? = some (digitsValue t : ℤ) := Number.toInt?_ofNat
    rw [ofRational_of_some <| Double.round_eq <| Double.isDouble_natCast <| by omega]
    simp only [Bool.false_eq_true, if_false, hi, Option.some.injEq]
    omega
  case neg =>
    have hl : ((2 ^ 53 : ℕ) : ℚ) ≤ digitsValue t := by
      exact_mod_cast (by omega : 2 ^ 53 ≤ digitsValue t)
    refine iff_of_false ?_ fun h => hs h.left
    rintro ⟨hi, hn⟩
    cases hr : Double.round (digitsValue t)
    case none =>
      rw [ofRational_of_none hr] at hi
      cases hi
    case some r =>
      rw [ofRational_of_some hr] at hi
      have hr := Double.le_round (Double.isDouble_natCast_le <| le_refl _) (by norm_num) hl hr
      simp only [Number.toInt?, Bool.false_eq_true, if_false, Option.ite_none_right_eq_some,
        Option.some.injEq] at hi
      obtain ⟨hd, rfl⟩ := hi
      have hq : r = r.num := (Rat.den_eq_one_iff r).mp hd |>.symm
      have : ((2 ^ 53 : ℕ) : ℤ) ≤ r.num := by
        rw [hq] at hr
        exact_mod_cast hr
      omega

variable {now tolerance : ℤ}

theorem outOfTolerance_iff {a b : ℤ} : outOfTolerance a b tolerance = false ↔
    ∃ r, Double.round (|a - b| : ℤ) = some r ∧ r ≤ tolerance := by
  have hm := Double.map_abs_round (a - b : ℤ)
  rw [←Int.cast_abs] at hm
  delta outOfTolerance
  cases hr : Double.round (|a - b| : ℤ) <;> cases hd : Double.round (a - b : ℤ) <;> rw [hr, hd] at hm
  case none.none => simp
  case none.some => cases hm
  case some.none => cases hm
  case some.some r d =>
    have hz := Double.round_nonneg (by simp) hr
    have : |d| = r := by
      rw [Option.map_some, Option.map_some, abs_of_nonneg hz] at hm
      exact Option.some.inj hm
    simp [this]

-- The tolerance is exact unless the difference is lost.
theorem outOfTolerance_eq_false_iff {a b : ℤ} (hd : Double.IsDouble tolerance) :
    outOfTolerance a b tolerance = false ↔ |a - b| ≤ tolerance ∨ Absorbed (a - b) tolerance := by
  rw [outOfTolerance_iff, Absorbed]
  constructor
  case mp =>
    intro h
    by_cases hl : |a - b| ≤ tolerance
    case pos => exact .inl hl
    case neg => exact .inr ⟨by omega, h⟩
  case mpr =>
    rintro (h | ⟨_, h⟩)
    case inl => exact Double.round_le hd (by simp) <| by exact_mod_cast h
    case inr => exact h

-- No difference is lost if the tolerance is a safe integer.
theorem not_absorbed {d : ℤ} (h₀ : 0 ≤ tolerance) (h : tolerance ≤ 2 ^ 53 - 1) : ¬ Absorbed d tolerance := by
  rintro ⟨hd, r, hr, hle⟩
  lift tolerance to ℕ using h₀
  have ht : Double.IsDouble ((tolerance + 1 : ℕ) : ℚ) := Double.isDouble_natCast_le <| by omega
  have hl : ((tolerance + 1 : ℕ) : ℚ) ≤ (|d| : ℤ) := by
    exact_mod_cast (by omega : (tolerance + 1 : ℤ) ≤ |d|)
  have := Double.le_round ht (by positivity) hl hr
  push_cast at this hle
  linarith

variable {rawBody : RawBody} {sigHeader secret : JsString}

-- What the checks before the replay window require.
theorem authentic_iff :
    Authentic hmac rawBody sigHeader secret t ↔
      (parseSignatureHeader sigHeader).t = some t ∧ (parseSignatureHeader sigHeader).dupT = false ∧
        isDecimal t ∧ toSafeInteger? (ofDecimal t) = some (digitsValue t : ℤ) ∧
          (parseSignatureHeader sigHeader).v1s.any
            (timingSafeHexEqual <| digestHex hmac secret <| signedPayload t rawBody) := by
  rw [List.any_eq_true]
  simp only [timingSafeHexEqual_digestHex, mem_v1s, toSafeInteger?_ofDecimal, isDecimal, decide_eq_true_eq,
    List.all_eq_true]
  constructor
  case mp =>
    intro h
    have ⟨hd, ht⟩ := parseSignatureHeader_t.mpr h.single
    obtain ⟨v, hm, hn, hv⟩ := h.signed
    exact ⟨ht, hd, ⟨h.ne_nil, h.decimal⟩, ⟨h.safe, trivial⟩, v, ⟨hm, hn⟩, hv⟩
  case mpr =>
    rintro ⟨ht, hd, ⟨hn, ha⟩, ⟨hs, -⟩, v, ⟨hm, hv⟩, he⟩
    exact ⟨parseSignatureHeader_t.mp ⟨hd, ht⟩, hn, ha, hs, v, hm, hv, he⟩

-- The checks of a delivery, as they decide between the reasons.
theorem checkSignature_cases :
    (¬ ∃ t, Authentic hmac rawBody sigHeader secret t) ∧
        (∃ reason, reason ≠ .timestampOutOfTolerance ∧
          checkSignature hmac rawBody (some sigHeader) secret now tolerance = { ok := false, reason := reason }) ∨
      ∃ t, Authentic hmac rawBody sigHeader secret t ∧
        checkSignature hmac rawBody (some sigHeader) secret now tolerance =
          if outOfTolerance now (digitsValue t) tolerance then
            { ok := false, reason := .timestampOutOfTolerance }
          else
            { ok := true, reason := .ok, timestamp := ofDecimal t } := by
  simp only [authentic_iff]
  rw [checkSignature]
  cases hb : Option.filter (fun s => decide (trim s ≠ [])) (some sigHeader)
  case none =>
    have hb : trim sigHeader = [] := by simpa [Option.filter] using hb
    have ht : (parseSignatureHeader sigHeader).t = none := by
      rw [parseSignatureHeader_eq, headerFields_of_blank hb]
      rfl
    exact .inl ⟨by simp [ht], _, by decide, rfl⟩
  case some header =>
    obtain rfl : sigHeader = header := by
      rw [Option.filter_eq_some_iff] at hb
      exact Option.some.inj hb.left
    simp only
    cases ht : Option.filter (fun t => decide ((parseSignatureHeader sigHeader).dupT = false ∧ isDecimal t ∧
      (parseSignatureHeader sigHeader).v1s.length ≠ 0)) (parseSignatureHeader sigHeader).t
    case none =>
      refine .inl ⟨?_, _, by decide, rfl⟩
      rintro ⟨t, h, hd, hi, -, hv⟩
      rw [Option.filter_eq_none_iff] at ht
      have hl : (parseSignatureHeader sigHeader).v1s.length ≠ 0 := by
        intro hl
        rw [List.length_eq_zero_iff.mp hl] at hv
        cases hv
      exact ht t h <| decide_eq_true ⟨hd, hi, hl⟩
    case some t =>
      rw [Option.filter_eq_some_iff, decide_eq_true_eq] at ht
      obtain ⟨ht, hd, hi, -⟩ := ht
      have hu {t'} (h : (parseSignatureHeader sigHeader).t = some t') : t' = t :=
        Option.some.inj <| h.symm.trans ht
      simp only
      cases hs : toSafeInteger? (ofDecimal t)
      case none =>
        refine .inl ⟨?_, _, by decide, rfl⟩
        rintro ⟨t', h, -, -, hn, -⟩
        rw [hu h, hs] at hn
        cases hn
      case some i =>
        obtain rfl := toSafeInteger?_ofDecimal.mp hs |>.right
        by_cases hv : (parseSignatureHeader sigHeader).v1s.any
          (timingSafeHexEqual <| digestHex hmac secret <| signedPayload t rawBody)
        case pos =>
          refine .inr ⟨t, ⟨ht, hd, hi, hs, hv⟩, ?_⟩
          simp only [hv, not_true_eq_false, if_false]
        case neg =>
          refine .inl ⟨?_, .signatureMismatch, by decide, by simp [hv]⟩
          rintro ⟨t', h, -, -, -, hv'⟩
          exact hv <| hu h ▸ hv'

theorem Authentic.unique (h₁ : Authentic hmac rawBody sigHeader secret t₁)
    (h₂ : Authentic hmac rawBody sigHeader secret t₂) : t₁ = t₂ := by
  have := h₁.single.symm.trans h₂.single
  simpa using this

theorem verifyProviderSignature_eq {opts : SignatureOpts} (hs : secret ≠ []) (hn : opts.nowSec.toInt? = some now)
    (ht : (opts.toleranceSec.getD defaultToleranceSec).toInt? = some tolerance) (hp : 0 ≤ tolerance) :
    verifyProviderSignature hmac rawBody (some sigHeader) secret opts =
      .ok (checkSignature hmac rawBody (some sigHeader) secret now tolerance) := by
  have hl : ¬ secret.length = 0 := fun h => hs <| List.length_eq_zero_iff.mp h
  have hf : (some tolerance).filter (0 ≤ ·) = some tolerance := by simpa [Option.filter] using hp
  rw [verifyProviderSignature, signatureConfig, if_neg hl, hn, ht]
  simp only [hf]
  rfl

end

section

-- A signature scheme whose signatures are all zero.
def zeroHmac (_ _ : Bytes) : Bytes32 :=
  0

def zeroHeader (t : String) : JsString :=
  js "t=" ++ js t ++ js ",v1=" ++ .replicate 64 48

theorem authentic_zeroHeader : Authentic zeroHmac (.text (js "\x7b\x7d")) (zeroHeader "1") (js "key") (js "1") where
  single  := by decide +kernel
  ne_nil  := by decide
  decimal := List.all_eq_true.mp (by decide)
  safe    := by decide
  signed  := ⟨.replicate 64 48, by decide +kernel, by decide, by decide⟩

-- The difference of two integers which is rounded from `2 ^ 53 + 1` to `2 ^ 53`.
theorem absorbed_two_pow : Absorbed (2 ^ 53 + 2 - digitsValue (js "1")) (2 ^ 53) := by
  have hv : (digitsValue (js "1") : ℤ) = 1 := by decide
  have ha : |(2 : ℚ) ^ 53 + 1| = ((2 ^ 53 + 1 : ℕ) : ℚ) := by
    rw [abs_of_pos (by positivity)]
    norm_num
  have hu : Double.unit (2 ^ 53 + 1) = 1 := by
    have hl : Nat.log 2 (2 ^ 53 + 1) = 53 := Nat.log_eq_of_pow_le_of_lt_pow (by norm_num) (by norm_num)
    rw [Double.unit, ha, Int.log_natCast, hl]
    norm_num
  have hf : ⌊((2 : ℚ) ^ 53 + 1) / 2⌋ = 2 ^ 52 := by
    rw [Int.floor_eq_iff]
    norm_num
  have hn : Double.nearest ((2 ^ 53 + 1) / 2) = 2 ^ 52 := by
    rw [Double.nearest, hf]
    norm_num
  have hd : ((|2 ^ 53 + 2 - 1| : ℤ) : ℚ) = 2 ^ 53 + 1 := by norm_num
  rw [hv]
  refine ⟨by norm_num, 2 ^ 53, ?_, by norm_num⟩
  have hr : ((2 ^ 52 : ℤ) : ℚ) * 2 = 2 ^ 53 := by norm_num
  have hl : |(2 : ℚ) ^ 53| < 2 ^ 1024 := by
    rw [abs_of_pos (by positivity)]
    exact pow_lt_pow_right₀ (by norm_num) (by norm_num)
  rw [hd, Double.round, hu, zpow_one, hn, hr, if_pos hl]

end

end Intake
