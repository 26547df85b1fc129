import Verifyhash.Library.Fallible
import Verifyhash.Trust.AsOf

namespace TrustAsOf

open Value Json Fallible

variable {syntaxError : JsString → JsString} {verifyRevocation : Value → Except JsString Verification}

-- An entry which the oracle accepts for a key.
def Bites (verifyRevocation : Value → Except JsString Verification) (subject : JsString) (entry : Value) : Prop :=
  ∃ v, verifyRevocation entry = .ok v ∧ v.accepted ∧ v.vendorAddress = subject

-- An entry whose mark of a parse error, if it has one, can be converted to a string.
def Printable (entry : Value) : Prop :=
  ¬ (entry.get "_parseError").isFalsy → (entry.get "_parseError").toText.isSome

-- What a decision says about the key.
def Decision.outcome (d : Decision) : Status × Option Revocation × Option Revocation :=
  (d.status, d.governing, d.laterRevoked)

theorem textOf_eq_ok : textOf v = .ok text ↔ v.toText = some text := by
  rw [textOf]
  cases v.toText <;> simp

-- What one entry is classified as.
inductive Classifies (verifyRevocation : Value → Except JsString Verification) (subject : JsString) (asOfMs : ℤ) (entry : Value) :
    Classification → Prop
  | ignored    : (¬ Bites verifyRevocation subject entry ∨ ¬ (entry.get "_parseError").isFalsy) →
    Classifies verifyRevocation subject asOfMs entry (.ignored w)
  | irrelevant : ¬ Bites verifyRevocation subject entry → Classifies verifyRevocation subject asOfMs entry .irrelevant
  | applies    : (entry.get "_parseError").isFalsy → verifyRevocation entry = .ok v → v.accepted → v.vendorAddress = subject →
    Instant.parse v.revokedAt = some ms → ms ≤ asOfMs → Classifies verifyRevocation subject asOfMs entry
      (.applies v.toRevocation)
  | later      : (entry.get "_parseError").isFalsy → verifyRevocation entry = .ok v → v.accepted → v.vendorAddress = subject →
    (∀ ms, Instant.parse v.revokedAt = some ms → asOfMs < ms) → Classifies verifyRevocation subject asOfMs entry
      (.later v.toRevocation)

theorem classifies (h : classifyRevocation verifyRevocation entry subject asOfMs = .ok c) :
    Classifies verifyRevocation subject asOfMs entry c := by
  rw [classifyRevocation] at h
  by_cases hp : (entry.get "_parseError").isFalsy
  case neg =>
    simp only [hp, bind_eq_ok, if_true, Bool.false_eq_true, not_false_eq_true] at h
    obtain ⟨_, _, ⟨rfl⟩⟩ := h
    exact .ignored <| .inr hp
  case pos =>
    simp only [hp, not_true_eq_false, if_false] at h
    cases hv : verifyRevocation entry
    case error =>
      simp only [hv] at h
      obtain ⟨rfl⟩ := h
      exact .ignored <| .inl fun ⟨v, h, _⟩ => by simp [h] at hv
    case ok v =>
      simp only [hv] at h
      by_cases ha : v.accepted
      case neg =>
        simp only [ha, Bool.false_eq_true, not_false_eq_true, if_true] at h
        obtain ⟨rfl⟩ := h
        refine .ignored <| .inl fun ⟨w, h, hw, _⟩ => ?_
        obtain rfl : v = w := by simpa [hv] using h
        exact ha hw
      case pos =>
        by_cases hs : v.vendorAddress = subject
        case neg =>
          simp only [ha, not_true_eq_false, if_false, ne_eq, hs, not_false_eq_true, if_true] at h
          obtain ⟨rfl⟩ := h
          refine .irrelevant fun ⟨w, h, _, hw⟩ => ?_
          obtain rfl : v = w := by simpa [hv] using h
          exact hs hw
        case pos =>
          subst hs
          simp only [ha, not_true_eq_false, if_false, ne_eq] at h
          split_ifs at h with hm
          case pos =>
            obtain ⟨rfl⟩ := h
            obtain ⟨ms, hm, hle⟩ := Option.any_eq_true .. |>.mp hm
            exact .applies hp hv ha rfl hm (by simpa using hle)
          case neg =>
            obtain ⟨rfl⟩ := h
            refine .later hp hv ha rfl fun ms hms => ?_
            simpa [hms] using hm

theorem classifyRevocation_applies (hp : (entry.get "_parseError").isFalsy) (hv : verifyRevocation entry = .ok v)
    (ha : v.accepted) (hm : Instant.parse v.revokedAt = some ms) (hle : ms ≤ asOfMs) :
    classifyRevocation verifyRevocation entry v.vendorAddress asOfMs =
      .ok (.applies v.toRevocation) := by
  simp [classifyRevocation, hp, hv, ha, hm, hle]

-- A classification only fails if the mark of a parse error cannot be converted to a string.
theorem classifyRevocation_cases (verifyRevocation) (entry : Value) (subject : JsString) (asOfMs : ℤ) :
    (Printable entry ∧ ∃ c, classifyRevocation verifyRevocation entry subject asOfMs = .ok c) ∨
    (¬ Printable entry ∧ classifyRevocation verifyRevocation entry subject asOfMs = .error .typeError) := by
  rw [classifyRevocation]
  by_cases hp : (entry.get "_parseError").isFalsy
  case pos =>
    refine .inl ⟨fun h => absurd hp h, ?_⟩
    simp only [hp, not_true_eq_false, if_false]
    cases verifyRevocation entry
    case error => exact ⟨_, rfl⟩
    case ok v  =>
      dsimp only
      split_ifs <;> exact ⟨_, rfl⟩
  case neg =>
    simp only [hp, Bool.false_eq_true, not_false_eq_true, if_true]
    cases ht : (entry.get "_parseError").toText
    case none => exact .inr ⟨fun h => by simpa [ht] using h hp, by simp [textOf, ht]⟩
    case some => exact .inl ⟨fun _ => by simp [ht], by simp [textOf, ht]⟩

theorem exists_classifyRevocation :
    (classifyRevocation verifyRevocation entry subject asOfMs).toOption.isSome ↔ Printable entry := by
  rcases classifyRevocation_cases verifyRevocation entry subject asOfMs with ⟨hp, c, hc⟩ | ⟨hp, hc⟩
  · simp [hc, hp, Except.toOption]
  · simp [hc, hp, Except.toOption]

section

variable (syntaxError verifyRevocation)

-- The classifications of the entries which are classified.
def classified (R : List Value) (subject : JsString) (asOfMs : ℤ) : List Classification :=
  R.filterMap fun el =>
    (classifyRevocation verifyRevocation (normalizeEntry syntaxError el) subject asOfMs).toOption

-- The decision which is made from classifications.
def decisionOf (subject : JsString) (asOf : Value) (total : ℕ) (cs : List Classification) : Decision where
  status       :=
    if (govern <| cs.filterMap (·.applicable?)).isSome then .revoked
    else if isAddress subject then .ok else .unevaluable
  subject      := subject
  asOf         := asOf
  governing    := govern <| cs.filterMap (·.applicable?)
  laterRevoked := if (govern <| cs.filterMap (·.applicable?)).isSome then none else govern <| cs.filterMap (·.later?)
  total        := total
  applicable   := (cs.filterMap (·.applicable?)).length
  later        := (cs.filterMap (·.later?)).length
  irrelevant   := cs.count .irrelevant
  ignored      := cs.filterMap (·.warning?)

end

-- A decision is made exactly if the key and the instant are valid and every entry is printable.
theorem evaluateTrustAsOf_eq_ok {R : List Value} :
    evaluateTrustAsOf syntaxError verifyRevocation subject asOf (.array R) = .ok d ↔
    ∃ s ms, subject = string s ∧ s ≠ [] ∧ parseAsOf asOf = .ok ms ∧
      (∀ el ∈ R, Printable (normalizeEntry syntaxError el)) ∧
      d = decisionOf s asOf R.length (classified syntaxError verifyRevocation R s ms) := by
  have hn : normalizeRevocationsInput syntaxError (.array R) = .ok (R.map <| normalizeEntry syntaxError) := rfl
  have hc (s ms cs) : (R.map <| normalizeEntry syntaxError).mapM
      (fun entry => classifyRevocation verifyRevocation entry s ms) = .ok cs ↔
        (∀ el ∈ R, Printable (normalizeEntry syntaxError el)) ∧
          cs = classified syntaxError verifyRevocation R s ms := by
    rw [mapM_eq_ok_iff, List.forall_mem_map, List.filterMap_map]
    simp only [exists_classifyRevocation]
    rfl
  rw [evaluateTrustAsOf]
  cases hs : subject.toString?.filter (· ≠ [])
  case none =>
    simp only [throw_eq, reduceCtorEq, false_iff]
    rintro ⟨s, _, rfl, hn, _⟩
    simp [toString?, hn] at hs
  case some s =>
    obtain ⟨hs, hne⟩ := Option.filter_eq_some_iff.mp hs
    obtain rfl := toString?_eq_some.mp hs
    simp only [bind_eq_ok, hn, Except.ok.injEq, exists_eq_left', hc, pure_eq_ok, List.length_map]
    constructor
    · rintro ⟨ms, hm, _, ⟨hp, rfl⟩, rfl⟩
      exact ⟨s, ms, rfl, by simpa using hne, hm, hp, rfl⟩
    · rintro ⟨_, ms, ⟨rfl⟩, -, hm, hp, rfl⟩
      exact ⟨ms, hm, _, ⟨hp, rfl⟩, rfl⟩

theorem perm_insertionSort_effective (arr : List Revocation) :
    (arr.insertionSort fun a b => sortByEffective a b ≤ 0).Perm arr :=
  List.perm_insertionSort ..

theorem isSome_govern : (govern arr).isSome ↔ arr ≠ [] := by
  have hp := (perm_insertionSort_effective arr).length_eq
  rw [govern, List.isSome_head?, ne_eq, ne_eq, ←List.length_eq_zero_iff, ←List.length_eq_zero_iff, hp]

theorem mem_applicable {cs : List Classification} : r ∈ cs.filterMap (·.applicable?) ↔ .applies r ∈ cs := by
  rw [List.mem_filterMap]
  constructor
  · rintro ⟨c, hc, h⟩
    cases c <;> simp [Classification.applicable?] at h
    exact h ▸ hc
  · exact fun h => ⟨_, h, rfl⟩

theorem revoked_decisionOf : (decisionOf s asOf total cs).revoked ↔ ∃ r, .applies r ∈ cs := by
  have h : (govern <| cs.filterMap (·.applicable?)).isSome ↔ ∃ r, .applies r ∈ cs := by
    rw [isSome_govern, ne_eq, List.eq_nil_iff_forall_not_mem]
    simp only [mem_applicable, not_forall, not_not]
  rw [←h, Decision.revoked, decisionOf]
  split_ifs <;> simp_all

theorem mem_classified {R : List Value} : c ∈ classified syntaxError verifyRevocation R s ms ↔
    ∃ el ∈ R, classifyRevocation verifyRevocation (normalizeEntry syntaxError el) s ms = .ok c := by
  have ho {e : Except Failure Classification} : e.toOption = some c ↔ e = .ok c := by
    cases e <;> simp [Except.toOption]
  simp only [classified, List.mem_filterMap, ho]

-- More entries, or a later instant, do not undo a revocation.
theorem revoked_mono {R R' : List Value} (hR : R ⊆ R') (hms : ms ≤ ms')
    (h : (decisionOf s asOf n <| classified syntaxError verifyRevocation R s ms).revoked) :
    (decisionOf s asOf' n' <| classified syntaxError verifyRevocation R' s ms').revoked := by
  rw [revoked_decisionOf] at h ⊢
  obtain ⟨r, h⟩ := h
  obtain ⟨el, hm, hc⟩ := mem_classified.mp h
  obtain _ | _ | ⟨hp, hv, ha, rfl, ht, hle⟩ | _ := classifies hc
  exact ⟨_, mem_classified.mpr ⟨el, hR hm, classifyRevocation_applies hp hv ha ht (hle.trans hms)⟩⟩

-- An entry which the oracle does not accept for the key has no part in the decision.
theorem details_of_not_bites (h : ¬ Bites verifyRevocation s entry)
    (hc : classifyRevocation verifyRevocation entry s ms = .ok c) : c.applicable? = none ∧ c.later? = none := by
  obtain _ | _ | ⟨_, hv, ha, hs, _⟩ | ⟨_, hv, ha, hs, _⟩ := classifies hc
  · exact ⟨rfl, rfl⟩
  · exact ⟨rfl, rfl⟩
  · exact absurd ⟨_, hv, ha, hs⟩ h
  · exact absurd ⟨_, hv, ha, hs⟩ h

theorem outcome_decisionOf_congr {cs cs' : List Classification}
    (ha : cs.filterMap (·.applicable?) = cs'.filterMap (·.applicable?))
    (hl : cs.filterMap (·.later?) = cs'.filterMap (·.later?)) :
    (decisionOf s asOf n cs).outcome = (decisionOf s asOf n' cs').outcome := by
  simp only [decisionOf, Decision.outcome, ha, hl]

theorem classified_append {l₁ l₂ : List Value} : classified syntaxError verifyRevocation (l₁ ++ l₂) s ms =
    classified syntaxError verifyRevocation l₁ s ms ++ classified syntaxError verifyRevocation l₂ s ms :=
  List.filterMap_append

theorem outcome_insert {l₁ xs l₂ : List Value}
    (h : ∀ x ∈ xs, ¬ Bites verifyRevocation s (normalizeEntry syntaxError x)) :
    (decisionOf s asOf n <| classified syntaxError verifyRevocation (l₁ ++ xs ++ l₂) s ms).outcome =
      (decisionOf s asOf n' <| classified syntaxError verifyRevocation (l₁ ++ l₂) s ms).outcome := by
  have hx : ∀ c ∈ classified syntaxError verifyRevocation xs s ms, c.applicable? = none ∧ c.later? = none := by
    intro c hc
    obtain ⟨el, hm, hc⟩ := mem_classified.mp hc
    exact details_of_not_bites (h el hm) hc
  have hf (f : Classification → Option Revocation)
      (hf : ∀ c ∈ classified syntaxError verifyRevocation xs s ms, f c = none) :
      (classified syntaxError verifyRevocation (l₁ ++ xs ++ l₂) s ms).filterMap f =
        (classified syntaxError verifyRevocation (l₁ ++ l₂) s ms).filterMap f := by
    simp only [classified_append, List.filterMap_append, List.filterMap_eq_nil_iff.mpr hf, List.append_nil]
  exact outcome_decisionOf_congr (hf _ fun c hc => (hx c hc).left) (hf _ fun c hc => (hx c hc).right)

theorem lookup_setField {fields : List (JsString × Value)} (key key' : JsString) :
    (setField fields key w).lookup key' = if key' = key then some w else fields.lookup key' := by
  have hs (h : key ∈ fields.map (·.fst)) :
      (fields.map fun f => if f.fst = key then (key, w) else f).lookup key = some w := by
    induction fields
    case nil => simp at h
    case cons f fields ih =>
      by_cases hf : f.fst = key
      case pos => simp [hf]
      case neg =>
        have : (key == f.fst) = false := beq_false_of_ne (Ne.symm hf)
        rw [List.map_cons, if_neg hf, List.lookup_cons, this]
        exact ih <| by simpa [Ne.symm hf] using h
  have hn (hk : key' ≠ key) :
      (fields.map fun f => if f.fst = key then (key, w) else f).lookup key' = fields.lookup key' := by
    clear hs
    induction fields
    case nil => rfl
    case cons f fields ih =>
      rw [List.map_cons, List.lookup_cons, List.lookup_cons, ih]
      split_ifs with hf
      · have : (key' == key) = false := beq_false_of_ne hk
        simp [hf, this]
      · rfl
  rw [setField]
  split_ifs with h hk hk
  · rw [hk, hs h]
  · exact hn hk
  · rw [List.lookup_append, hk, List.lookup_eq_none_iff.mpr]
    · simp
    · intro p hp
      rw [bne_iff_ne]
      rintro rfl
      exact h <| List.mem_map_of_mem hp
  · have : (key' == key) = false := by simpa using hk
    simp [List.lookup_append, List.lookup_cons, this]

theorem get_set (key key' : String) (ho : v.isObject) :
    (set v key w).get key' = if js key' = js key then w else v.get key' := by
  obtain ⟨fields, rfl⟩ := isObject_iff.mp ho
  rw [set, Value.get, lookup_setField]
  split_ifs <;> rfl

theorem isObject_set (ho : v.isObject) : (set v key w).isObject := by
  obtain ⟨fields, rfl⟩ := isObject_iff.mp ho
  rfl

-- The decision is folded into a result: a revocation makes it rejected, and otherwise it stays as it is.
theorem accepted_of_applyToVerifyResult
    (h : applyToVerifyResult syntaxError verifyRevocation result asOf revocations = .ok out) :
    ∃ d, evaluateTrustAsOf syntaxError verifyRevocation (result.get "recoveredSigner") asOf revocations = .ok d ∧
      out.get "accepted" = if d.revoked then bool false else result.get "accepted" := by
  rw [applyToVerifyResult] at h
  by_cases ho : result.isObject
  case neg => simp [ho] at h
  case pos =>
    cases hs : (result.get "recoveredSigner").toString?
    case none => simp [ho, hs] at h
    case some s =>
      simp only [ho, hs, Option.isNone_some, Bool.false_eq_true, not_true_eq_false, if_false, bind_eq_ok] at h
      obtain ⟨d, hd, h⟩ := h
      have ho' : (set result "trustAsOf" d.value).isObject := isObject_set ho
      have hk : js "accepted" ≠ js "trustAsOf" ∧ js "accepted" ≠ js "verdict" ∧ js "accepted" ≠ js "failedChecks" := by
        decide
      refine ⟨d, hd, ?_⟩
      split_ifs at h ⊢
      · obtain ⟨rfl⟩ := h
        rw [get_set _ _ <| isObject_set <| isObject_set ho', if_neg hk.right.right, get_set _ _ <| isObject_set ho',
          if_neg hk.right.left, get_set _ _ ho', if_pos rfl]
      · obtain ⟨rfl⟩ := h
        rw [get_set _ _ ho, if_neg hk.left]

namespace RevocationCore

theorem accepted_of_applyToVerifyResult
    (h : applyToVerifyResult syntaxError verifyRevocation result asOf revocations = .ok out) :
    ∃ s d, evaluateTrustAsOf syntaxError verifyRevocation (string s) asOf revocations = .ok d ∧
      out.get "accepted" = if d.revoked then bool false else result.get "accepted" := by
  rw [applyToVerifyResult] at h
  by_cases ho : result.isObject
  case neg => simp [ho] at h
  case pos =>
    simp only [ho, not_true_eq_false, if_false, bind_eq_ok] at h
    obtain ⟨d, hd, h⟩ := h
    have ho' : (set result "trustAsOf" d.value).isObject := isObject_set ho
    have hk : js "accepted" ≠ js "trustAsOf" ∧ js "accepted" ≠ js "verdict" ∧ js "accepted" ≠ js "reason" := by
      decide
    refine ⟨_, d, hd, ?_⟩
    split_ifs at h ⊢
    · obtain ⟨rfl⟩ := h
      rw [get_set _ _ <| isObject_set <| isObject_set ho', if_neg hk.right.right, get_set _ _ <| isObject_set ho',
        if_neg hk.right.left, get_set _ _ ho', if_pos rfl]
    · obtain ⟨rfl⟩ := h
      rw [get_set _ _ ho, if_neg hk.left]

end RevocationCore

-- Revocations are monotone and cannot be forged. Entries which the oracle does not accept for the key
-- do not count, and are let through exactly if their marks of parse errors can be converted to strings.
theorem evaluateTrustAsOf_monotone (syntaxError : JsString → JsString)
    (verifyRevocation : Value → Except JsString Verification) :
    (∀ subject asOf R R' d d', R ⊆ R' →
      evaluateTrustAsOf syntaxError verifyRevocation subject asOf (.array R) = .ok d →
      evaluateTrustAsOf syntaxError verifyRevocation subject asOf (.array R') = .ok d' → d.revoked → d'.revoked) ∧
    (∀ subject asOf asOf' ms ms' R d d', parseAsOf asOf = .ok ms → parseAsOf asOf' = .ok ms' → ms ≤ ms' →
      evaluateTrustAsOf syntaxError verifyRevocation subject asOf (.array R) = .ok d →
      evaluateTrustAsOf syntaxError verifyRevocation subject asOf' (.array R) = .ok d' → d.revoked → d'.revoked) ∧
    (∀ s asOf l₁ xs l₂ d, (∀ x ∈ xs, ¬ Bites verifyRevocation s (normalizeEntry syntaxError x)) →
      evaluateTrustAsOf syntaxError verifyRevocation (string s) asOf (.array <| l₁ ++ l₂) = .ok d →
      ((∃ d', evaluateTrustAsOf syntaxError verifyRevocation (string s) asOf (.array <| l₁ ++ xs ++ l₂) = .ok d' ∧
        d'.outcome = d.outcome) ↔ ∀ x ∈ xs, Printable (normalizeEntry syntaxError x))) ∧
    (∀ result asOf revocations out,
      applyToVerifyResult syntaxError verifyRevocation result asOf revocations = .ok out ∨
      RevocationCore.applyToVerifyResult syntaxError verifyRevocation result asOf revocations = .ok out →
      out.get "accepted" = bool true → result.get "accepted" = bool true) := by
  refine ⟨?_, ?_, ?_, ?_⟩
  case refine_1 =>
    intro subject asOf R R' d d' hR h h' hr
    obtain ⟨s, ms, rfl, -, hm, -, rfl⟩ := evaluateTrustAsOf_eq_ok.mp h
    obtain ⟨_, ms', ⟨rfl⟩, -, hm', -, rfl⟩ := evaluateTrustAsOf_eq_ok.mp h'
    obtain rfl : ms = ms' := by simpa [hm] using hm'
    exact revoked_mono hR le_rfl hr
  case refine_2 =>
    intro subject asOf asOf' ms ms' R d d' hm hm' hle h h' hr
    obtain ⟨s, k, rfl, -, hk, -, rfl⟩ := evaluateTrustAsOf_eq_ok.mp h
    obtain ⟨_, k', ⟨rfl⟩, -, hk', -, rfl⟩ := evaluateTrustAsOf_eq_ok.mp h'
    obtain rfl : ms = k := by simpa [hm] using hk
    obtain rfl : ms' = k' := by simpa [hm'] using hk'
    exact revoked_mono (List.Subset.refl _) hle hr
  case refine_3 =>
    intro s asOf l₁ xs l₂ d hx h
    obtain ⟨_, ms, ⟨rfl⟩, hs, hm, hp, rfl⟩ := evaluateTrustAsOf_eq_ok.mp h
    constructor
    · rintro ⟨d', h', -⟩
      obtain ⟨_, _, -, -, -, hp', -⟩ := evaluateTrustAsOf_eq_ok.mp h'
      exact fun x hx => hp' x <| by simp [hx]
    · intro hp'
      refine ⟨_, evaluateTrustAsOf_eq_ok.mpr ⟨s, ms, rfl, hs, hm, fun el hel => ?_, rfl⟩, outcome_insert hx⟩
      simp only [List.mem_append] at hel hp
      rcases hel with (hel | hel) | hel
      · exact hp el <| .inl hel
      · exact hp' el hel
      · exact hp el <| .inr hel
  case refine_4 =>
    intro result asOf revocations out h ha
    rcases h with h | h
    · obtain ⟨d, -, hd⟩ := accepted_of_applyToVerifyResult h
      rw [ha] at hd
      split_ifs at hd
      · simp at hd
      · exact hd.symm
    · obtain ⟨_, d, -, hd⟩ := RevocationCore.accepted_of_applyToVerifyResult h
      rw [ha] at hd
      split_ifs at hd
      · simp at hd
      · exact hd.symm

-- A container whose signature is by the key which the statement names, or not.
def attested (container : Value) : Except JsString Verification :=
  match (container.get "attestation").toString?.bind parse with
  | none           => .error <| js "attestation is not valid JSON"
  | some statement =>
    let text key := ((statement.get key).toString?).getD []
    if h : (Instant.canonical? <| text "revokedAt").isSome then .ok {
      vendorAddress := text "vendorAddress"
      reason        := text "reason"
      revokedAt     := text "revokedAt"
      supersededBy  := (statement.get "supersededBy").toString?
      canonical     := h
      accepted      := ((container.get "signature").get "signer").toString? = (statement.get "vendorAddress").toString?
      failedChecks  := []
    }
    else .error <| js "revocation revokedAt must be an ISO-8601 UTC instant"

def signer : JsString := js "0x1111111111111111111111111111111111111111"

def retired (successor : String) : Value :=
  let statement := js "\x7b\"vendorAddress\":\"" ++ signer ++
    js "\",\"reason\":\"rotated\",\"revokedAt\":\"2026-01-01T00:00:00.000Z\",\"supersededBy\":\"" ++
    js successor ++ js "\"\x7d"
  object [
    (js "attestation", string statement),
    (js "signature", object [(js "signer", string signer)])
  ]

-- An object whose mark of a parse error has a member `toString` which is not a function.
def poison : Value :=
  object [(js "_parseError", object [(js "toString", nat 1)])]

theorem evaluateTrustAsOf_poison :
    ¬ (∀ s asOf l₁ xs l₂ d, (∀ x ∈ xs, ¬ Bites attested s (normalizeEntry id x)) →
      evaluateTrustAsOf id attested (string s) asOf (.array <| l₁ ++ l₂) = .ok d →
      ∃ d', evaluateTrustAsOf id attested (string s) asOf (.array <| l₁ ++ xs ++ l₂) = .ok d' ∧ d'.outcome = d.outcome) := by
  intro h
  have hb : ¬ Bites attested signer (normalizeEntry id poison) := by
    rintro ⟨v, hv, -⟩
    cases hv
  have hd : ((evaluateTrustAsOf id attested (string signer) (string <| js "2026-02-01T00:00:00.000Z")
      (.array [retired "0x2222222222222222222222222222222222222222"])).toOption.map (·.revoked)) = some true := by
    decide +kernel
  have he : (evaluateTrustAsOf id attested (string signer) (string <| js "2026-02-01T00:00:00.000Z")
      (.array [retired "0x2222222222222222222222222222222222222222", poison])).toOption.map (·.revoked) = none := by
    decide +kernel
  cases hr : evaluateTrustAsOf id attested (string signer) (string <| js "2026-02-01T00:00:00.000Z")
      (.array [retired "0x2222222222222222222222222222222222222222"])
  case error => simp [hr, Except.toOption] at hd
  case ok d =>
    obtain ⟨d', hd', -⟩ := h signer _ [retired "0x2222222222222222222222222222222222222222"] [poison] [] d
      (by simpa using hb) hr
    have : evaluateTrustAsOf id attested (string signer) (string <| js "2026-02-01T00:00:00.000Z")
        (.array [retired "0x2222222222222222222222222222222222222222", poison]) = .ok d' := hd'
    simp [this, Except.toOption] at he

end TrustAsOf
