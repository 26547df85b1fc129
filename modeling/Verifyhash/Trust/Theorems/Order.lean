import Verifyhash.Trust.Theorems.AsOf

namespace TrustAsOf

open Value Json Fallible

-- Strings are compared by their code units.
local instance : LinearOrder JsString where
  le_refl _             := List.le_refl _
  le_trans _ _ _        := List.le_trans
  le_antisymm _ _       := List.le_antisymm
  le_total              := List.le_total
  lt_iff_le_not_ge a b  := by
    rw [List.not_le]
    exact ⟨fun h => ⟨List.le_of_lt h, h⟩, And.right⟩
  toDecidableLE         := inferInstance
  toDecidableEq         := inferInstance
  compare a b           := if a < b then .lt else if a = b then .eq else .gt
  compare_eq_compareOfLessAndEq _ _ := rfl

-- The order by which revocations are sorted: the instant, and then the two texts.
def key (r : Revocation) : ℤ ×ₗ JsString ×ₗ JsString :=
  toLex ((Instant.parse r.revokedAt).getD 0, toLex (r.vendorAddress, r.reason))

-- No two revocations tie for the first place and name different successors.
def TieFree (rs : List Revocation) : Prop :=
  ∀ a ∈ rs, ∀ b ∈ rs, (∀ r ∈ rs, key a ≤ key r) → key b = key a → b.supersededBy = a.supersededBy

-- The revocations of which one is reported.
def ruling (cs : List Classification) : List Revocation :=
  if cs.filterMap (·.applicable?) = [] then cs.filterMap (·.later?) else cs.filterMap (·.applicable?)

theorem Revocation.parse (r : Revocation) :
    ∃ ms, Instant.parse r.revokedAt = some ms ∧ Instant.toISOString ms = r.revokedAt := by
  obtain ⟨ms, hm⟩ := Option.isSome_iff_exists.mp r.canonical
  obtain ⟨hp, ht⟩ := Option.filter_eq_some_iff.mp hm
  exact ⟨ms, hp, by simpa using ht⟩

theorem compareText_le_iff {s t : JsString} : compareText s t ≤ 0 ↔ s ≤ t := by
  rw [compareText]
  split_ifs with h₁ h₂
  · simp [h₁.le]
  · simp [h₂]
  · simp [le_of_not_gt h₂]

theorem compareText_neg_iff {s t : JsString} : compareText s t < 0 ↔ s < t := by
  rw [compareText]
  split_ifs with h₁ h₂
  · simp [h₁]
  · simp [h₁]
  · simp [h₁]

theorem compareText_eq_zero_iff {s t : JsString} : compareText s t = 0 ↔ s = t := by
  rw [compareText]
  split_ifs with h₁ h₂
  · simp [h₁.ne]
  · simp [h₂.ne']
  · simp [le_antisymm (le_of_not_gt h₂) (le_of_not_gt h₁)]

theorem sortByEffective_le_iff {a b : Revocation} : sortByEffective a b ≤ 0 ↔ key a ≤ key b := by
  obtain ⟨s, hs, -⟩ := a.parse
  obtain ⟨t, ht, -⟩ := b.parse
  simp only [sortByEffective, hs, ht, key, Option.getD_some, Prod.Lex.toLex_le_toLex]
  by_cases h : s = t
  case neg =>
    have hd : s - t ≠ 0 := sub_ne_zero.mpr h
    simp only [ne_eq, hd, not_false_eq_true, if_true, h, false_and, or_false]
    exact sub_nonpos.trans ⟨fun hle => lt_of_le_of_ne hle h, le_of_lt⟩
  case pos =>
    subst h
    simp only [Int.sub_self, ne_eq, not_true_eq_false, if_false, lt_irrefl, false_or, true_and]
    by_cases hv : a.vendorAddress = b.vendorAddress
    case neg =>
      have hc := mt compareText_eq_zero_iff.mp hv
      simp only [hc, not_false_eq_true, if_true, hv, false_and, or_false]
      rw [←compareText_neg_iff]
      constructor <;> intro <;> omega
    case pos =>
      have hc : compareText b.vendorAddress b.vendorAddress = 0 := compareText_eq_zero_iff.mpr rfl
      simp only [hv, hc, not_true_eq_false, if_false, lt_irrefl, false_or, true_and]
      exact compareText_le_iff

-- Revocations with the same place in the order only differ in their successors.
theorem eq_of_key_eq {a b : Revocation} (h : key a = key b) (hs : a.supersededBy = b.supersededBy) :
    a = b := by
  obtain ⟨s, hs', hs''⟩ := a.parse
  obtain ⟨t, ht', ht''⟩ := b.parse
  simp only [key, hs', ht', Option.getD_some, toLex_inj, Prod.mk.injEq] at h
  obtain ⟨rfl, hv, hr⟩ := h
  cases a
  cases b
  simp_all

theorem govern_eq : govern rs = (rs.insertionSort fun a b => key a ≤ key b).head? := by
  simp only [govern, sortByEffective_le_iff]

-- A revocation of the least key is reported.
theorem govern_spec (h : govern rs = some a) : a ∈ rs ∧ ∀ r ∈ rs, key a ≤ key r := by
  have hp := List.perm_insertionSort (fun a b => key a ≤ key b) rs
  have hs : (rs.insertionSort fun a b => key a ≤ key b).Pairwise fun a b => key a ≤ key b :=
    List.pairwise_insertionSort ..
  rw [govern_eq] at h
  obtain ⟨l, hl⟩ := List.head?_eq_some_iff.mp h
  rw [hl] at hp hs
  refine ⟨hp.subset <| by simp, fun r hr => ?_⟩
  cases List.mem_cons.mp <| hp.symm.subset hr
  case inl hr => rw [hr]
  case inr hr => exact List.rel_of_pairwise_cons hs hr

-- The first of those which tie is reported.
theorem govern_cons (h : ∀ r ∈ rs, key a ≤ key r) : govern (a :: rs) = some a := by
  rw [govern_eq, List.insertionSort_cons]
  cases hs : rs.insertionSort fun a b => key a ≤ key b
  case nil => rfl
  case cons b l =>
    have hb : b ∈ rs := (List.perm_insertionSort (fun a b => key a ≤ key b) rs).subset <| by simp [hs]
    rw [List.orderedInsert, if_pos <| h b hb]
    rfl

theorem govern_perm (hp : rs'.Perm rs) (ht : TieFree rs) : govern rs' = govern rs := by
  have hn : rs' = [] ↔ rs = [] := by rw [←List.length_eq_zero_iff, hp.length_eq, List.length_eq_zero_iff]
  cases h : govern rs
  case none =>
    have : rs = [] := by simpa [h] using (@isSome_govern rs).not
    rw [hn.mpr this]
    rfl
  case some a =>
    have hne : rs ≠ [] := isSome_govern.mp <| by simp [h]
    obtain ⟨b, hb⟩ := Option.isSome_iff_exists.mp <| isSome_govern.mpr <| mt hn.mp hne
    obtain ⟨ha', ha⟩ := govern_spec h
    obtain ⟨hb', hb''⟩ := govern_spec hb
    have hk : key b = key a := le_antisymm (hb'' a <| hp.symm.subset ha') (ha b <| hp.subset hb')
    rw [hb, eq_of_key_eq hk <| ht a ha' b (hp.subset hb') ha hk]

section

variable {cs cs' : List Classification}

theorem ruling_perm (hp : cs'.Perm cs) : (ruling cs').Perm (ruling cs) := by
  have ha := hp.filterMap (·.applicable?)
  have hn : cs'.filterMap (·.applicable?) = [] ↔ cs.filterMap (·.applicable?) = [] := by
    rw [←List.length_eq_zero_iff, ha.length_eq, List.length_eq_zero_iff]
  simp only [ruling, hn]
  split_ifs
  · exact hp.filterMap _
  · exact ha

-- The outcome says which of the revocations is reported, and nothing else depends on the order.
theorem outcome_eq_iff (hp : cs'.Perm cs) :
    (decisionOf s asOf n cs').outcome = (decisionOf s asOf n' cs).outcome ↔ govern (ruling cs') = govern (ruling cs) := by
  have ha := hp.filterMap (·.applicable?)
  have hn : cs'.filterMap (·.applicable?) = [] ↔ cs.filterMap (·.applicable?) = [] := by
    rw [←List.length_eq_zero_iff, ha.length_eq, List.length_eq_zero_iff]
  simp only [decisionOf, Decision.outcome, ruling, isSome_govern, ne_eq, hn]
  by_cases h : cs.filterMap (·.applicable?) = []
  case pos => simp [h, hn.mpr h]
  case neg => simp [h]

end

section

variable {syntaxError : JsString → JsString} {verifyRevocation : Value → Except JsString Verification}

theorem classified_perm (hp : R'.Perm R) :
    (classified syntaxError verifyRevocation R' s ms).Perm (classified syntaxError verifyRevocation R s ms) :=
  hp.filterMap _

theorem exists_classified_cons {R : List Value} (h : c ∈ classified syntaxError verifyRevocation R s ms) :
    ∃ R' cs, R'.Perm R ∧ classified syntaxError verifyRevocation R' s ms = c :: cs := by
  obtain ⟨el, hm, hc⟩ := mem_classified.mp h
  obtain ⟨l₁, l₂, rfl⟩ := List.append_of_mem hm
  refine ⟨el :: (l₁ ++ l₂), classified syntaxError verifyRevocation (l₁ ++ l₂) s ms, List.perm_middle.symm, ?_⟩
  rw [classified, List.filterMap_cons_some <| by rw [hc]; rfl]
  rfl

-- Each of the revocations comes first in some order.
theorem exists_ruling_cons (h : a ∈ ruling (classified syntaxError verifyRevocation R s ms)) :
    ∃ R' rs, R'.Perm R ∧ ruling (classified syntaxError verifyRevocation R' s ms) = a :: rs := by
  by_cases hn : (classified syntaxError verifyRevocation R s ms).filterMap (·.applicable?) = []
  case pos =>
    rw [ruling, if_pos hn] at h
    obtain ⟨c, hc, hl⟩ := List.mem_filterMap.mp h
    obtain ⟨R', cs, hp, hcs⟩ := exists_classified_cons hc
    have hc : (classified syntaxError verifyRevocation R' s ms).Perm (classified syntaxError verifyRevocation R s ms) :=
      classified_perm hp
    have hn' := hc.filterMap (·.applicable?)
    rw [hn] at hn'
    exact ⟨R', _, hp, by rw [ruling, if_pos hn'.eq_nil, hcs, List.filterMap_cons_some hl]⟩
  case neg =>
    rw [ruling, if_neg hn] at h
    obtain ⟨c, hc, hl⟩ := List.mem_filterMap.mp h
    obtain ⟨R', cs, hp, hcs⟩ := exists_classified_cons hc
    refine ⟨R', cs.filterMap (·.applicable?), hp, ?_⟩
    have : (c :: cs).filterMap (·.applicable?) = a :: cs.filterMap (·.applicable?) := List.filterMap_cons_some hl
    rw [ruling, hcs, this, if_neg <| by simp]

-- The least revocation is reported if it comes first.
theorem govern_of_ruling_cons (hp : R'.Perm R)
    (hr : ruling (classified syntaxError verifyRevocation R' s ms) = a :: rs)
    (h : ∀ r ∈ ruling (classified syntaxError verifyRevocation R s ms), key a ≤ key r) :
    govern (ruling <| classified syntaxError verifyRevocation R' s ms) = some a := by
  have hc : (classified syntaxError verifyRevocation R' s ms).Perm (classified syntaxError verifyRevocation R s ms) :=
    classified_perm hp
  have hs := (ruling_perm hc).subset
  rw [hr] at hs ⊢
  exact govern_cons fun r hm => h r <| hs <| List.mem_cons_of_mem _ hm

theorem outcome_stable_iff {R : List Value} :
    (∀ R' : List Value, R'.Perm R →
      (decisionOf s asOf R'.length <| classified syntaxError verifyRevocation R' s ms).outcome =
        (decisionOf s asOf R.length <| classified syntaxError verifyRevocation R s ms).outcome) ↔
    TieFree (ruling <| classified syntaxError verifyRevocation R s ms) := by
  constructor
  case mp =>
    intro h a ha b hb hle hk
    obtain ⟨R₁, _, hp₁, hr₁⟩ := exists_ruling_cons ha
    obtain ⟨R₂, _, hp₂, hr₂⟩ := exists_ruling_cons hb
    have h₁ := (outcome_eq_iff <| classified_perm hp₁).mp <| h R₁ hp₁
    have h₂ := (outcome_eq_iff <| classified_perm hp₂).mp <| h R₂ hp₂
    rw [govern_of_ruling_cons hp₁ hr₁ hle] at h₁
    rw [govern_of_ruling_cons hp₂ hr₂ <| hk ▸ hle, ←h₁] at h₂
    obtain rfl := Option.some.inj h₂
    rfl
  case mpr =>
    intro h R' hp
    have hc : (classified syntaxError verifyRevocation R' s ms).Perm (classified syntaxError verifyRevocation R s ms) :=
      classified_perm hp
    exact (outcome_eq_iff hc).mpr <| govern_perm (ruling_perm hc) h

-- If an entry is not printable, then so it is in every order.
theorem evaluateTrustAsOf_of_not_printable {R : List Value} (hs : s ≠ []) (hm : parseAsOf asOf = .ok ms)
    (h : ¬ ∀ el ∈ R, Printable (normalizeEntry syntaxError el)) :
    evaluateTrustAsOf syntaxError verifyRevocation (string s) asOf (.array R) = .error .typeError := by
  have hn : normalizeRevocationsInput syntaxError (.array R) = .ok (R.map <| normalizeEntry syntaxError) := rfl
  have hs' : (string s).toString?.filter (· ≠ []) = some s := by simp [toString?, hs]
  simp only [evaluateTrustAsOf, hs', hm, hn, ok_bind]
  cases hc : (R.map <| normalizeEntry syntaxError).mapM fun entry => classifyRevocation verifyRevocation entry s ms
  case error e =>
    obtain ⟨el, -, he⟩ := mapM_eq_error hc
    cases classifyRevocation_cases verifyRevocation el s ms
    case inl h =>
      obtain ⟨-, c, hc⟩ := h
      simp [hc] at he
    case inr h =>
      rw [h.right] at he
      rw [error_bind, Except.error.inj he]
  case ok cs =>
    rw [mapM_eq_ok_iff, List.forall_mem_map] at hc
    simp only [exists_classifyRevocation] at hc
    exact absurd hc.left h

end

-- The key, the instant and the entries are all that a decision is about: its outcome is the same for every
-- order of the entries, exactly if no two revocations of which one is reported tie and name different successors.
theorem evaluateTrustAsOf_perm_iff (syntaxError : JsString → JsString)
    (verifyRevocation : Value → Except JsString Verification) (subject asOf : Value) (R : List Value) :
    (∀ R' : List Value, R'.Perm R →
      (evaluateTrustAsOf syntaxError verifyRevocation subject asOf (.array R')).map (·.outcome) =
        (evaluateTrustAsOf syntaxError verifyRevocation subject asOf (.array R)).map (·.outcome)) ↔
    (∀ s ms, subject = string s → s ≠ [] → parseAsOf asOf = .ok ms →
      (∀ el ∈ R, Printable (normalizeEntry syntaxError el)) →
      TieFree (ruling <| classified syntaxError verifyRevocation R s ms)) := by
  have hok {R : List Value} {s ms} (hs : s ≠ []) (hm : parseAsOf asOf = .ok ms)
      (hp : ∀ el ∈ R, Printable (normalizeEntry syntaxError el)) :
      evaluateTrustAsOf syntaxError verifyRevocation (string s) asOf (.array R) =
        .ok (decisionOf s asOf R.length <| classified syntaxError verifyRevocation R s ms) :=
    evaluateTrustAsOf_eq_ok.mpr ⟨s, ms, rfl, hs, hm, hp, rfl⟩
  constructor
  case mp =>
    rintro h s ms rfl hs hm hp
    have ho : ∀ R' : List Value, R'.Perm R →
        (decisionOf s asOf R'.length <| classified syntaxError verifyRevocation R' s ms).outcome =
          (decisionOf s asOf R.length <| classified syntaxError verifyRevocation R s ms).outcome := by
      intro R' hR'
      have := h R' hR'
      rw [hok hs hm hp, hok hs hm fun el hel => hp el <| hR'.subset hel] at this
      exact Except.ok.inj this
    exact outcome_stable_iff.mp ho
  case mpr =>
    intro h R' hR'
    cases hs : subject.toString?.filter (· ≠ [])
    case none => simp only [evaluateTrustAsOf, hs]
    case some s =>
      cases hm : parseAsOf asOf
      case error e => simp only [evaluateTrustAsOf, hs, hm, error_bind]
      case ok ms =>
        obtain ⟨hs, hne⟩ := Option.filter_eq_some_iff.mp hs
        obtain rfl := toString?_eq_some.mp hs
        have hne : s ≠ [] := by simpa using hne
        by_cases hp : ∀ el ∈ R, Printable (normalizeEntry syntaxError el)
        case pos =>
          rw [hok hne hm hp, hok hne hm fun el hel => hp el <| hR'.subset hel]
          exact congrArg Except.ok <| outcome_stable_iff.mpr (h s ms rfl hne hm hp) R' hR'
        case neg =>
          have hp' : ¬ ∀ el ∈ R', Printable (normalizeEntry syntaxError el) :=
            fun h => hp fun el hel => h el <| hR'.symm.subset hel
          rw [evaluateTrustAsOf_of_not_printable hne hm hp, evaluateTrustAsOf_of_not_printable hne hm hp']

def retirements : List Value :=
  [retired "0x2222222222222222222222222222222222222222", retired "0x3333333333333333333333333333333333333333"]

theorem evaluateTrustAsOf_retirements :
    ¬ ∀ R' : List Value, R'.Perm retirements →
      (evaluateTrustAsOf id attested (string signer) (string <| js "2026-02-01T00:00:00.000Z") (.array R')).map (·.outcome) =
      (evaluateTrustAsOf id attested (string signer) (string <| js "2026-02-01T00:00:00.000Z") (.array retirements)).map (·.outcome) := by
  intro h
  have := h retirements.reverse (List.reverse_perm _)
  revert this
  decide +kernel

end TrustAsOf
