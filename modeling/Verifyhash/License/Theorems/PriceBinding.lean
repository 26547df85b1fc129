import Verifyhash.License.Theorems.EvidencePlans

namespace PriceBinding

open Value Json Fallible Checks CoreAttestation CoreLicense EvidencePlans

variable {catalog : Catalog} {event opts : Value}

-- What the order of an event is fulfilled by: the plan which is bound to the price, until the end of the period.
structure Yields (event : Value) (mapping : Mapping catalog) (plan : Plan) (seconds : ℤ) (params : Params) : Prop where
  provider     : event.get "provider" = string mapping.provider
  priceId      : event.get "priceId" = string mapping.priceId
  isPlan       : plan.planId = mapping.planId
  entitlements : params.entitlements = plan.entitlements
  periodEnd    : (event.get "periodEnd").toInt? = some seconds
  expiresAt    : Instant.canonical? params.expiresAt = some (seconds * 1000)

-- An order of an event is fulfilled unless its period does not end after the issue, or not before the year 10000.
def FulfilsEvent (event : Value) (binding : Binding catalog) (opts : Value) : Prop :=
  ∀ order, normalizeEvidenceEvent event binding opts = .ok order →
    ∃ seconds issuedAt, (event.get "periodEnd").toInt? = some seconds ∧
      instant? (opts.get "issuedAt") = some issuedAt ∧
      if issuedAt < seconds * 1000 ∧ seconds * 1000 ≤ LAST_MS then
        ∃ params, fulfillEvidenceOrder order catalog = .ok params ∧ IsRight order catalog params ∧
          ∃ mapping ∈ binding.mappings, ∃ plan ∈ catalog.plans, Yields event mapping plan seconds params
      else
        ∃ message, fulfillEvidenceOrder order catalog = .error (.named message)

-- The separator is in neither part of the key of a mapping, so that the key determines its parts.
theorem bindingKey_inj (ha : BINDING_KEY_SEP ∉ a) (hb : BINDING_KEY_SEP ∉ b) (h : bindingKey p q = bindingKey a b) :
    p = a ∧ q = b := by
  rcases List.append_eq_append_iff.mp h with ⟨c, rfl, hc⟩ | ⟨c, rfl, hc⟩ <;> obtain _ | ⟨x, c⟩ := c
  · simpa using hc
  · obtain ⟨rfl, -⟩ := List.cons.inj hc
    simp at ha
  · simpa [eq_comm] using hc
  · obtain ⟨-, rfl⟩ := List.cons.inj hc
    simp at hb

theorem resolveEvidencePlanId_eq_ok {binding : Binding catalog}
    (h : resolveEvidencePlanId binding provider priceId = .ok planId) :
    ∃ mapping ∈ binding.mappings, mapping.provider = provider ∧ mapping.priceId = priceId ∧
      mapping.planId = planId := by
  rw [resolveEvidencePlanId] at h
  split at h
  case h_1 mapping hf =>
    have hk : mapping.key = bindingKey provider priceId := by simpa using List.find?_some hf
    obtain ⟨rfl, rfl⟩ := bindingKey_inj mapping.separate.left mapping.separate.right hk.symm
    exact ⟨mapping, List.mem_of_find?_eq_some hf, rfl, rfl, Except.ok.inj h⟩
  case h_2 => cases h

theorem Mapping.exists_plan (m : Mapping catalog) : ∃ plan ∈ catalog.plans, plan.planId = m.planId := by
  obtain ⟨plan, h⟩ := Option.isSome_iff_exists.mp m.bound
  exact ⟨plan, List.mem_of_find?_eq_some h, by simpa using List.find?_some h⟩

theorem requireCanonicalInstant_text {c : CanonicalInstant} (h : requireCanonicalInstant field v = .ok c) :
    v = string c.text := by
  rw [requireCanonicalInstant] at h
  split at h
  case h_1 => cases v.toText <;> cases h
  case h_2 text ht =>
    obtain ⟨ht, -⟩ := Option.filter_eq_some_iff.mp ht
    rw [toString?_eq_some.mp ht]
    split at h <;> cases h
    rfl

theorem epochSecondsToCanonicalISO_eq_ok (h : epochSecondsToCanonicalISO field v = .ok text) :
    ∃ n, v.toInt? = some n ∧ 0 ≤ n ∧ dateText (n * 1000) = .ok text := by
  rw [epochSecondsToCanonicalISO] at h
  split at h
  case h_1 n hn =>
    obtain ⟨hn, hr⟩ := Option.filter_eq_some_iff.mp hn
    exact ⟨n, hn, (of_decide_eq_true hr).left, h⟩
  case h_2 => cases v.toText <;> cases h

-- The order of an event.
def orderOf (planId customer paidThrough issuedAt : JsString) : Value :=
  object [
    (js "plan", string planId),
    (js "customer", string customer),
    (js "paidThrough", string paidThrough),
    (js "issuedAt", string issuedAt)
  ]

-- What a normalized event is.
structure IsNormalized (event : Value) (binding : Binding catalog) (opts order : Value) (mapping : Mapping catalog)
    (customer paidThrough : JsString) (seconds : ℤ) (issuedAt : CanonicalInstant) : Prop where
  isMapping  : mapping ∈ binding.mappings
  provider   : event.get "provider" = string mapping.provider
  priceId    : event.get "priceId" = string mapping.priceId
  isCustomer : customer ≠ []
  periodEnd  : (event.get "periodEnd").toInt? = some seconds ∧ 0 ≤ seconds
  date       : dateText (seconds * 1000) = .ok paidThrough
  isIssued   : opts.get "issuedAt" = string issuedAt.text
  isOrder    : order = orderOf mapping.planId customer paidThrough issuedAt.text

theorem normalizeEvidenceEvent_eq_ok {binding : Binding catalog}
    (h : normalizeEvidenceEvent event binding opts = .ok order) :
    ∃ mapping customer paidThrough seconds issuedAt,
      IsNormalized event binding opts order mapping customer paidThrough seconds issuedAt := by
  rw [normalizeEvidenceEvent] at h
  by_cases he : event.isObject
  case neg =>
    rw [if_pos (by simpa using he)] at h
    cases h
  by_cases ho : opts.isObject
  case neg =>
    rw [if_neg (by simpa using he), if_pos (by simpa using ho)] at h
    cases h
  rw [if_neg (by simpa using he), if_neg (by simpa using ho)] at h
  split at h
  case h_1 => cases h
  case h_2 => cases h
  case h_3 provider priceId hp hq =>
    split at h
    case h_1 => cases h
    case h_2 planId hr =>
      obtain ⟨mapping, hm, hmp, hmq, rfl⟩ := resolveEvidencePlanId_eq_ok hr
      split at h
      case h_1 => cases h
      case h_2 customer hc =>
        obtain ⟨-, hc⟩ := Option.filter_eq_some_iff.mp hc
        obtain ⟨paidThrough, hx, h⟩ := bind_eq_ok.mp h
        obtain ⟨seconds, hn, h₀, hd⟩ := epochSecondsToCanonicalISO_eq_ok hx
        split_ifs at h
        · cases h
        obtain ⟨issuedAt, hi, h⟩ := bind_eq_ok.mp h
        exact ⟨mapping, customer, paidThrough, seconds, issuedAt, {
          isMapping  := hm
          provider   := hmp ▸ notBlank?_eq_some.mp hp
          priceId    := hmq ▸ notBlank?_eq_some.mp hq
          isCustomer := of_decide_eq_true hc
          periodEnd  := ⟨hn, h₀⟩
          date       := hd
          isIssued   := requireCanonicalInstant_text hi
          isOrder    := (Except.ok.inj h).symm
        }⟩

theorem fulfilsEvent (event : Value) (binding : Binding catalog) (opts : Value) : FulfilsEvent event binding opts := by
  intro order h
  obtain ⟨mapping, customer, paidThrough, seconds, c, n⟩ := normalizeEvidenceEvent_eq_ok h
  obtain ⟨plan, hp, hid⟩ := mapping.exists_plan
  obtain ⟨hs, h₀⟩ := n.periodEnd
  refine ⟨seconds, c.ms, hs, instant?_eq_some.mpr ⟨c, n.isIssued, rfl⟩, ?_⟩
  have b : Begins order catalog plan customer := by
    rw [n.isOrder]
    exact ⟨rfl, ⟨hp, by rw [hid]; rfl⟩, rfl, n.isCustomer⟩
  have hc : order.get "issuedAt" = string c.text := by rw [n.isOrder]; rfl
  have hq : order.get "paidThrough" = string paidThrough := by rw [n.isOrder]; rfl
  have hn : ¬ (order.get "paidThrough").isNullish := by rw [hq]; simp [isNullish]
  have hl : SafeLicenseId order := by
    rw [n.isOrder]
    rintro ⟨⟩
  have hx := canonical?_dateText n.date (by omega)
  rw [fulfill_of_begins b, hc, EvidencePlans.requireCanonicalInstant_eq_ok, ok_bind, expiry, if_neg hn, hq]
  by_cases hr : seconds * 1000 ≤ LAST_MS
  case neg =>
    rw [if_neg fun h => hr h.right]
    rw [if_neg hr] at hx
    have hi : instant? (string paidThrough) = none := hx
    obtain ⟨message, hm⟩ := (requireCanonicalInstant_of_none hi).left rfl
    exact ⟨message, by rw [hm]; rfl⟩
  case pos =>
    rw [if_pos hr] at hx
    let d : CanonicalInstant := ⟨paidThrough, seconds * 1000, hx⟩
    rw [show string paidThrough = string d.text from rfl, EvidencePlans.requireCanonicalInstant_eq_ok, ok_bind]
    by_cases hlt : c.ms < seconds * 1000
    case pos =>
      rw [if_pos ⟨hlt, hr⟩, if_neg (show ¬ d.ms ≤ c.ms from not_le.mpr hlt)]
      refine ⟨_, rfl, isRight_mint b hc hx hlt ?_ hl, mapping, n.isMapping, plan, hp, ?_⟩
      · rw [if_neg hn, hq]
      · exact ⟨n.provider, n.priceId, hid, rfl, hs, hx⟩
    case neg =>
      rw [if_neg fun h => hlt h.left, if_pos (show d.ms ≤ c.ms from not_lt.mp hlt)]
      exact ⟨_, rfl⟩

-- An order is fulfilled by name or rightly if and only if it is safe, and an order of an event always is.
theorem fulfillment_iff (catalog : Catalog) (order : Value) :
    (Fulfils order catalog ↔ Safe order catalog) ∧
    ∀ event (binding : Binding catalog) opts, FulfilsEvent event binding opts :=
  ⟨fulfils_iff, fulfilsEvent⟩

section

-- A plan of more than eight thousand years.
def longTermCatalog : Value :=
  object [
    (js "kind", string EVIDENCE_PLAN_CATALOG_KIND),
    (js "schemaVersion", nat 1),
    (js "plans", array [
      object [
        (js "planId", string <| js "p"),
        (js "displayName", string <| js "P"),
        (js "entitlements", ofStrings [js "evidence_signed"]),
        (js "termDays", nat 3000000)
      ]
    ])
  ]

def longTermOrder : Value :=
  object [
    (js "plan", string <| js "p"),
    (js "customer", string <| js "c"),
    (js "issuedAt", string <| js "2026-01-01T00:00:00.000Z")
  ]

-- The catalog is accepted, but the date on which its plan ends is not.
theorem not_fulfils_longTerm :
    ¬ ∀ obj catalog, validateEvidencePlanCatalog obj = .ok catalog → ∀ order, Fulfils order catalog := by
  intro h
  have hv : (validateEvidencePlanCatalog longTermCatalog).toOption.map
      (fun c => c.plans.map fun p => (p.planId, p.termDays)) = some [(js "p", 3000000)] := by
    decide
  obtain ⟨catalog, hc, hp⟩ := Option.map_eq_some_iff.mp hv
  have safe := fulfils_iff.mp <| h _ catalog (toOption_eq_some.mp hc) longTermOrder
  obtain ⟨plan, hplan, hp⟩ := List.map_eq_singleton_iff.mp hp
  obtain ⟨hid, ht⟩ := Prod.mk.inj hp
  have b : Begins longTermOrder catalog plan (js "c") :=
    ⟨rfl, ⟨by rw [hplan]; exact .head _, by rw [hid]; rfl⟩, rfl, by decide⟩
  have hi : instant? (longTermOrder.get "issuedAt") = some 1767225600000 := by decide
  have hn : (longTermOrder.get "paidThrough").isNullish := by decide
  have := (safe plan _ b).right _ hi
  rw [if_pos hn, ht] at this
  exact absurd this.left (by decide)

end

end PriceBinding
