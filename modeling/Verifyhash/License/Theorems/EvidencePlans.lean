import Verifyhash.Library.Keyed
import Verifyhash.License.PriceBinding
import Verifyhash.License.Theorems.Payload

namespace EvidencePlans

open Value Json Fallible Checks CoreAttestation CoreLicense

-- The last millisecond of the year 9999.
def LAST_MS : ℤ := 253402300799999

-- The instant of a value which is a canonical text.
def instant? (v : Value) : Option ℤ :=
  v.toString?.bind Instant.canonical?

-- The fields of an order which are checked before its instants.
structure Begins (order : Value) (catalog : Catalog) (plan : Plan) (customer : JsString) : Prop where
  isObject : order.isObject
  plan     : plan ∈ catalog.plans ∧ order.get "plan" = string plan.planId
  customer : order.get "customer" = string customer ∧ customer ≠ []

-- The params which an order is entitled to.
structure IsRight (order : Value) (catalog : Catalog) (params : Params) : Prop where
  accepted : ∃ payload, buildLicensePayload params.toValue LICENSE_CFG = .ok payload
  issuedAt : order.get "issuedAt" = string params.issuedAt
  plan     : ∃ plan ∈ catalog.plans, order.get "plan" = string plan.planId ∧
    params.entitlements = plan.entitlements ∧
    if (order.get "paidThrough").isNullish then
      ∃ issuedAt, Instant.canonical? params.issuedAt = some issuedAt ∧
        Instant.canonical? params.expiresAt = some (issuedAt + plan.termDays * DAY_MS)
    else
      order.get "paidThrough" = string params.expiresAt
  window   : ∃ issuedAt expiresAt, Instant.canonical? params.issuedAt = some issuedAt ∧
    Instant.canonical? params.expiresAt = some expiresAt ∧ issuedAt < expiresAt

-- An order is refused by the named error, or it mints the right license.
def Fulfils (order : Value) (catalog : Catalog) : Prop :=
  (∃ message, fulfillEvidenceOrder order catalog = .error (.named message)) ∨
  ∃ params, fulfillEvidenceOrder order catalog = .ok params ∧ IsRight order catalog params

def SafeLicenseId (order : Value) : Prop :=
  hasLicenseId order → (order.get "licenseId").toString?.isSome

-- The orders which no check misses: what is not an instant can be shown in a message, a term does not end after
-- the year 9999, and a license id is a string.
def Safe (order : Value) (catalog : Catalog) : Prop :=
  ∀ plan customer, Begins order catalog plan customer →
    (order.get "issuedAt").toText.isSome ∧
    ∀ issuedAt, instant? (order.get "issuedAt") = some issuedAt →
      if (order.get "paidThrough").isNullish then
        issuedAt + plan.termDays * DAY_MS ≤ LAST_MS ∧ SafeLicenseId order
      else
        (order.get "paidThrough").toText.isSome ∧
        ∀ paidThrough, instant? (order.get "paidThrough") = some paidThrough → issuedAt < paidThrough →
          SafeLicenseId order

section

variable {order : Value} {catalog : Catalog} {plan : Plan} {p : Params} {v : Value}

theorem notBlank?_eq_some : notBlank? v = some s ↔ v = string s.val := by
  cases v
  case string t =>
    rw [notBlank?]
    split_ifs with h
    · rw [Option.some.injEq, string.injEq, Subtype.ext_iff]
    · refine iff_of_false (by simp) ?_
      rintro ⟨rfl⟩
      exact h s.property
  all_goals simp [notBlank?]

theorem instant?_eq_some : instant? v = some ms ↔ ∃ c : CanonicalInstant, v = string c.text ∧ c.ms = ms := by
  rw [instant?, Option.bind_eq_some_iff]
  constructor
  case mp =>
    rintro ⟨text, ht, hc⟩
    exact ⟨⟨text, ms, hc⟩, toString?_eq_some.mp ht, rfl⟩
  case mpr =>
    rintro ⟨c, rfl, rfl⟩
    exact ⟨c.text, rfl, c.canonical⟩

theorem requireCanonicalInstant_eq_ok (c : CanonicalInstant) :
    requireCanonicalInstant field (string c.text) = .ok c := by
  have hi := (Instant.canonical?_eq_some.mp c.canonical).left
  have hf : (string c.text).toString?.filter Instant.isInstant = some c.text := by simp [toString?, hi]
  rw [requireCanonicalInstant]
  split
  case h_1 h =>
    rw [hf] at h
    cases h
  case h_2 text h =>
    rw [hf, Option.some.injEq] at h
    subst h
    split
    case h_1 ms hm => exact congrArg Except.ok <| CanonicalInstant.eq rfl
    case h_2 hm =>
      rw [c.canonical] at hm
      cases hm

-- What is not a canonical instant is refused by name if its text can be formed.
theorem requireCanonicalInstant_of_none (h : instant? v = none) :
    (v.toText.isSome → ∃ message, requireCanonicalInstant field v = .error (.named message)) ∧
    (v.toText = none → requireCanonicalInstant field v = .error .other) := by
  rw [requireCanonicalInstant]
  split
  case h_1 =>
    constructor
    · intro ht
      obtain ⟨text, ht⟩ := Option.isSome_iff_exists.mp ht
      rw [ht]
      exact ⟨_, rfl⟩
    · intro ht
      rw [ht]
      rfl
  case h_2 text ht =>
    obtain ⟨ht, -⟩ := Option.filter_eq_some_iff.mp ht
    obtain rfl := toString?_eq_some.mp ht
    refine ⟨fun _ => ?_, fun h => by cases h⟩
    split
    case h_1 ms hm =>
      rw [instant?, ht, Option.bind_some, hm] at h
      cases h
    case h_2 => exact ⟨_, rfl⟩

theorem resolvePlan_eq_ok : resolvePlan catalog v = .ok plan ↔ plan ∈ catalog.plans ∧ v = string plan.planId := by
  rw [resolvePlan]
  split
  case h_1 h =>
    refine iff_of_false (by rintro ⟨⟩) ?_
    rintro ⟨-, rfl⟩
    rw [notBlank?_eq_some (s := ⟨plan.planId, plan.named⟩) |>.mpr rfl] at h
    cases h
  case h_2 id h =>
    obtain rfl := notBlank?_eq_some.mp h
    rw [Catalog.find?]
    split
    case h_1 found hf =>
      have hm := List.mem_of_find?_eq_some hf
      have hk : found.planId = id.val := by simpa using List.find?_some hf
      rw [Except.ok.injEq, string.injEq]
      constructor
      · rintro rfl
        exact ⟨hm, hk.symm⟩
      · rintro ⟨hp, hi⟩
        exact List.inj_on_of_nodup_map catalog.distinct hm hp <| hk.trans hi
    case h_2 hf =>
      refine iff_of_false (by rintro ⟨⟩) ?_
      rintro ⟨hp, hi⟩
      have := List.find?_eq_none.mp hf plan hp
      simp [string.inj hi] at this

theorem named_of_resolvePlan (h : ∀ plan, resolvePlan catalog v ≠ .ok plan) :
    ∃ message, resolvePlan catalog v = .error (.named message) := by
  rw [resolvePlan] at h ⊢
  split
  case h_1 => exact ⟨_, rfl⟩
  case h_2 id hb =>
    rw [hb] at h
    simp only at h ⊢
    split
    case h_1 plan hf =>
      rw [hf] at h
      exact absurd rfl <| h plan
    case h_2 => exact ⟨_, rfl⟩

-- The params are accepted if their id is a string which is not empty and their window is not empty either.
theorem accepted_iff {i : ℤ} (hc : p.customer ≠ []) (hp : p.plan = plan.planId)
    (he : p.entitlements = plan.entitlements) (hi : Instant.canonical? p.issuedAt = some i) :
    (∃ payload, buildLicensePayload p.toValue LICENSE_CFG = .ok payload) ↔
      (∃ s, p.licenseId = string s ∧ s ≠ []) ∧ ∃ e, Instant.canonical? p.expiresAt = some e ∧ i < e := by
  simp only [buildLicensePayload, bind_eq_ok]
  constructor
  case mp =>
    rintro ⟨_, _, _, l, hl, _⟩
    have hl := validateLicense_eq_ok.mp hl
    have hid : p.licenseId = string l.licenseId := hl.licenseId.left
    have hx : p.expiresAt = l.expiresAt.text := string.inj hl.expiresAt
    have hs : p.issuedAt = l.issuedAt.text := string.inj hl.issuedAt
    rw [hs, l.issuedAt.canonical, Option.some.injEq] at hi
    exact ⟨⟨_, hid, hl.licenseId.right⟩, l.expiresAt.ms, hx ▸ l.expiresAt.canonical, hi ▸ l.later⟩
  case mpr =>
    rintro ⟨⟨s, hs, hn⟩, e, hx, later⟩
    let l : License := {
      licenseId    := s
      customer     := p.customer
      plan         := p.plan
      entitlements := p.entitlements
      issuedAt     := ⟨p.issuedAt, i, hi⟩
      expiresAt    := ⟨p.expiresAt, e, hx⟩
      later
    }
    have hplan : p.plan ≠ [] := by
      rw [hp]
      exact fun h => plan.named <| by rw [h]; rfl
    have hgranted : p.entitlements ≠ [] := he ▸ plan.granted
    have hdistinct : p.entitlements.Nodup := he ▸ plan.distinct
    have hl : IsLicense (payloadOf p.toValue LICENSE_CFG) LICENSE_CFG l := {
      isObject     := rfl
      kind         := rfl
      version      := by
        show supports [1] (nat 1) = true
        simp [supports]
      note         := rfl
      licenseId    := ⟨hs, hn⟩
      customer     := ⟨rfl, hc⟩
      plan         := ⟨rfl, hplan⟩
      entitlements := ⟨rfl, hgranted⟩
      allowed      := fun f hf => mem_sorted.mp <| plan.allowed f <| he ▸ hf
      distinct     := hdistinct
      issuedAt     := rfl
      expiresAt    := rfl
    }
    have hparse := parse_render_line <| plain_tidy ownOrder_perm hl.serializable
    exact ⟨_, (), require_eq_ok.mpr rfl, l, validateLicense_eq_ok.mpr hl, _, serializeLicense_eq_ok hl,
      demand_eq_ok.mpr hparse⟩

-- The params of an order whose instants are right.
def mint (order : Value) (plan : Plan) (customer issuedAt expiresAt : JsString) : Params where
  licenseId    :=
    if hasLicenseId order then order.get "licenseId" else string <| js "LIC-" ++ issuedAt ++ js "-" ++ plan.planId
  customer     := customer
  plan         := plan.planId
  entitlements := plan.entitlements
  issuedAt     := issuedAt
  expiresAt    := expiresAt

theorem fulfill_of_begins (b : Begins order catalog plan customer) :
    fulfillEvidenceOrder order catalog = do
      let issuedAt ← requireCanonicalInstant "issuedAt" <| order.get "issuedAt"
      let expiresAt ← expiry order plan issuedAt
      return mint order plan customer issuedAt.text expiresAt := by
  have hc : (order.get "customer").toString?.filter (· ≠ []) = some customer := by
    rw [b.customer.left]
    simp [toString?, b.customer.right]
  rw [fulfillEvidenceOrder, if_neg (by simpa using b.isObject), resolvePlan_eq_ok.mpr b.plan, ok_bind, hc]
  rfl

theorem fulfill_of_not_begins (h : ∀ plan customer, ¬ Begins order catalog plan customer) :
    ∃ message, fulfillEvidenceOrder order catalog = .error (.named message) := by
  by_cases ho : order.isObject
  case neg =>
    rw [fulfillEvidenceOrder, if_pos (by simpa using ho)]
    exact ⟨_, rfl⟩
  case pos =>
    rw [fulfillEvidenceOrder, if_neg (by simpa using ho)]
    by_cases hp : ∃ plan, resolvePlan catalog (order.get "plan") = .ok plan
    case neg =>
      obtain ⟨message, hm⟩ := named_of_resolvePlan (fun plan h => hp ⟨plan, h⟩)
      exact ⟨message, by rw [hm]; rfl⟩
    case pos =>
      obtain ⟨plan, hp⟩ := hp
      rw [hp, ok_bind]
      split
      case h_1 => exact ⟨_, rfl⟩
      case h_2 customer hc =>
        obtain ⟨hc, hn⟩ := Option.filter_eq_some_iff.mp hc
        exact absurd ⟨ho, resolvePlan_eq_ok.mp hp, toString?_eq_some.mp hc, of_decide_eq_true hn⟩ <| h plan customer

theorem exists_licenseId (issuedAt expiresAt : JsString) :
    (∃ s, (mint order plan customer issuedAt expiresAt).licenseId = string s ∧ s ≠ []) ↔ SafeLicenseId order := by
  rw [SafeLicenseId, mint]
  by_cases h : hasLicenseId order
  case pos =>
    simp only [if_pos h]
    rw [hasLicenseId, decide_eq_true_eq] at h
    constructor
    · rintro ⟨s, hs, -⟩ -
      rw [hs]
      rfl
    · intro hs
      obtain ⟨s, hs⟩ := Option.isSome_iff_exists.mp <| hs (by rw [hasLicenseId, decide_eq_true_eq]; exact h)
      exact ⟨s, toString?_eq_some.mp hs, fun hn => h.right <| hn ▸ hs⟩
  case neg =>
    simp only [if_neg h]
    exact iff_of_true ⟨_, rfl, by simp [js]⟩ <| fun h' => absurd h' h

theorem accepted_mint {c : CanonicalInstant} (b : Begins order catalog plan customer) :
    (∃ payload, buildLicensePayload (mint order plan customer c.text expiresAt).toValue LICENSE_CFG = .ok payload) ↔
      SafeLicenseId order ∧ ∃ e, Instant.canonical? expiresAt = some e ∧ c.ms < e := by
  rw [←exists_licenseId c.text expiresAt]
  exact accepted_iff (p := mint order plan customer c.text expiresAt) b.customer.right rfl rfl c.canonical

-- What is minted is right, if it is accepted.
theorem isRight_mint {c : CanonicalInstant} (b : Begins order catalog plan customer)
    (hc : order.get "issuedAt" = string c.text) (hx : Instant.canonical? expiresAt = some e) (hlt : c.ms < e)
    (he : if (order.get "paidThrough").isNullish then e = c.ms + plan.termDays * DAY_MS
      else order.get "paidThrough" = string expiresAt) (hs : SafeLicenseId order) :
    IsRight order catalog (mint order plan customer c.text expiresAt) where
  accepted := (accepted_mint b).mpr ⟨hs, e, hx, hlt⟩
  issuedAt := hc
  plan     := by
    refine ⟨plan, b.plan.left, b.plan.right, rfl, ?_⟩
    split_ifs at he ⊢
    · rw [he] at hx
      exact ⟨c.ms, c.canonical, hx⟩
    · exact he
  window   := ⟨c.ms, e, c.canonical, hx, hlt⟩

theorem first_ms_le (c : CanonicalInstant) : -62167219200000 ≤ c.ms := by
  have ⟨hi, ht⟩ := Instant.canonical?_eq_some.mp c.canonical
  have hi : Instant.isInstant (Instant.toISOString c.ms) := by rwa [←ht]
  exact ((Instant.isInstant_toISOString c.ms).mp hi).left

-- The date after a term is canonical if it is not after the year 9999.
theorem canonical?_dateText {ms : ℤ} (h : dateText ms = .ok text) (h₀ : -62167219200000 ≤ ms) :
    Instant.canonical? text = if ms ≤ LAST_MS then some ms else none := by
  rw [dateText] at h
  split_ifs at h with hm
  cases h
  rw [Instant.canonical?_toISOString]
  by_cases hl : ms ≤ LAST_MS
  case pos => rw [if_pos ⟨h₀, hl⟩, if_pos hl]
  case neg => rw [if_neg fun h => hl h.right, if_neg hl]

theorem fulfils_of_safe (h : Safe order catalog) : Fulfils order catalog := by
  by_cases hb : ∃ plan customer, Begins order catalog plan customer
  case neg => exact .inl <| fulfill_of_not_begins fun plan customer b => hb ⟨plan, customer, b⟩
  case pos =>
    obtain ⟨plan, customer, b⟩ := hb
    obtain ⟨ht, h⟩ := h plan customer b
    rw [Fulfils, fulfill_of_begins b]
    cases hi : instant? (order.get "issuedAt")
    case none =>
      obtain ⟨message, hm⟩ := (requireCanonicalInstant_of_none hi).left ht
      exact .inl ⟨message, by rw [hm]; rfl⟩
    case some issuedAt =>
      have h := h issuedAt hi
      obtain ⟨c, hc, rfl⟩ := instant?_eq_some.mp hi
      have h₀ := first_ms_le c
      rw [hc, requireCanonicalInstant_eq_ok, ok_bind, expiry]
      by_cases hn : (order.get "paidThrough").isNullish
      case pos =>
        rw [if_pos hn] at h ⊢
        obtain ⟨hl, hs⟩ := h
        have hpos := plan.positive
        simp only [DAY_MS, LAST_MS] at hl
        have hd : dateText (c.ms + plan.termDays * DAY_MS) =
            .ok (Instant.toISOString <| c.ms + plan.termDays * DAY_MS) := by
          rw [dateText, if_pos]
          simp only [DAY_MS, MAX_TIME]
          omega
        have hx := canonical?_dateText hd (by simp only [DAY_MS]; omega)
        rw [if_pos (by simp only [DAY_MS, LAST_MS]; omega)] at hx
        rw [hd, ok_bind]
        refine .inr ⟨_, rfl, isRight_mint b hc hx (by simp only [DAY_MS]; omega) ?_ hs⟩
        rw [if_pos hn]
      case neg =>
        rw [if_neg hn] at h ⊢
        obtain ⟨hp, h⟩ := h
        cases hq : instant? (order.get "paidThrough")
        case none =>
          obtain ⟨message, hm⟩ := (requireCanonicalInstant_of_none hq).left hp
          exact .inl ⟨message, by rw [hm]; rfl⟩
        case some paidThrough =>
          have h := h paidThrough hq
          obtain ⟨d, hd, rfl⟩ := instant?_eq_some.mp hq
          rw [hd, requireCanonicalInstant_eq_ok, ok_bind]
          by_cases hlt : c.ms < d.ms
          case pos =>
            rw [if_neg (by omega)]
            refine .inr ⟨_, rfl, isRight_mint b hc d.canonical hlt ?_ (h hlt)⟩
            rw [if_neg hn, hd]
          case neg =>
            rw [if_pos (by omega)]
            exact .inl ⟨_, rfl⟩

theorem safe_of_fulfils (h : Fulfils order catalog) : Safe order catalog := by
  intro plan customer b
  rw [Fulfils, fulfill_of_begins b] at h
  have other {x : Except Thrown Params} (hx : x = .error .other)
      (h : (∃ message, x = .error (.named message)) ∨ ∃ params, x = .ok params ∧ IsRight order catalog params) :
      False := by
    rcases h with ⟨_, h⟩ | ⟨_, h, -⟩ <;> rw [hx] at h <;> cases h
  -- The params are right if the instants are.
  have safe {c : CanonicalInstant} (expiresAt : JsString) {x : Except Thrown Params}
      (hx : x = .ok (mint order plan customer c.text expiresAt))
      (h : (∃ message, x = .error (.named message)) ∨ ∃ params, x = .ok params ∧ IsRight order catalog params) :
      SafeLicenseId order ∧ ∃ e, Instant.canonical? expiresAt = some e := by
    rcases h with ⟨_, h⟩ | ⟨params, h, hr⟩ <;> rw [hx] at h <;> cases h
    have ⟨hs, e, he, _⟩ := (accepted_mint b).mp hr.accepted
    exact ⟨hs, e, he⟩
  refine ⟨?_, fun issuedAt hi => ?_⟩
  case refine_1 =>
    by_contra ht
    have ht : (order.get "issuedAt").toText = none := by simpa using ht
    have hi : instant? (order.get "issuedAt") = none := by
      cases hi : instant? (order.get "issuedAt")
      case none => rfl
      case some =>
        obtain ⟨c, hc, -⟩ := instant?_eq_some.mp hi
        rw [hc] at ht
        cases ht
    exact other (by rw [(requireCanonicalInstant_of_none hi).right ht]; rfl) h
  case refine_2 =>
    obtain ⟨c, hc, rfl⟩ := instant?_eq_some.mp hi
    have h₀ := first_ms_le c
    rw [hc, requireCanonicalInstant_eq_ok, ok_bind, expiry] at h
    by_cases hn : (order.get "paidThrough").isNullish
    case pos =>
      rw [if_pos hn] at h ⊢
      have hpos := plan.positive
      cases hd : dateText (c.ms + plan.termDays * DAY_MS)
      case error e =>
        have : e = .other := by
          rw [dateText] at hd
          split_ifs at hd
          exact (Except.error.inj hd).symm
        subst this
        exact (other (by rw [hd]; rfl) h).elim
      case ok text =>
        obtain ⟨hs, e, he⟩ := safe text (by rw [hd]; rfl) h
        refine ⟨?_, hs⟩
        rw [canonical?_dateText hd (by simp only [DAY_MS]; omega)] at he
        by_contra hl
        rw [if_neg hl] at he
        cases he
    case neg =>
      rw [if_neg hn] at h ⊢
      refine ⟨?_, fun paidThrough hq hlt => ?_⟩
      case refine_1 =>
        by_contra ht
        have ht : (order.get "paidThrough").toText = none := by simpa using ht
        have hq : instant? (order.get "paidThrough") = none := by
          cases hq : instant? (order.get "paidThrough")
          case none => rfl
          case some =>
            obtain ⟨d, hd, -⟩ := instant?_eq_some.mp hq
            rw [hd] at ht
            cases ht
        exact other (by rw [(requireCanonicalInstant_of_none hq).right ht]; rfl) h
      case refine_2 =>
        obtain ⟨d, hd, rfl⟩ := instant?_eq_some.mp hq
        refine (safe (c := c) d.text ?_ h).left
        rw [hd, requireCanonicalInstant_eq_ok, ok_bind, if_neg (by omega)]
        rfl

-- An order is fulfilled by name or rightly if and only if it is safe.
theorem fulfils_iff : Fulfils order catalog ↔ Safe order catalog :=
  ⟨safe_of_fulfils, fulfils_of_safe⟩

end

end EvidencePlans
