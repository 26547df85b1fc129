import Verifyhash.Trust.Revocation
import Verifyhash.Trust.Theorems.AsOf

-- The two readers of revocations make the same decisions.
namespace TrustAsOf

open Value Json Fallible Checks CoreAttestation

variable {syntaxError : JsString → JsString}

-- The successor of a statement, if there is one.
def Successor (obj : Value) (supersededBy : Option JsString) : Prop :=
  if hasSuccessor obj then ∃ a, address? (obj.get "supersededBy") = some a ∧ some a = supersededBy
  else none = supersededBy

theorem successor_eq_ok : successor obj message = .ok s ↔ Successor obj s := by
  rw [successor, Successor]
  split_ifs
  · cases address? (obj.get "supersededBy") <;> simp [demand, Except.map]
  · rw [Except.ok.injEq]

theorem canonicalInstant_eq_ok : canonicalInstant value malformed impossible = .ok s ↔
    value.toString?.filter Instant.isInstant = some s.val := by
  simp only [canonicalInstant, bind_eq_ok, demand_eq_ok]
  constructor
  · rintro ⟨t, ht, h⟩
    split_ifs at h with hc
    · obtain ⟨rfl⟩ := h
      exact ht
  · intro h
    refine ⟨s.val, h, ?_⟩
    rw [dif_pos s.property, pure_eq]

-- What both sources ask of the statement of a revocation.
structure Statement (obj : Value) (r : Revocation) : Prop where
  isObject      : obj.isObject
  closed        : (unknownField obj).isNone
  kind          : (obj.get "kind").toString? = some REVOCATION_KIND
  version       : CoreAttestation.supports [1] (obj.get "schemaVersion")
  note          : (obj.get "note").toString? = some REVOCATION_TRUST_NOTE
  vendorAddress : address? (obj.get "vendorAddress") = some r.vendorAddress
  reason        : (obj.get "reason").toString?.filter (· ∈ REVOCATION_REASON_SET) = some r.reason
  revokedAt     : (obj.get "revokedAt").toString?.filter Instant.isInstant = some r.revokedAt
  supersededBy  : Successor obj r.supersededBy

-- What both sources ask of a container.
structure Container (obj : Value) (s : Signed Revocation) : Prop where
  isObject    : obj.isObject
  kind        : (obj.get "kind").toString? = some SIGNED_REVOCATION_KIND
  version     : CoreAttestation.supports [1] (obj.get "schemaVersion")
  note        : (obj.get "note").toString? = some SIGNED_REVOCATION_TRUST_NOTE
  attestation : (obj.get "attestation").toString? = some s.attestation
  statement   : ∃ st, parse s.attestation = some st ∧ Statement st s.embedded ∧ s.attestation = canonicalText st
  block       : (obj.get "signature").isObject
  scheme      : ((obj.get "signature").get "scheme").toString? = some EIP191 ∧ s.scheme = EIP191
  signer      : address? ((obj.get "signature").get "signer") = some s.signer
  signature   : ((obj.get "signature").get "signature").toString?.filter isSignature = some s.signature

theorem isHexString_of_isSignature (h : isSignature s) : isHexString s := by
  rw [isSignature, decide_eq_true_eq] at h
  rw [isHexString, decide_eq_true_eq, h.right]
  exact ⟨h.left, by decide, by decide⟩

theorem scheme_iff {v : Option JsString} : v.filter (· = EIP191) = some s ↔ v = some EIP191 ∧ s = EIP191 := by
  simp only [Option.filter_eq_some_iff, decide_eq_true_eq]
  constructor
  · rintro ⟨rfl, rfl⟩
    exact ⟨rfl, rfl⟩
  · rintro ⟨rfl, rfl⟩
    exact ⟨rfl, rfl⟩

theorem signature_iff {v : Option JsString} : v.filter isHexString = some s ∧ isSignature s ↔
    v.filter isSignature = some s := by
  simp only [Option.filter_eq_some_iff]
  constructor
  · exact fun ⟨⟨hv, _⟩, hs⟩ => ⟨hv, hs⟩
  · exact fun ⟨hv, hs⟩ => ⟨⟨hv, isHexString_of_isSignature hs⟩, hs⟩

namespace CoreRevocation

theorem validateRevocation_eq_ok : validateRevocation obj = .ok r ↔ Statement obj r := by
  simp only [validateRevocation, bind_eq_ok, pure_eq_ok, require_eq_ok, demand_eq_ok, canonicalInstant_eq_ok,
    successor_eq_ok, exists_const]
  constructor
  · rintro ⟨h₁, h₂, h₃, h₄, h₅, a, h₆, b, h₇, c, h₈, d, h₉, rfl⟩
    exact ⟨h₁, h₂, h₃, h₄, h₅, h₆, h₇, h₈, h₉⟩
  · intro h
    exact ⟨h.isObject, h.closed, h.kind, h.version, h.note, _, h.vendorAddress, _, h.reason, ⟨_, r.canonical⟩,
      h.revokedAt, _, h.supersededBy, rfl⟩

theorem validateSignedRevocation_eq_ok :
    validateSignedRevocation syntaxError obj = .ok s ↔ Container obj s := by
  simp only [validateSignedRevocation, CoreAttestation.validateSignedAttestation, bind_eq_ok, pure_eq_ok,
    require_eq_ok, demand_eq_ok, exists_const]
  simp only [SIGNED_REVOCATION_CFG, CoreAttestation.SIGNED_ATTESTATION_SCHEMES, List.mem_singleton, scheme_iff,
    serializeRevocation, bind_eq_ok, pure_eq_ok, validateRevocation_eq_ok]
  constructor
  · rintro ⟨h₁, h₂, h₃, h₄, a, h₅, st, h₆, r, h₇, _, ⟨_, _, rfl⟩, h₈, h₉, _, ⟨h₁₀, rfl⟩, b, h₁₁, c, h₁₂, h₁₃, rfl⟩
    exact ⟨h₁, h₂, h₃, h₄, h₅, ⟨st, h₆, h₇, h₈⟩, h₉, ⟨h₁₀, rfl⟩, h₁₁, signature_iff.mp ⟨h₁₂, by simpa using h₁₃⟩⟩
  · intro h
    obtain ⟨st, hp, hs, hc⟩ := h.statement
    obtain ⟨hx, hi⟩ := signature_iff.mpr h.signature
    exact ⟨h.isObject, h.kind, h.version, h.note, _, h.attestation, st, hp, _, hs, _, ⟨_, hs, rfl⟩, hc, h.block, _,
      h.scheme, _, h.signer, _, hx, .inr hi, rfl⟩

end CoreRevocation

namespace RevocationCore

theorem validateSignedRevocation_eq_ok :
    validateSignedRevocation syntaxError obj = .ok s ↔ Container obj s := by
  simp only [validateSignedRevocation, parseCanonicalInstant, bind_eq_ok, pure_eq_ok, require_eq_ok, demand_eq_ok, canonicalInstant_eq_ok, successor_eq_ok, exists_const, scheme_iff]
  constructor
  · rintro ⟨h₁, h₂, h₃, h₄, a, h₅, h₆, e, h₇, b, h₈, c, h₉, st, h₁₀, k₁, k₂, k₃, k₄, k₅, v, k₆, r, k₇, t, k₈, u, k₉, h, rfl⟩
    exact ⟨h₁, h₂, h₃, h₄, h₅, ⟨st, h₁₀, ⟨k₁, k₂, k₃, k₄, k₅, k₆, k₇, k₈, k₉⟩, h⟩, h₆, h₇, h₈, h₉⟩
  · intro h
    obtain ⟨st, hp, hs, hc⟩ := h.statement
    exact ⟨h.isObject, h.kind, h.version, h.note, _, h.attestation, h.block, _, h.scheme, _, h.signer, _,
      h.signature, st, hp, hs.isObject, hs.closed, hs.kind, hs.version, hs.note, _, hs.vendorAddress, _, hs.reason,
      ⟨_, s.embedded.canonical⟩, hs.revokedAt, _, hs.supersededBy, hc, rfl⟩

end RevocationCore

section

variable {verifyMessage recoverPersonalSignAddress : JsString → JsString → Option JsString}

-- No signer is named like the mark of a signature which recovers to none.
theorem unrecoverable_ne (h : address? v = some s) : RevocationCore.UNRECOVERABLE ≠ Hex.toLowerCase s := by
  intro he
  have hl : s.length = 42 := by
    have := (Option.filter_eq_some_iff.mp h).right
    rw [isAddress, decide_eq_true_eq] at this
    exact this.left
  have := congrArg List.length he
  rw [Hex.toLowerCase, List.length_map, hl] at this
  exact absurd this (by decide)

-- The readers accept the same containers, and return the same.
theorem verifyRevocation_agrees
    (agree : ∀ message signature,
      (verifyMessage message signature).map Hex.toLowerCase = recoverPersonalSignAddress message signature)
    (entry : Value) :
    (CoreRevocation.verifyRevocation syntaxError verifyMessage entry).toOption =
      (RevocationCore.verifyRevocation syntaxError recoverPersonalSignAddress entry).toOption := by
  have hv : (CoreRevocation.validateSignedRevocation syntaxError entry).toOption =
      (RevocationCore.validateSignedRevocation syntaxError entry).toOption := by
    ext s
    rw [toOption_eq_some, toOption_eq_some, CoreRevocation.validateSignedRevocation_eq_ok,
      RevocationCore.validateSignedRevocation_eq_ok]
  rw [CoreRevocation.verifyRevocation, RevocationCore.verifyRevocation]
  cases hp : RevocationCore.validateSignedRevocation syntaxError entry
  case error =>
    rw [hp] at hv
    cases hc : CoreRevocation.validateSignedRevocation syntaxError entry
    case error => rfl
    case ok    => simp [hc, Except.toOption] at hv
  case ok s =>
    have hc := RevocationCore.validateSignedRevocation_eq_ok.mp hp
    rw [CoreRevocation.validateSignedRevocation_eq_ok.mpr hc, ok_bind, ok_bind]
    have ha := agree s.attestation s.signature
    have hn := unrecoverable_ne hc.signer
    rw [CoreAttestation.verifySignedAttestation, CoreAttestation.recoverSigner, ha]
    cases recoverPersonalSignAddress s.attestation s.signature
    case none =>
      simp only [Option.getD_none, hn]
      rfl
    case some => simp only [Option.getD_some, decide_eq_true_eq]

-- A classification without the text of its warning.
def Classification.plain : Classification → Classification
  | ignored _ => ignored []
  | c         => c

-- What is compared of two decisions: all but the texts of the warnings.
def Decision.verdict (d : Decision) : Status × Option Revocation × Option Revocation × ℕ × ℕ × ℕ × ℕ × ℕ :=
  (d.status, d.governing, d.laterRevoked, d.total, d.applicable, d.later, d.irrelevant, d.ignored.length)

theorem filterMap_plain {f : Classification → Option α} (hf : ∀ c, f c.plain = f c) (cs : List Classification) :
    (cs.map Classification.plain).filterMap f = cs.filterMap f := by
  rw [List.filterMap_map]
  exact List.filterMap_congr fun c _ => hf c

theorem count_plain (cs : List Classification) :
    (cs.map Classification.plain).count .irrelevant = cs.count .irrelevant := by
  induction cs
  case nil => rfl
  case cons c _ ih => cases c <;> simp [Classification.plain, ih]

theorem length_warnings (cs : List Classification) :
    ((cs.map Classification.plain).filterMap (·.warning?)).length = (cs.filterMap (·.warning?)).length := by
  induction cs
  case nil => rfl
  case cons c _ ih => cases c <;> simpa [Classification.plain, Classification.warning?] using ih

theorem verdict_congr {cs cs' : List Classification} (h : cs.map Classification.plain = cs'.map Classification.plain) :
    (decisionOf s asOf n cs).verdict = (decisionOf s asOf n cs').verdict := by
  have ha (c : Classification) : c.plain.applicable? = c.applicable? := by cases c <;> rfl
  have hl (c : Classification) : c.plain.later? = c.later? := by cases c <;> rfl
  have ha' := congrArg (List.filterMap (·.applicable?)) h
  have hl' := congrArg (List.filterMap (·.later?)) h
  have hc' := congrArg (List.count Classification.irrelevant) h
  have hw' := congrArg (fun cs => (List.filterMap (·.warning?) cs).length) h
  rw [filterMap_plain ha, filterMap_plain ha] at ha'
  rw [filterMap_plain hl, filterMap_plain hl] at hl'
  rw [count_plain, count_plain] at hc'
  simp only [length_warnings] at hw'
  simp only [Decision.verdict, decisionOf, ha', hl', hc', hw']

section

variable {f g : Value → Except JsString Verification}

theorem classifyRevocation_congr (h : (f entry).toOption = (g entry).toOption) :
    (classifyRevocation f entry subject asOfMs).map Classification.plain =
      (classifyRevocation g entry subject asOfMs).map Classification.plain := by
  rw [classifyRevocation, classifyRevocation]
  cases hf : f entry <;> cases hg : g entry <;> simp only [hf, hg, Except.toOption, reduceCtorEq,
    Option.some.injEq] at h
  case ok.ok       => rw [h]
  case error.error =>
    split_ifs
    · rfl
    · rfl

-- A decision does not depend on the texts of the errors of the oracle, up to the texts of its warnings.
theorem evaluateTrustAsOf_congr (h : ∀ entry, (f entry).toOption = (g entry).toOption) :
    (evaluateTrustAsOf syntaxError f subject asOf revocations).map Decision.verdict =
      (evaluateTrustAsOf syntaxError g subject asOf revocations).map Decision.verdict := by
  rw [evaluateTrustAsOf, evaluateTrustAsOf]
  cases subject.toString?.filter (· ≠ [])
  case none => rfl
  case some s =>
    dsimp only
    cases parseAsOf asOf
    case error => rfl
    case ok ms =>
      cases normalizeRevocationsInput syntaxError revocations
      case error => rfl
      case ok entries =>
        have hc : ∀ entry ∈ entries, (classifyRevocation f entry s ms).map Classification.plain =
            (classifyRevocation g entry s ms).map Classification.plain := fun entry _ =>
          classifyRevocation_congr (h entry)
        have hm := map_mapM_congr hc
        simp only [ok_bind]
        cases hf : entries.mapM fun entry => classifyRevocation f entry s ms <;>
          cases hg : entries.mapM fun entry => classifyRevocation g entry s ms <;>
          simp only [hf, hg, Except.map, reduceCtorEq, Except.ok.injEq, Except.error.injEq] at hm
        case error.error => simp [hm, Except.map]
        case ok.ok       => exact congrArg Except.ok <| verdict_congr hm

end

-- The two readers agree: they throw on the same inputs, and otherwise return the same decision, up to
-- the texts of their warnings.
theorem evaluateTrustAsOf_agrees (syntaxError : JsString → JsString)
    (verifyMessage recoverPersonalSignAddress : JsString → JsString → Option JsString)
    (agree : ∀ message signature,
      (verifyMessage message signature).map Hex.toLowerCase = recoverPersonalSignAddress message signature)
    (subject asOf revocations : Value) :
    (evaluateTrustAsOf syntaxError (CoreRevocation.verifyRevocation syntaxError verifyMessage) subject asOf
      revocations).map Decision.verdict =
    (evaluateTrustAsOf syntaxError (RevocationCore.verifyRevocation syntaxError recoverPersonalSignAddress) subject asOf
      revocations).map Decision.verdict :=
  evaluateTrustAsOf_congr fun entry => verifyRevocation_agrees agree entry

end

-- A revocation of the key of `signer`, whose signature is all zero, so that no signer is recovered.
def unbacked : Value :=
  let statement := object [
    (js "kind", string REVOCATION_KIND),
    (js "schemaVersion", nat 1),
    (js "note", string REVOCATION_TRUST_NOTE),
    (js "vendorAddress", string signer),
    (js "reason", string <| js "compromised"),
    (js "revokedAt", string <| js "2026-01-01T00:00:00.000Z")
  ]
  object [
    (js "kind", string SIGNED_REVOCATION_KIND),
    (js "schemaVersion", nat 1),
    (js "note", string SIGNED_REVOCATION_TRUST_NOTE),
    (js "attestation", string <| canonicalText statement),
    (js "signature", object [
      (js "scheme", string EIP191),
      (js "signer", string signer),
      (js "signature", string <| js "0x" ++ List.replicate 130 48)
    ])
  ]

theorem evaluateTrustAsOf_agrees_unbacked :
    (evaluateTrustAsOf id (CoreRevocation.verifyRevocation id fun _ _ => none) (string signer)
      (string <| js "2026-02-01T00:00:00.000Z") (.array [unbacked])).map Decision.verdict =
    (evaluateTrustAsOf id (RevocationCore.verifyRevocation id fun _ _ => none) (string signer)
      (string <| js "2026-02-01T00:00:00.000Z") (.array [unbacked])).map Decision.verdict :=
  evaluateTrustAsOf_agrees id (fun _ _ => none) (fun _ _ => none) (fun _ _ => rfl) ..

end TrustAsOf
