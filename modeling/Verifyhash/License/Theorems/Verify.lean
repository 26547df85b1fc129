import Verifyhash.License.Theorems.Payload
import Verifyhash.License.Verify
import Verifyhash.Trust.Theorems.Revocation

namespace CoreLicense

open Value Json Fallible Checks CoreAttestation TrustAsOf

-- The license whose flags are in the order in which they are serialized.
def License.canonical (l : License) (cfg : Cfg) : License :=
  { l with entitlements := (entitlementFlags cfg).filter (· ∈ l.entitlements) }

-- The payload which a license of some version is serialized to.
def standard (cfg : Cfg) (version : ℕ) (l : License) : Value :=
  object [
    (js "kind", string cfg.kind),
    (js "schemaVersion", nat version),
    (js "note", string cfg.note),
    (js "licenseId", string l.licenseId),
    (js "customer", string l.customer),
    (js "plan", string l.plan),
    (js "entitlements", ofStrings (l.canonical cfg).entitlements),
    (js "issuedAt", string l.issuedAt.text),
    (js "expiresAt", string l.expiresAt.text)
  ]

def textOf (cfg : Cfg) (version : ℕ) (l : License) : JsString :=
  render (tidy ownOrder <| standard cfg version l) ++ js "\n"

section

variable {cfg : Cfg} {obj : Value} {l : License} {n : ℕ}

theorem tidy_version {v : Value} (h : v.toInt? = some (n : ℤ)) : tidy ownOrder v = tidy ownOrder (nat n) := by
  rcases eq_of_toInt? h with rfl | ⟨rfl, rfl⟩
  · rfl
  · simp [tidy, nat, Number.ofNat]

-- Every valid payload is serialized like the standard one of its license.
theorem serializeLicense_eq_textOf (h : IsLicense obj cfg l) (hn : (obj.get "schemaVersion").toInt? = some (n : ℤ)) :
    serializeLicense obj cfg = .ok (textOf cfg n l) := by
  have ht : tidy ownOrder (canonicalPayload obj l cfg) = tidy ownOrder (standard cfg n l) := by
    simp only [canonicalPayload, standard, tidy, tidyFields_eq, List.map_cons, List.map_nil,
      tidyField_congr (tidy_version hn), h.kind, h.note, h.licenseId.left, h.customer.left, h.plan.left, h.issuedAt,
      h.expiresAt]
    rfl
  rw [serializeLicense_eq_ok h, ht, textOf]

theorem serializable_standard (hn : Double.IsDouble n) : Serializable (standard cfg n l) := by
  refine .of_fields fun f hf _ => ?_
  simp only [List.mem_cons, List.not_mem_nil, or_false] at hf
  rcases hf with rfl | rfl | rfl | rfl | rfl | rfl | rfl | rfl | rfl
  case inr.inl => exact .number hn
  case inr.inr.inr.inr.inr.inr.inl =>
    refine .array fun v hv => ?_
    obtain ⟨s, -, rfl⟩ := List.mem_map.mp hv
    exact .string
  all_goals exact .string

theorem parse_textOf (hn : Double.IsDouble n) :
    parse (textOf cfg n l) = some (tidy ownOrder <| standard cfg n l) :=
  parse_render_line <| plain_tidy ownOrder_perm <| serializable_standard hn

theorem mem_canonical (h : IsLicense obj cfg l) : f ∈ (l.canonical cfg).entitlements ↔ f ∈ l.entitlements := by
  simp only [License.canonical, List.mem_filter, decide_eq_true_eq, entitlementFlags, mem_sorted]
  exact ⟨And.right, fun hf => ⟨h.allowed f hf, hf⟩⟩

theorem canonical_canonical : (l.canonical cfg).canonical cfg = l.canonical cfg := by
  simp only [License.canonical, List.mem_filter, decide_eq_true_eq]
  congr 1
  exact List.filter_congr fun f hf => by simp [hf]

theorem tidy_ofStrings (ss : List JsString) : tidy ownOrder (ofStrings ss) = ofStrings ss := by
  simp [ofStrings, tidy, Function.comp_def]

-- What has been serialized is a valid payload itself.
theorem isLicense_standard (h : IsLicense obj cfg l) (hm : n ∈ cfg.supportedSchemaVersions) :
    IsLicense (tidy ownOrder <| standard cfg n l) cfg (l.canonical cfg) where
  isObject     := by rw [isObject_tidy]; rfl
  kind         := by rw [get_tidy ownOrder_perm]; rfl
  version      := by
    rw [get_tidy ownOrder_perm, supports, List.any_eq_true]
    refine ⟨n, hm, ?_⟩
    rw [toInt?_tidy]
    simp [show (standard cfg n l).get "schemaVersion" = nat n from rfl]
  note         := by rw [get_tidy ownOrder_perm]; rfl
  licenseId    := ⟨by rw [get_tidy ownOrder_perm]; rfl, h.licenseId.right⟩
  customer     := ⟨by rw [get_tidy ownOrder_perm]; rfl, h.customer.right⟩
  plan         := ⟨by rw [get_tidy ownOrder_perm]; rfl, h.plan.right⟩
  entitlements := by
    refine ⟨by rw [get_tidy ownOrder_perm]; exact tidy_ofStrings _, ?_⟩
    obtain ⟨f, hf⟩ := List.exists_mem_of_ne_nil _ h.entitlements.right
    exact List.ne_nil_of_mem <| (mem_canonical h).mpr hf
  allowed      := fun f hf => h.allowed f <| (mem_canonical h).mp hf
  distinct     := (nodup_sorted cfg.distinct).filter _
  issuedAt     := by rw [get_tidy ownOrder_perm]; rfl
  expiresAt    := by rw [get_tidy ownOrder_perm]; rfl

end

-- The agreement of two payloads on every declared field, up to the order of the entitlements.
structure Agree (a b : Value) : Prop where
  same         : ∀ key ∈ ["kind", "note", "licenseId", "customer", "plan", "issuedAt", "expiresAt"],
    a.get key = b.get key
  version      : (a.get "schemaVersion").toInt? = (b.get "schemaVersion").toInt?
  entitlements : ∃ es fs, a.get "entitlements" = array es ∧ b.get "entitlements" = array fs ∧ es.Perm fs

section

variable {cfg : Cfg} {a b : Value} {k l : License} {n m : ℕ}

theorem agree_of_textOf (ha : IsLicense a cfg l) (hb : IsLicense b cfg k)
    (hn : (a.get "schemaVersion").toInt? = some (n : ℤ)) (hm : (b.get "schemaVersion").toInt? = some (m : ℤ))
    (dn : Double.IsDouble n) (dm : Double.IsDouble m) (h : textOf cfg n l = textOf cfg m k) : Agree a b := by
  have hp := congrArg parse h
  rw [parse_textOf dn, parse_textOf dm, Option.some.injEq] at hp
  have get (key : String) : tidy ownOrder ((standard cfg n l).get key) =
      tidy ownOrder ((standard cfg m k).get key) := by
    rw [←get_tidy ownOrder_perm, hp, get_tidy ownOrder_perm]
  have hi : string l.licenseId = string k.licenseId := get "licenseId"
  have hc : string l.customer = string k.customer := get "customer"
  have hpl : string l.plan = string k.plan := get "plan"
  have hs : string l.issuedAt.text = string k.issuedAt.text := get "issuedAt"
  have hx : string l.expiresAt.text = string k.expiresAt.text := get "expiresAt"
  have he : ofStrings (l.canonical cfg).entitlements = ofStrings (k.canonical cfg).entitlements := by
    rw [←tidy_ofStrings, ←tidy_ofStrings (k.canonical cfg).entitlements]
    exact get "entitlements"
  refine ⟨?_, ?_, ?_⟩
  case refine_1 =>
    simp only [List.forall_mem_cons, List.not_mem_nil, false_imp_iff, implies_true, and_true]
    rw [ha.kind, hb.kind, ha.note, hb.note, ha.licenseId.left, hb.licenseId.left, ha.customer.left, hb.customer.left,
      ha.plan.left, hb.plan.left, ha.issuedAt, hb.issuedAt, ha.expiresAt, hb.expiresAt]
    exact ⟨rfl, rfl, hi, hc, hpl, hs, hx⟩
  case refine_2 =>
    have hv := congrArg toInt? <| get "schemaVersion"
    rw [toInt?_tidy, toInt?_tidy] at hv
    have hv : (nat n).toInt? = (nat m).toInt? := hv
    rw [toInt?_nat, toInt?_nat] at hv
    rw [hn, hm, hv]
  case refine_3 =>
    have he := List.map_injective_iff.mpr (fun _ _ => string.inj) <| array.inj he
    refine ⟨_, _, ha.entitlements.left, hb.entitlements.left, List.Perm.map _ ?_⟩
    refine (List.perm_ext_iff_of_nodup ha.distinct hb.distinct).mpr fun f => ?_
    rw [←mem_canonical ha, he, mem_canonical hb]

theorem textOf_of_agree (ha : IsLicense a cfg l) (hb : IsLicense b cfg k) (h : Agree a b) :
    textOf cfg n l = textOf cfg n k := by
  have same := h.same
  simp only [List.forall_mem_cons, List.not_mem_nil, false_imp_iff, implies_true, and_true] at same
  rw [ha.kind, hb.kind, ha.note, hb.note, ha.licenseId.left, hb.licenseId.left, ha.customer.left, hb.customer.left,
    ha.plan.left, hb.plan.left, ha.issuedAt, hb.issuedAt, ha.expiresAt, hb.expiresAt] at same
  obtain ⟨-, -, hi, hc, hp, hs, hx⟩ := same
  obtain ⟨es, fs, hes, hfs, hperm⟩ := h.entitlements
  rw [ha.entitlements.left] at hes
  rw [hb.entitlements.left] at hfs
  rw [←array.inj hes, ←array.inj hfs] at hperm
  have he : (l.canonical cfg).entitlements = (k.canonical cfg).entitlements := by
    refine List.filter_congr fun f _ => ?_
    have : string f ∈ l.entitlements.map string ↔ string f ∈ k.entitlements.map string := hperm.mem_iff
    simpa using this
  rw [textOf, textOf, standard, standard, he, hi, hc, hp, hs, hx]

-- Two valid payloads have the same bytes if and only if they agree.
theorem serializeLicense_eq_iff (ha : IsLicense a cfg l) (hb : IsLicense b cfg k) :
    serializeLicense a cfg = serializeLicense b cfg ↔ Agree a b := by
  obtain ⟨n, hn, hvn⟩ := exists_version ha.version
  obtain ⟨m, hm, hvm⟩ := exists_version hb.version
  rw [serializeLicense_eq_textOf ha hvn, serializeLicense_eq_textOf hb hvm, Except.ok.injEq]
  constructor
  case mp => exact agree_of_textOf ha hb hvn hvm (cfg.versions n hn) (cfg.versions m hm)
  case mpr =>
    intro h
    have hv := h.version
    rw [hvn, hvm, Option.some.injEq, Nat.cast_inj] at hv
    rw [←hv]
    exact textOf_of_agree ha hb h

end

-- A container which is structurally sound, but for what it embeds.
structure Sound (cfg : SignedFraming) (container : Value) (attestation signer signature : JsString) : Prop where
  isObject    : container.isObject
  kind        : container.get "kind" = string cfg.signedKind
  version     : supports cfg.supportedSignedSchemaVersions (container.get "schemaVersion")
  note        : container.get "note" = string cfg.signedNote
  attestation : container.get "attestation" = string attestation
  block       : (container.get "signature").isObject
  scheme      : (container.get "signature").get "scheme" = string EIP191
  signer      : address? ((container.get "signature").get "signer") = some signer
  signature   : ((container.get "signature").get "signature").toString?.filter isSignature = some signature

section

variable {syntaxError : JsString → JsString} {cfg : SignedFraming} {container : Value}

theorem validateSignedAttestation_eq_ok : validateSignedAttestation syntaxError container (signedCfg cfg) = .ok s ↔
    Sound cfg container s.attestation s.signer s.signature ∧ s.scheme = EIP191 ∧
      ∃ payload, parse s.attestation = some payload ∧ IsLicense payload cfg.toCfg s.embedded ∧
        serializeLicense payload cfg.toCfg = .ok s.attestation := by
  simp only [validateSignedAttestation, bind_eq_ok, pure_eq_ok, require_eq_ok, demand_eq_ok, exists_const]
  simp only [signedCfg, SIGNED_ATTESTATION_SCHEMES, List.mem_singleton, scheme_iff, validateLicense_eq_ok,
    toString?_eq_some]
  constructor
  case mp =>
    rintro ⟨h₁, h₂, h₃, h₄, a, h₅, p, h₆, l, h₇, _, h₈, rfl, h₉, _, ⟨h₁₀, rfl⟩, b, h₁₁, c, h₁₂, h₁₃, rfl⟩
    exact ⟨⟨h₁, h₂, h₃, h₄, h₅, h₉, h₁₀, h₁₁, signature_iff.mp ⟨h₁₂, by simpa using h₁₃⟩⟩, rfl, p, h₆, h₇, h₈⟩
  case mpr =>
    rintro ⟨h, hs, p, hp, hl, ht⟩
    obtain ⟨hx, hi⟩ := signature_iff.mpr h.signature
    obtain ⟨_, _, scheme, _, _⟩ := s
    cases hs
    exact ⟨h.isObject, h.kind, h.version, h.note, _, h.attestation, p, hp, _, hl, _, ht, rfl, h.block, _,
      ⟨h.scheme, rfl⟩, _, h.signer, _, hx, .inr hi, rfl⟩

-- The bytes of any valid payload embed a payload which is valid itself.
theorem exists_embedded {payload : Value} (h : IsLicense payload cfg.toCfg l)
    (ht : serializeLicense payload cfg.toCfg = .ok text) :
    ∃ p, parse text = some p ∧ IsLicense p cfg.toCfg (l.canonical cfg.toCfg) ∧
      serializeLicense p cfg.toCfg = .ok text := by
  obtain ⟨n, hn, hv⟩ := exists_version h.version
  rw [serializeLicense_eq_textOf h hv, Except.ok.injEq] at ht
  obtain rfl := ht
  have hl := isLicense_standard h hn
  refine ⟨_, parse_textOf <| cfg.versions n hn, hl, ?_⟩
  have hv : ((tidy ownOrder <| standard cfg.toCfg n l).get "schemaVersion").toInt? = some (n : ℤ) := by
    rw [get_tidy ownOrder_perm, toInt?_tidy]
    exact toInt?_nat
  rw [serializeLicense_eq_textOf hl hv, textOf, textOf, standard, standard, canonical_canonical]
  rfl

theorem readContainer_eq_ok : readContainer syntaxError container cfg = .ok (s, p, l) ↔
    validateSignedAttestation syntaxError container (signedCfg cfg) = .ok s ∧ parse s.attestation = some p ∧
      IsLicense p cfg.toCfg l := by
  simp only [readContainer, bind_eq_ok, demand_eq_ok, validateLicense_eq_ok, pure_eq_ok, Prod.mk.injEq]
  constructor
  · rintro ⟨_, hs, _, hp, _, hl, rfl, rfl, rfl⟩
    exact ⟨hs, hp, hl⟩
  · rintro ⟨hs, hp, hl⟩
    exact ⟨_, hs, _, hp, _, hl, rfl, rfl, rfl⟩

end

section

variable (syntaxError : JsString → JsString) (verifyMessage : JsString → JsString → Option JsString)
  (cfg : SignedFraming)

-- The checks of a sound container. A signature which recovers to no address is `none` for the recovery.
structure Passes (attestation signer signature : JsString) (l : License) (vendorLc : JsString) (now : ℤ) : Prop where
  recovers  : (verifyMessage attestation signature).map Hex.toLowerCase = some (Hex.toLowerCase signer)
  vendor    : Hex.toLowerCase signer = vendorLc
  issuedAt  : l.issuedAt.ms ≤ now
  expiresAt : now ≤ l.expiresAt.ms

-- What the vendor has signed: the bytes of a valid payload, in a sound container, within its window.
def Entitles (container : Value) (vendorLc : JsString) (now : ℤ) (l : License) : Prop :=
  ∃ attestation signer signature payload, Sound cfg container attestation signer signature ∧
    validateLicense payload cfg.toCfg = .ok l ∧ serializeLicense payload cfg.toCfg = .ok attestation ∧
    Passes verifyMessage attestation signer signature l vendorLc now

variable {syntaxError verifyMessage cfg} {getAddress : JsString → Option JsString} {container : Value} {now : ℤ}

theorem verifySignedAttestation_spec {s : Signed License} {att : SignerCheck}
    (h : verifySignedAttestation verifyMessage s = att) :
    (att.signatureMatchesSigner ↔
      (verifyMessage s.attestation s.signature).map Hex.toLowerCase = some (Hex.toLowerCase s.signer)) ∧
    (att.signatureMatchesSigner → att.recoveredSigner = Hex.toLowerCase s.signer) := by
  rw [verifySignedAttestation, recoverSigner] at h
  cases hm : (verifyMessage s.attestation s.signature).map Hex.toLowerCase <;> rw [hm] at h <;> subst h <;> simp

-- Every check of a container has its own reason.
theorem verifyLicense_cases (container : Value) (now : ℤ) (hv : getAddress vendorAddress = some address) :
    ∃ verdict, verifyLicense syntaxError verifyMessage getAddress container now vendorAddress cfg = .ok verdict ∧
      ((∃ s p l, readContainer syntaxError container cfg = .ok (s, p, l) ∧
        Passes verifyMessage s.attestation s.signer s.signature l (Hex.toLowerCase address) now ∧
        verdict.valid ∧ verdict.entitlements = l.entitlements) ∨
      (verdict.valid = false ∧ ∀ s p l, readContainer syntaxError container cfg = .ok (s, p, l) →
        ¬ Passes verifyMessage s.attestation s.signer s.signature l (Hex.toLowerCase address) now)) := by
  rw [verifyLicense, demand_eq_ok.mpr hv, ok_bind]
  cases hr : readContainer syntaxError container cfg
  case error => exact ⟨_, rfl, .inr ⟨rfl, by rintro _ _ _ ⟨⟩⟩⟩
  case ok r =>
    obtain ⟨s, p, l⟩ := r
    simp only
    generalize ha : verifySignedAttestation verifyMessage s = att
    obtain ⟨hm, hrec⟩ := verifySignedAttestation_spec ha
    by_cases hs : att.signatureMatchesSigner
    case neg =>
      rw [if_pos hs]
      refine ⟨_, rfl, .inr ⟨rfl, ?_⟩⟩
      rintro _ _ _ ⟨⟩ hp
      exact hs <| hm.mpr hp.recovers
    rw [if_neg (not_not_intro hs)]
    by_cases hv : att.recoveredSigner = Hex.toLowerCase address
    case neg =>
      rw [if_pos hv]
      refine ⟨_, rfl, .inr ⟨rfl, ?_⟩⟩
      rintro _ _ _ ⟨⟩ hp
      exact hv <| (hrec hs).trans hp.vendor
    rw [if_neg (not_not_intro hv)]
    by_cases hi : now < l.issuedAt.ms
    case pos =>
      rw [if_pos hi]
      refine ⟨_, rfl, .inr ⟨rfl, ?_⟩⟩
      rintro _ _ _ ⟨⟩ hp
      exact absurd hp.issuedAt <| not_le.mpr hi
    rw [if_neg hi]
    by_cases hx : now > l.expiresAt.ms
    case pos =>
      rw [if_pos hx]
      refine ⟨_, rfl, .inr ⟨rfl, ?_⟩⟩
      rintro _ _ _ ⟨⟩ hp
      exact absurd hp.expiresAt <| not_le.mpr hx
    rw [if_neg hx]
    have passes : Passes verifyMessage s.attestation s.signer s.signature l (Hex.toLowerCase address) now :=
      ⟨hm.mp hs, (hrec hs).symm.trans hv, not_lt.mp hi, not_lt.mp hx⟩
    exact ⟨_, rfl, .inl ⟨s, p, l, rfl, passes, rfl, rfl⟩⟩

theorem entitles_of_readContainer (hr : readContainer syntaxError container cfg = .ok (s, p, l))
    (h : Passes verifyMessage s.attestation s.signer s.signature l vendorLc now) :
    Entitles verifyMessage cfg container vendorLc now l := by
  obtain ⟨hs, hp, hl⟩ := readContainer_eq_ok.mp hr
  obtain ⟨hs, -, q, hq, -, ht⟩ := validateSignedAttestation_eq_ok.mp hs
  rw [hp, Option.some.injEq] at hq
  exact ⟨_, _, _, p, hs, validateLicense_eq_ok.mpr hl, hq ▸ ht, h⟩

-- The container embeds the payload whose bytes are signed, up to the order of its entitlements.
theorem readContainer_of_entitles (syntaxError : JsString → JsString)
    (h : Entitles verifyMessage cfg container vendorLc now l) :
    ∃ s p, readContainer syntaxError container cfg = .ok (s, p, l.canonical cfg.toCfg) ∧
      Passes verifyMessage s.attestation s.signer s.signature (l.canonical cfg.toCfg) vendorLc now := by
  obtain ⟨attestation, signer, signature, payload, hs, hl, ht, h⟩ := h
  obtain ⟨p, hp, hc, hq⟩ := exists_embedded (validateLicense_eq_ok.mp hl) ht
  let s : Signed License := { attestation, embedded := l.canonical cfg.toCfg, scheme := EIP191, signer, signature }
  have hv : validateSignedAttestation syntaxError container (signedCfg cfg) = .ok s :=
    validateSignedAttestation_eq_ok.mpr ⟨hs, rfl, p, hp, hc, hq⟩
  exact ⟨s, p, readContainer_eq_ok.mpr ⟨hv, hp, hc⟩, ⟨h.recovers, h.vendor, h.issuedAt, h.expiresAt⟩⟩

theorem exists_verdict (container : Value) (now : ℤ) (hv : getAddress vendorAddress = some address) :
    ∃ verdict, verifyLicense syntaxError verifyMessage getAddress container now vendorAddress cfg = .ok verdict ∧
      (verdict.valid ↔ ∃ l, Entitles verifyMessage cfg container (Hex.toLowerCase address) now l) ∧
      ∀ l, Entitles verifyMessage cfg container (Hex.toLowerCase address) now l →
        ∀ f, f ∈ verdict.entitlements ↔ f ∈ l.entitlements := by
  obtain ⟨verdict, h, hc⟩ := verifyLicense_cases container now hv
  refine ⟨verdict, h, ?_⟩
  rcases hc with ⟨s, p, l, hr, hp, hvalid, he⟩ | ⟨hvalid, hn⟩
  case inl =>
    refine ⟨iff_of_true hvalid ⟨l, entitles_of_readContainer hr hp⟩, fun k hk f => ?_⟩
    obtain ⟨_, _, hr', -⟩ := readContainer_of_entitles syntaxError hk
    obtain ⟨_, _, _, _, _, hl, _⟩ := hk
    rw [hr, Except.ok.injEq, Prod.mk.injEq, Prod.mk.injEq] at hr'
    rw [he, hr'.right.right, mem_canonical <| validateLicense_eq_ok.mp hl]
  case inr =>
    have hne (l : License) : ¬ Entitles verifyMessage cfg container (Hex.toLowerCase address) now l := by
      intro h
      obtain ⟨s, p, hr, hp⟩ := readContainer_of_entitles syntaxError h
      exact hn _ _ _ hr hp
    exact ⟨iff_of_false (by simp [hvalid]) <| not_exists.mpr hne, fun l h => absurd h <| hne l⟩

end

-- The instants which a `Date` can be.
abbrev DateMs : Type :=
  { ms : ℤ // -8640000000000000 ≤ ms ∧ ms ≤ 8640000000000000 }

-- The payloads which the validator accepts.
abbrev Accepted (cfg : Cfg) : Type :=
  { obj : Value // (validateLicense obj cfg).toOption.isSome }

-- A license entitles to what the vendor has signed, when it is valid, and the bytes of a payload determine what
-- it declares.
theorem verifyLicense_correct (syntaxError : JsString → JsString)
    (verifyMessage : JsString → JsString → Option JsString) (getAddress : JsString → Option JsString)
    (cfg : SignedFraming) :
    (∀ (container : Value) (vendorAddress : { s // (getAddress s).isSome }) (now : DateMs),
      ∃ verdict,
        verifyLicense syntaxError verifyMessage getAddress container now vendorAddress cfg = .ok verdict ∧
        let Signed := Entitles verifyMessage cfg container
          (Hex.toLowerCase <| (getAddress vendorAddress).get vendorAddress.property) now
        (verdict.valid ↔ ∃ l, Signed l) ∧
        ∀ flag, hasEntitlement verdict flag ↔ verdict.valid ∧ ∃ l f, Signed l ∧ flag = string f ∧ f ∈ l.entitlements) ∧
    ∀ a b : Accepted cfg.toCfg,
      serializeLicense a cfg.toCfg = serializeLicense b cfg.toCfg ↔ Agree a.val b.val := by
  constructor
  case left =>
    intro container vendorAddress now
    obtain ⟨verdict, h, hv, he⟩ := exists_verdict container now.val (Option.some_get vendorAddress.property).symm
    refine ⟨verdict, h, hv, fun flag => ?_⟩
    constructor
    case mp =>
      intro hf
      cases flag
      case string f =>
        rw [hasEntitlement, decide_eq_true_eq] at hf
        obtain ⟨l, hl⟩ := hv.mp hf.left
        exact ⟨hf.left, l, f, hl, rfl, (he l hl f).mp hf.right⟩
      all_goals cases hf
    case mpr =>
      rintro ⟨hvalid, l, f, hl, rfl, hf⟩
      rw [hasEntitlement, decide_eq_true_eq]
      exact ⟨hvalid, (he l hl f).mpr hf⟩
  case right =>
    intro a b
    obtain ⟨l, hl⟩ := Option.isSome_iff_exists.mp a.property
    obtain ⟨k, hk⟩ := Option.isSome_iff_exists.mp b.property
    exact serializeLicense_eq_iff (validateLicense_eq_ok.mp <| toOption_eq_some.mp hl)
      (validateLicense_eq_ok.mp <| toOption_eq_some.mp hk)

end CoreLicense
