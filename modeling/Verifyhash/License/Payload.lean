import Verifyhash.Trust.Attestation

-- The unsigned payloads of licenses in `cli/core/license.js`.
namespace CoreLicense

open Value Json Checks CoreAttestation

-- The framing of a product, as far as it concerns unsigned payloads. It is what `_requireCfg` accepts, where
-- versions are numbers, and of the table of entitlements it has the keys.
structure Cfg where
  kind                    : JsString
  schemaVersion           : ℕ
  supportedSchemaVersions : List ℕ
  note                    : JsString
  entitlements            : List JsString
  named                   : kind ≠ []
  supported               : schemaVersion ∈ supportedSchemaVersions
  nonempty                : entitlements ≠ []
  distinct                : entitlements.Nodup
  versions                : ∀ n ∈ supportedSchemaVersions, Double.IsDouble n

def sorted (l : List JsString) : List JsString :=
  l.insertionSort (· ≤ ·)

def entitlementFlags (cfg : Cfg) : List JsString :=
  sorted cfg.entitlements

-- The flags which the elements of an array are, after those which have been seen.
structure Flags (table seen : List JsString) (elems : List Value) where
  flags    : List JsString
  elems_eq : elems = flags.map string
  allowed  : ∀ f ∈ flags, f ∈ table ∧ f ∉ seen
  distinct : flags.Nodup

def Flags.nil : Flags table seen [] where
  flags    := []
  elems_eq := rfl
  allowed  := by simp
  distinct := .nil

def Flags.cons (fs : Flags table (flag :: seen) elems) (hk : flag ∈ table) (hs : flag ∉ seen) :
    Flags table seen (string flag :: elems) where
  flags    := flag :: fs.flags
  elems_eq := by rw [List.map_cons, ←fs.elems_eq]
  allowed  := by
    rintro f (_ | ⟨_, hf⟩)
    · exact ⟨hk, hs⟩
    · exact ⟨(fs.allowed f hf).left, fun h => (fs.allowed f hf).right <| .tail _ h⟩
  distinct := List.nodup_cons.mpr ⟨fun h => (fs.allowed flag h).right <| .head _, fs.distinct⟩

theorem mem_sorted : f ∈ sorted l ↔ f ∈ l :=
  (List.perm_insertionSort _ l).mem_iff

theorem nodup_sorted (h : l.Nodup) : (sorted l).Nodup :=
  (List.perm_insertionSort _ l).nodup_iff.mpr h

theorem Flags.sorted_ne_nil (fs : Flags table seen (elem :: elems)) : sorted fs.flags ≠ [] := by
  intro h
  have hp := (List.perm_insertionSort (· ≤ ·) fs.flags).length_eq
  have hl := congrArg List.length fs.elems_eq
  rw [sorted] at h
  rw [h] at hp
  rw [List.length_map, ←hp] at hl
  cases hl

-- The loop over the entitlements, which the payloads and the plans check alike but for the messages.
def checkFlags (table : List JsString) (nonString unknown duplicate : Value → JsString) (seen : List JsString) :
    (elems : List Value) → Except JsString (Flags table seen elems)
  | []                   => .ok .nil
  | string flag :: elems =>
    if hk : flag ∈ table then
      if hs : flag ∈ seen then .error <| duplicate <| string flag
      else (checkFlags table nonString unknown duplicate (flag :: seen) elems).map fun flags => flags.cons hk hs
    else .error <| unknown <| string flag
  | v :: _               => .error <| nonString v

-- An instant whose text is canonical.
structure CanonicalInstant where
  text      : JsString
  ms        : ℤ
  canonical : Instant.canonical? text = some ms

structure License where
  licenseId    : JsString
  customer     : JsString
  plan         : JsString
  entitlements : List JsString
  issuedAt     : CanonicalInstant
  expiresAt    : CanonicalInstant
  later        : issuedAt.ms < expiresAt.ms

-- The elements of an array which has any.
def nonemptyArray? : Value → Option (List Value)
  | array (v :: vs) => some <| v :: vs
  | _               => none

def requireText (obj : Value) (field : String) : Except JsString JsString :=
  demand ((obj.get field).toString?.filter (· ≠ [])) <|
    js "license " ++ js field ++ js " must be a non-empty string"

def requireInstant (obj : Value) (field : String) : Except JsString CanonicalInstant := do
  let text ← demand ((obj.get field).toString?.filter Instant.isInstant) <| (obj.get field).toText.map fun text =>
    js "license " ++ js field ++ js " must be an ISO-8601 UTC instant (\"YYYY-MM-DDTHH:MM:SS(.mmm)Z\"), got: " ++
      text
  match canonical : Instant.canonical? text with
  | some ms => return { text, ms, canonical }
  | none    =>
    throw <| js "license " ++ js field ++ js (" must be a canonical ISO-8601 UTC instant " ++
      "(\"YYYY-MM-DDTHH:MM:SS.mmmZ\", millis required, no rolled-over/impossible fields), got: ") ++ text

def validateLicense (obj : Value) (cfg : Cfg) : Except JsString License := do
  require obj.isObject <| js "license payload must be a JSON object"
  require ((obj.get "kind").toString? = some cfg.kind) <|
    js "not a trustledger license (kind: " ++ shown (obj.get "kind") ++ js "; expected " ++
      shown (string cfg.kind) ++ js ")"
  require (supports cfg.supportedSchemaVersions <| obj.get "schemaVersion") <|
    js "unsupported license schemaVersion: " ++ shown (obj.get "schemaVersion") ++
      js " (this build understands " ++ shownVersions cfg.supportedSchemaVersions ++ js ")"
  require ((obj.get "note").toString? = some cfg.note) <|
    js "license `note` must be the standing LICENSE_TRUST_NOTE (caveat must not drift)"
  let licenseId ← requireText obj "licenseId"
  let customer ← requireText obj "customer"
  let plan ← requireText obj "plan"
  let elems ← demand (nonemptyArray? <| obj.get "entitlements") <|
    js "license `entitlements` must be a non-empty array of known flags"
  let flags ← checkFlags cfg.entitlements
    (js "license entitlement must be a string flag, got: " ++ shown ·)
    (js "unknown license entitlement: " ++ shown · ++ js " (this build understands " ++
      shown (ofStrings <| entitlementFlags cfg) ++ js ")")
    (js "license has a duplicate entitlement: " ++ shown ·) [] elems
  let issuedAt ← requireInstant obj "issuedAt"
  let expiresAt ← requireInstant obj "expiresAt"
  if later : issuedAt.ms < expiresAt.ms then
    return { licenseId, customer, plan, entitlements := flags.flags, issuedAt, expiresAt, later }
  else
    throw <| js "license expiresAt (" ++ expiresAt.text ++ js ") must be strictly AFTER issuedAt (" ++
      issuedAt.text ++ js ")"

-- The payload which is serialized, for one which is valid.
def canonicalPayload (payload : Value) (license : License) (cfg : Cfg) : Value :=
  object [
    (js "kind", payload.get "kind"),
    (js "schemaVersion", payload.get "schemaVersion"),
    (js "note", payload.get "note"),
    (js "licenseId", payload.get "licenseId"),
    (js "customer", payload.get "customer"),
    (js "plan", payload.get "plan"),
    (js "entitlements", ofStrings <| (entitlementFlags cfg).filter (· ∈ license.entitlements)),
    (js "issuedAt", payload.get "issuedAt"),
    (js "expiresAt", payload.get "expiresAt")
  ]

def serializeLicense (payload : Value) (cfg : Cfg) : Except JsString JsString := do
  let license ← validateLicense payload cfg
  return (stringify <| canonicalPayload payload license cfg).getD [] ++ js "\n"

-- The payload of the fields which a caller gives.
def payloadOf (params : Value) (cfg : Cfg) : Value :=
  object [
    (js "kind", string cfg.kind),
    (js "schemaVersion", nat cfg.schemaVersion),
    (js "note", string cfg.note),
    (js "licenseId", params.get "licenseId"),
    (js "customer", params.get "customer"),
    (js "plan", params.get "plan"),
    (js "entitlements", params.get "entitlements"),
    (js "issuedAt", params.get "issuedAt"),
    (js "expiresAt", params.get "expiresAt")
  ]

-- The error of the parser has no message here, since it parses what has been serialized.
def buildLicensePayload (params : Value) (cfg : Cfg) : Except JsString Value := do
  require params.isObject <| js <|
    "buildLicensePayload requires a \x7b licenseId, customer, plan, entitlements, issuedAt, expiresAt \x7d object"
  let _ ← validateLicense (payloadOf params cfg) cfg
  let text ← serializeLicense (payloadOf params cfg) cfg
  demand (parse text) none

end CoreLicense
