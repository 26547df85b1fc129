import Verifyhash.Trust.Attestation

-- What is asked of a revocation: by `cli/core/revocation.js` with the envelope of
-- `cli/core/attestation.js`, and by `verifier/lib/revocation-core.js`.
namespace TrustAsOf

open Value Json Checks CoreAttestation

def REVOCATION_KIND : JsString := js "vh-key-revocation"

def SIGNED_REVOCATION_KIND : JsString := js "vh-key-revocation-signed"

def REVOCATION_REASON_SET : List JsString :=
  [js "compromised", js "retired", js "rotated", js "superseded"]

def REVOCATION_FIELDS : List JsString :=
  [js "kind", js "schemaVersion", js "note", js "vendorAddress", js "reason", js "revokedAt", js "supersededBy"]

def REVOCATION_TRUST_NOTE : JsString := js <|
  "This is a verifyhash producer KEY REVOCATION: the holder of `vendorAddress`'s key SIGNED it, declaring " ++
  "that address REVOKED as of `revokedAt` for `reason` (optionally superseded by `supersededBy`). verify " ++
  "RE-DERIVES the signer from these exact bytes and REQUIRES it to equal `vendorAddress` — a key revokes " ++
  "ITSELF; a third party cannot revoke a key it does not control. It proves the KEY-HOLDER's SIGNED CLAIM " ++
  "ONLY: `revokedAt` is the holder's self-asserted instant, NOT a trusted TIMESTAMP (it rides the human-" ++
  "owned timestamp trust-root, STRATEGY.md P-3), and this is NOT a legal opinion."

def SIGNED_REVOCATION_TRUST_NOTE : JsString :=
  js ("This is a SIGNED verifyhash key-revocation container: it WRAPS (never edits) the EXACT canonical " ++
  "revocation bytes in `attestation` and attaches a detached EIP-191 signature. verifyRevocation " ++
  "RE-DERIVES the signer from those bytes and pins it to the embedded `vendorAddress` — it never trusts " ++
  "the file's own claims. Every caveat of the embedded revocation applies. ") ++
  REVOCATION_TRUST_NOTE

-- The fields of an object in the order of `Object.keys`, of which the first one which is not known is taken.
def unknownField (obj : Value) : Option JsString :=
  match obj with
  | object fields => (ownOrder <| fields.map (·.fst)).find? fun k => k ∉ REVOCATION_FIELDS
  | _             => none

-- `Object.prototype.hasOwnProperty.call(obj, "supersededBy") && obj.supersededBy !== undefined`
def hasSuccessor (obj : Value) : Bool :=
  obj.has "supersededBy" ∧ ¬ (obj.get "supersededBy").isUndefined

-- The successor of a statement, if it names one.
def successor (obj : Value) (message : JsString → JsString) : Except JsString (Option JsString) :=
  if hasSuccessor obj then
    (demand (address? <| obj.get "supersededBy") <| (obj.get "supersededBy").toText.map message).map some
  else
    .ok none

-- The text of an instant, which is its own canonical text.
def canonicalInstant (value : Value) (malformed impossible : JsString → JsString) :
    Except JsString { s // (Instant.canonical? s).isSome } := do
  let s ← demand (value.toString?.filter Instant.isInstant) <| value.toText.map malformed
  if canonical : (Instant.canonical? s).isSome then
    return ⟨s, canonical⟩
  else
    throw <| impossible s

-- The canonical text of a payload, which both sources spell alike.
def canonicalText (payload : Value) : JsString :=
  let field (key : String) := (js key, payload.get key)
  let canonical := [
    field "kind",
    field "schemaVersion",
    field "note",
    field "vendorAddress",
    field "reason",
    field "revokedAt"
  ] ++ if hasSuccessor payload then [field "supersededBy"] else []
  (stringify <| object canonical).getD [] ++ js "\n"

section

-- The messages of the parser.
variable (syntaxError : JsString → JsString)

namespace CoreRevocation

def validateRevocation (obj : Value) : Except JsString Revocation := do
  require obj.isObject <| js "revocation payload must be a JSON object"
  require (unknownField obj).isNone <| (unknownField obj).map fun key =>
    js "revocation has an unknown field: " ++ shown (string key) ++ js " (the closed field set is " ++
      shown (ofStrings REVOCATION_FIELDS) ++ js ")"
  require ((obj.get "kind").toString? = some REVOCATION_KIND) <|
    js "not a verifyhash revocation (kind: " ++ shown (obj.get "kind") ++ js "; expected " ++
      shown (string REVOCATION_KIND) ++ js ")"
  require (supports [1] <| obj.get "schemaVersion") <|
    js "unsupported revocation schemaVersion: " ++ shown (obj.get "schemaVersion") ++
      js " (this build understands " ++ shownVersions [1] ++ js ")"
  require ((obj.get "note").toString? = some REVOCATION_TRUST_NOTE) <|
    js "revocation `note` must be the standing REVOCATION_TRUST_NOTE (caveat must not drift)"
  let vendorAddress ← demand (address? <| obj.get "vendorAddress") <| (obj.get "vendorAddress").toText.map fun text =>
    js "revocation vendorAddress must be a 0x-prefixed 20-byte LOWERCASE-hex address " ++
      js "(checksummed/mixed-case rejected for byte-determinism — lowercase it first), got: " ++ text
  let reason ← demand ((obj.get "reason").toString?.filter (· ∈ REVOCATION_REASON_SET)) <|
    js "revocation reason must be one of the closed set " ++ shown (ofStrings REVOCATION_REASON_SET) ++
      js ", got: " ++ shown (obj.get "reason")
  let revokedAt ← canonicalInstant (obj.get "revokedAt")
    (js "revocation revokedAt must be an ISO-8601 UTC instant (\"YYYY-MM-DDTHH:MM:SS(.mmm)Z\"), got: " ++ ·)
    (js "revocation revokedAt must be a canonical ISO-8601 UTC instant (\"YYYY-MM-DDTHH:MM:SS.mmmZ\", " ++
      js "millis required, no rolled-over/impossible fields), got: " ++ ·)
  let supersededBy ← successor obj
    (js "revocation supersededBy, when present, must be a 0x-prefixed 20-byte LOWERCASE-hex address " ++
      js "(checksummed/mixed-case rejected for byte-determinism — lowercase it first), got: " ++ ·)
  return { vendorAddress, reason, revokedAt := revokedAt.val, supersededBy, canonical := revokedAt.property }

def serializeRevocation (payload : Value) : Except JsString JsString := do
  let _ ← validateRevocation payload
  return canonicalText payload

def SIGNED_REVOCATION_CFG : Cfg Revocation where
  kind                    := SIGNED_REVOCATION_KIND
  supportedSchemaVersions := [1]
  note                    := SIGNED_REVOCATION_TRUST_NOTE
  label                   := js "signed key revocation"
  validateUnsigned        := validateRevocation
  serializeUnsigned       := serializeRevocation

def validateSignedRevocation (obj : Value) : Except JsString (Signed Revocation) :=
  validateSignedAttestation syntaxError obj SIGNED_REVOCATION_CFG

-- `verifyRevocation`, which is not given an expected signer. The embedded statement is parsed again
-- from the same text.
def verifyRevocation (verifyMessage : JsString → JsString → Option JsString) (container : Value) :
    Except JsString Verification := do
  let container ← validateSignedRevocation syntaxError container
  let revocation := container.embedded
  let att := verifySignedAttestation verifyMessage container
  let vendorAddressMatchesSigner := att.recoveredSigner = revocation.vendorAddress
  let failedChecks :=
    (if att.signatureMatchesSigner then [] else [js "signatureMatchesSigner"]) ++
    (if vendorAddressMatchesSigner then [] else [js "vendorAddressMatchesSigner"])
  return { revocation with accepted := failedChecks = [], failedChecks }

end CoreRevocation

namespace RevocationCore

def parseCanonicalInstant (value : Value) (label : JsString) :
    Except JsString { s // (Instant.canonical? s).isSome } :=
  canonicalInstant value
    (label ++ js " must be an ISO-8601 UTC instant (\"YYYY-MM-DDTHH:MM:SS(.mmm)Z\"), got: " ++ ·)
    (label ++ js " must be a canonical ISO-8601 UTC instant (no rolled-over/impossible fields), got: " ++ ·)

def serializeRevocation (payload : Value) : JsString :=
  canonicalText payload

def validateSignedRevocation (obj : Value) : Except JsString (Signed Revocation) := do
  require obj.isObject <| js "revocation container must be a JSON object"
  require ((obj.get "kind").toString? = some SIGNED_REVOCATION_KIND) <|
    js "not a signed key-revocation (kind " ++ shown (obj.get "kind") ++ js "; expected " ++
      shown (string SIGNED_REVOCATION_KIND) ++ js ")"
  require (supports [1] <| obj.get "schemaVersion") <|
    js "unsupported signed revocation schemaVersion: " ++ shown (obj.get "schemaVersion") ++
      js " (this build understands " ++ shownVersions [1] ++ js ")"
  require ((obj.get "note").toString? = some SIGNED_REVOCATION_TRUST_NOTE) <|
    js "signed revocation `note` must be the standing SIGNED_REVOCATION_TRUST_NOTE"
  let attestation ← demand (obj.get "attestation").toString? <|
    js "signed revocation must embed the canonical UNSIGNED bytes as a string `attestation`"
  let sig := obj.get "signature"
  require sig.isObject <|
    js "signed revocation is missing a \x7b scheme, signer, signature \x7d signature block"
  let scheme ← demand ((sig.get "scheme").toString?.filter (· = EIP191)) <|
    js "unsupported signature scheme: " ++ shown (sig.get "scheme") ++
      js " (this verifier understands eip191-personal-sign)"
  let signer ← demand (address? <| sig.get "signer") <| js <|
    "signed revocation signer must be a 0x-prefixed 20-byte LOWERCASE-hex address " ++
    "(mixed/upper case rejected for byte-determinism)"
  let signature ← demand ((sig.get "signature").toString?.filter isSignature) <| js <|
    "signed revocation signature must be a 65-byte (r||s||v) 0x-prefixed LOWERCASE-hex string " ++
    "(mixed/upper case rejected for byte-determinism)"
  let rev ← demand (parse attestation) <|
    js "embedded revocation is not valid JSON: " ++ syntaxError attestation
  require rev.isObject <| js "embedded revocation payload must be a JSON object"
  require (unknownField rev).isNone <| (unknownField rev).map fun key =>
    js "revocation has an unknown field: " ++ shown (string key) ++ js " (the closed field set is " ++
      shown (ofStrings REVOCATION_FIELDS) ++ js ")"
  require ((rev.get "kind").toString? = some REVOCATION_KIND) <|
    js "embedded payload is not a key revocation (kind " ++ shown (rev.get "kind") ++ js "; expected " ++
      shown (string REVOCATION_KIND) ++ js ")"
  require (supports [1] <| rev.get "schemaVersion") <|
    js "unsupported revocation schemaVersion: " ++ shown (rev.get "schemaVersion") ++
      js " (this build understands " ++ shownVersions [1] ++ js ")"
  require ((rev.get "note").toString? = some REVOCATION_TRUST_NOTE) <|
    js "revocation `note` must be the standing REVOCATION_TRUST_NOTE (caveat must not drift)"
  let vendorAddress ← demand (address? <| rev.get "vendorAddress") <| (rev.get "vendorAddress").toText.map fun text =>
    js "revocation vendorAddress must be a 0x-prefixed 20-byte LOWERCASE-hex address, got: " ++ text
  let reason ← demand ((rev.get "reason").toString?.filter (· ∈ REVOCATION_REASON_SET)) <|
    js "revocation reason must be one of " ++ shown (ofStrings REVOCATION_REASON_SET) ++ js ", got: " ++
      shown (rev.get "reason")
  let revokedAt ← parseCanonicalInstant (rev.get "revokedAt") (js "revocation revokedAt")
  let supersededBy ← successor rev
    (js "revocation supersededBy, when present, must be a 0x-prefixed 20-byte LOWERCASE-hex address, got: " ++ ·)
  require (attestation = serializeRevocation rev) <| js <|
    "embedded revocation is not in canonical form " ++
    "(the signed-over bytes must be byte-for-byte the canonical serialization)"
  let embedded := { vendorAddress, reason, revokedAt := revokedAt.val, supersededBy, canonical := revokedAt.property }
  return { attestation, embedded, scheme, signer, signature }

def verifyRevocation (recoverPersonalSignAddress : JsString → JsString → Option JsString) (container : Value) :
    Except JsString Verification := do
  let container ← validateSignedRevocation syntaxError container
  let revocation := container.embedded
  let claimedSigner := Hex.toLowerCase container.signer
  let recoveredSigner :=
    (recoverPersonalSignAddress container.attestation container.signature).getD UNRECOVERABLE
  let signatureMatchesSigner := recoveredSigner = claimedSigner
  let vendorAddressMatchesSigner := recoveredSigner = revocation.vendorAddress
  let failedChecks :=
    (if signatureMatchesSigner then [] else [js "signatureMatchesSigner"]) ++
    (if vendorAddressMatchesSigner then [] else [js "vendorAddressMatchesSigner"])
  return { revocation with accepted := failedChecks = [], failedChecks }

end RevocationCore

end

end TrustAsOf
