import Verifyhash.Data.Checks
import Verifyhash.Trust.AsOf

-- The signed containers of `cli/core/attestation.js`.
namespace CoreAttestation

open Value Json Checks TrustAsOf

def EIP191 : JsString := js "eip191-personal-sign"

def isLowerHex (s : JsString) : Bool :=
  s.take 2 = js "0x" ∧ (s.drop 2).all fun u => (48 ≤ u ∧ u ≤ 57) ∨ (97 ≤ u ∧ u ≤ 102)

-- `HEXSTR_RE.test(s)`
def isHexString (s : JsString) : Bool :=
  isLowerHex s ∧ 4 ≤ s.length ∧ s.length % 2 = 0

-- `EIP191_SIG_RE.test(s)`
def isSignature (s : JsString) : Bool :=
  isLowerHex s ∧ s.length = 132

def address? (v : Value) : Option JsString :=
  v.toString?.filter isAddress

-- A container which is valid, with the statement which is embedded in it.
structure Signed (α : Type) where
  attestation : JsString
  embedded    : α
  scheme      : JsString
  signer      : JsString
  signature   : JsString

section

-- The messages of the parser.
variable (syntaxError : JsString → JsString)

def SIGNED_ATTESTATION_SCHEMES : List JsString := [EIP191]

-- The framing of a product.
structure Cfg (α : Type) where
  kind                    : JsString
  supportedSchemaVersions : List ℕ
  note                    : JsString
  label                   : JsString
  validateUnsigned        : Value → Except JsString α
  serializeUnsigned       : Value → Except JsString JsString

-- `supported.includes(version)`
def supports (supported : List ℕ) (version : Value) : Bool :=
  supported.any fun n => version.toInt? = some (n : ℤ)

def shownVersions (supported : List ℕ) : JsString :=
  shown <| array <| supported.map nat

-- `validateSignedAttestation`
def validateSignedAttestation (obj : Value) (cfg : Cfg α) : Except JsString (Signed α) := do
  require obj.isObject <| cfg.label ++ js " must be a JSON object"
  require ((obj.get "kind").toString? = some cfg.kind) <|
    js "not a verifyhash " ++ cfg.label ++ js " (kind: " ++ shown (obj.get "kind") ++ js "; expected " ++
      shown (string cfg.kind) ++ js ")"
  require (supports cfg.supportedSchemaVersions <| obj.get "schemaVersion") <|
    js "unsupported " ++ cfg.label ++ js " schemaVersion: " ++ shown (obj.get "schemaVersion") ++
      js " (this build understands " ++ shownVersions cfg.supportedSchemaVersions ++ js ")"
  require ((obj.get "note").toString? = some cfg.note) <|
    cfg.label ++ js " note must be the standing SIGNED_ATTESTATION_TRUST_NOTE"
  let attestation ← demand (obj.get "attestation").toString? <|
    cfg.label ++ js " must embed the canonical UNSIGNED attestation as a string `attestation`"
  let statement ← demand (parse attestation) <|
    js "embedded attestation is not valid JSON: " ++ syntaxError attestation
  let embedded ← cfg.validateUnsigned statement
  let canonical ← cfg.serializeUnsigned statement
  require (attestation = canonical) <| js <|
    "embedded attestation is not in canonical form (the signed-over bytes must be byte-for-byte " ++
    "serializeAttestation's output)"
  let sig := obj.get "signature"
  require sig.isObject <| cfg.label ++ js " signature must be a \x7b scheme, signer, signature \x7d object"
  let scheme ← demand ((sig.get "scheme").toString?.filter (· ∈ SIGNED_ATTESTATION_SCHEMES)) <|
    js "unknown signature scheme: " ++ shown (sig.get "scheme") ++ js " (this build understands " ++
      shown (ofStrings SIGNED_ATTESTATION_SCHEMES) ++ js ")"
  let signer ← demand (address? <| sig.get "signer") <| (sig.get "signer").toText.map fun text =>
    js "signature signer must be a 0x-prefixed 20-byte LOWERCASE-hex address " ++
      js "(checksummed/mixed-case rejected for byte-determinism — lowercase it first), got: " ++ text
  let signature ← demand ((sig.get "signature").toString?.filter isHexString) <|
    (sig.get "signature").toText.map fun text =>
      js "signature value must be a 0x-prefixed LOWERCASE-hex string " ++
        js "(mixed/upper case rejected for byte-determinism), got: " ++ text
  require (scheme ≠ EIP191 ∨ isSignature signature) <|
    js "eip191-personal-sign signature must be a 65-byte (r||s||v) 0x-hex string, got length " ++
      natText signature.length
  return { attestation, embedded, scheme, signer, signature }

def UNRECOVERABLE : JsString := js "(unrecoverable)"

-- What `verifySignedAttestation` returns, as far as it is used.
structure SignerCheck where
  recoveredSigner        : JsString
  signatureMatchesSigner : Bool

section

-- The recovery of the signer of a message, or `none` if it throws.
variable (verifyMessage : JsString → JsString → Option JsString)

-- `recoverSigner`, for a scheme which is known
def recoverSigner (container : Signed α) : Option JsString :=
  (verifyMessage container.attestation container.signature).map Hex.toLowerCase

-- `verifySignedAttestation`, without the checks which are optional
def verifySignedAttestation (container : Signed α) : SignerCheck :=
  match recoverSigner verifyMessage container with
  | some recovered => {
    recoveredSigner        := recovered
    signatureMatchesSigner := recovered = Hex.toLowerCase container.signer
  }
  | none => {
    recoveredSigner        := UNRECOVERABLE
    signatureMatchesSigner := false
  }

-- The check of the signer which is recovered against one which is expected. It throws if the expected
-- one is no address.
def signerMatchesExpected (getAddress : JsString → Option JsString) (recoveredSigner : JsString)
    (expectedSigner : Option JsString) : Option (Option Bool) :=
  match expectedSigner with
  | none          => some none
  | some expected =>
    (getAddress expected).map fun address => some <| recoveredSigner = Hex.toLowerCase address

end

end

end CoreAttestation
