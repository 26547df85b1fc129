import Verifyhash.License.Payload

-- The verification of signed licenses in `cli/core/license.js`.
namespace CoreLicense

open Value Json Checks CoreAttestation

-- The framing of a product, with the part for the signed containers.
structure SignedFraming extends Cfg where
  signedKind                    : JsString
  supportedSignedSchemaVersions : List ℕ
  signedNote                    : JsString
  signedLabel                   : Option JsString

-- `_signedCfg`
def signedCfg (cfg : SignedFraming) : CoreAttestation.Cfg License where
  kind                    := cfg.signedKind
  supportedSchemaVersions := cfg.supportedSignedSchemaVersions
  note                    := cfg.signedNote
  label                   := (cfg.signedLabel.filter (· ≠ [])).getD <| js "signed license"
  validateUnsigned        := fun obj => validateLicense obj cfg.toCfg
  serializeUnsigned       := fun obj => serializeLicense obj cfg.toCfg

inductive Reason
  | malformed
  | badSignature
  | wrongIssuer
  | notYetValid
  | expired
  deriving DecidableEq

structure Verdict where
  valid           : Bool
  reason          : Option Reason
  recoveredSigner : Option JsString
  vendorAddress   : JsString
  payload         : Option Value
  entitlements    : List JsString
  now             : JsString

section

-- The messages of the parser.
variable (syntaxError : JsString → JsString)

-- A container which is sound, with its payload, which is parsed once more.
def readContainer (container : Value) (cfg : SignedFraming) : Except JsString (Signed License × Value × License) := do
  let signed ← validateSignedAttestation syntaxError container (signedCfg cfg)
  let payload ← demand (parse signed.attestation) none
  let license ← validateLicense payload cfg.toCfg
  return (signed, payload, license)

-- The functions of `ethers`. The recovery is given the message and the signature.
variable (verifyMessage : JsString → JsString → Option JsString) (getAddress : JsString → Option JsString)

-- `verifyLicense`, for an instant `now` which a `Date` can be.
def verifyLicense (container : Value) (now : ℤ) (vendorAddress : JsString) (cfg : SignedFraming) :
    Except JsString Verdict := do
  let normalizedVendor ← demand (getAddress vendorAddress) <|
    js "verifyLicense requires a valid vendorAddress (0x-address to pin the issuer to), got: " ++ vendorAddress
  let vendorLc := Hex.toLowerCase normalizedVendor
  let reject (reason : Reason) (recoveredSigner : Option JsString) (payload : Option Value) : Verdict := {
    valid         := false
    reason
    recoveredSigner
    vendorAddress := vendorLc
    payload
    entitlements  := []
    now           := Instant.toISOString now
  }
  match readContainer syntaxError container cfg with
  | .error _ => return reject .malformed none none
  | .ok (signed, payload, license) =>
    let att := verifySignedAttestation verifyMessage signed
    if ¬ att.signatureMatchesSigner then
      return reject .badSignature
        (if att.recoveredSigner = UNRECOVERABLE then none else some att.recoveredSigner) payload
    else if att.recoveredSigner ≠ vendorLc then
      return reject .wrongIssuer att.recoveredSigner payload
    else if now < license.issuedAt.ms then
      return reject .notYetValid att.recoveredSigner payload
    else if now > license.expiresAt.ms then
      return reject .expired att.recoveredSigner payload
    else
      return {
        valid           := true
        reason          := none
        recoveredSigner := att.recoveredSigner
        vendorAddress   := vendorLc
        payload
        entitlements    := license.entitlements
        now             := Instant.toISOString now
      }

end

def hasEntitlement (verdict : Verdict) (flag : Value) : Bool :=
  match flag with
  | string f => verdict.valid ∧ f ∈ verdict.entitlements
  | _        => false

end CoreLicense
