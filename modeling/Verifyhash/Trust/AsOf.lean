import Verifyhash.Data.Instant

-- The trust decisions of `cli/core/trust-asof.js` and of `verifier/lib/revocation-core.js`, which only
-- differ in the last step.
namespace TrustAsOf

open Value Json

-- What is thrown: an error with its message, or the error of a conversion to a string.
inductive Failure
  | error (message : JsString)
  | typeError
  deriving DecidableEq

-- A revocation as it is reported. Its instant is canonical, as `validateRevocation` asks of it, and a
-- missing successor is `null`.
structure Revocation where
  vendorAddress : JsString
  reason        : JsString
  revokedAt     : JsString
  supersededBy  : Option JsString
  canonical     : (Instant.canonical? revokedAt).isSome
  deriving DecidableEq

-- What `verifyRevocation` returns, as far as it is used.
structure Verification extends Revocation where
  accepted      : Bool
  failedChecks  : List JsString
  deriving DecidableEq

inductive Classification
  | ignored (warning : JsString)
  | irrelevant
  | later (detail : Revocation)
  | applies (detail : Revocation)
  deriving DecidableEq

inductive Status
  | ok
  | revoked
  | unevaluable
  deriving DecidableEq

structure Decision where
  status       : Status
  subject      : JsString
  asOf         : Value
  governing    : Option Revocation
  laterRevoked : Option Revocation
  total        : ℕ
  applicable   : ℕ
  later        : ℕ
  irrelevant   : ℕ
  ignored      : List JsString

def Decision.revoked (d : Decision) : Bool :=
  d.status = .revoked

-- `ADDRESS_RE.test(s)`
def isAddress (s : JsString) : Bool :=
  s.length = 42 ∧ s.take 2 = js "0x" ∧ (s.drop 2).all fun u => (48 ≤ u ∧ u ≤ 57) ∨ (97 ≤ u ∧ u ≤ 102)

-- The error of a conversion to a string.
def textOf (v : Value) : Except Failure JsString :=
  match v.toText with
  | some text => .ok text
  | none      => .error .typeError

-- `parseAsOf`, and `parseCanonicalInstant` with the label `--as-of`
def parseAsOf (asOf : Value) : Except Failure ℤ :=
  match (asOf.toString?.filter Instant.isInstant : Option JsString) with
  | none   => do
    let text ← textOf asOf
    throw <| .error <| js "--as-of must be an ISO-8601 UTC instant (\"YYYY-MM-DDTHH:MM:SS(.mmm)Z\"), got: " ++ text
  | some s =>
    match Instant.canonical? s with
    | none    => .error <| .error <|
      js "--as-of must be a canonical ISO-8601 UTC instant (no rolled-over/impossible fields), got: " ++ s
    | some ms => .ok ms

section

-- The messages of the parser, and the oracle which checks one revocation, or throws with a message.
variable (syntaxError : JsString → JsString) (verifyRevocation : Value → Except JsString Verification)

-- An element of an array of revocations.
def normalizeEntry (el : Value) : Value :=
  match el with
  | .string s =>
    match parse s with
    | some v => v
    | none   => object [
      (js "_parseError", string <| js "entry is not valid JSON: " ++ syntaxError s),
      (js "_raw", string s)
    ]
  | el => el

def normalizeParsed (revocations : Value) : Except Failure (List Value) :=
  match revocations with
  | .array els      => .ok <| els.map <| normalizeEntry syntaxError
  | .object fields  => .ok [object fields]
  | _               => .error <| .error <| js <|
    "revocations input must be a signed-revocation container, an array of them, or JSON text of either"

-- The recursion of the source, on a text which is spelled by a text, ends as the texts get shorter.
def normalizeText (text : JsString) : ℕ → Except Failure (List Value)
  | 0        => normalizeParsed syntaxError null
  | fuel + 1 =>
    match parse text with
    | none             => .error <| .error <| js "revocations input is not valid JSON: " ++ syntaxError text
    | some (.string s) => normalizeText s fuel
    | some v           => normalizeParsed syntaxError v

def normalizeRevocationsInput (revocations : Value) : Except Failure (List Value) :=
  match revocations with
  | .string text => normalizeText syntaxError text (text.length + 1)
  | v            => normalizeParsed syntaxError v

def classifyRevocation (entry : Value) (subject : JsString) (asOfMs : ℤ) : Except Failure Classification := do
  if ¬ (entry.get "_parseError").isFalsy then
    let text ← textOf <| entry.get "_parseError"
    return .ignored <| js "ignored an unparseable revocation entry (" ++ text ++ js ")"
  match verifyRevocation entry with
  | .error message => return .ignored <| js "ignored a malformed/foreign revocation (" ++ message ++ js ")"
  | .ok v          =>
    if ¬ v.accepted then
      return .ignored <| js "ignored a revocation that does not verify (failed: " ++
        (js ", ").intercalate v.failedChecks ++ js "; vendorAddress " ++ v.vendorAddress ++
        js ") — a forged/tampered/third-party revocation never downgrades trust"
    if v.vendorAddress ≠ subject then
      return .irrelevant
    let detail := v.toRevocation
    if (Instant.parse v.revokedAt).any (· ≤ asOfMs) then
      return .applies detail
    return .later detail

def Classification.detail? : Classification → Option Revocation
  | applies d | later d => some d
  | _                   => none

def Classification.applicable? : Classification → Option Revocation
  | applies d => some d
  | _         => none

def Classification.later? : Classification → Option Revocation
  | later d => some d
  | _       => none

def Classification.warning? : Classification → Option JsString
  | ignored w => some w
  | _         => none

-- The comparison of two strings.
def compareText (s t : JsString) : ℤ :=
  if s < t then -1 else if t < s then 1 else 0

-- A difference which is `NaN` or zero is followed by the next comparison.
def sortByEffective (a b : Revocation) : ℤ :=
  let diff :=
    match Instant.parse a.revokedAt, Instant.parse b.revokedAt with
    | some s, some t => s - t
    | _, _           => 0
  if diff ≠ 0 then diff
  else if compareText a.vendorAddress b.vendorAddress ≠ 0 then compareText a.vendorAddress b.vendorAddress
  else compareText a.reason b.reason

-- `Array.prototype.sort` is stable.
def govern (arr : List Revocation) : Option Revocation :=
  (arr.insertionSort fun a b => sortByEffective a b ≤ 0).head?

def evaluateTrustAsOf (subject asOf revocations : Value) : Except Failure Decision := do
  match subject.toString?.filter (· ≠ []) with
  | none         =>
    throw <| .error <| js "evaluateTrustAsOf requires a string `subject` (the artifact's recovered signer)"
  | some subject =>
    let asOfMs ← parseAsOf asOf
    let entries ← normalizeRevocationsInput syntaxError revocations
    let cs ← entries.mapM fun entry => classifyRevocation verifyRevocation entry subject asOfMs
    let applicable := cs.filterMap (·.applicable?)
    let later := cs.filterMap (·.later?)
    let governing := govern applicable
    return {
      status       := if governing.isSome then .revoked else if isAddress subject then .ok else .unevaluable
      subject      := subject
      asOf         := asOf
      governing    := governing
      laterRevoked := if governing.isSome then none else govern later
      total        := entries.length
      applicable   := applicable.length
      later        := later.length
      irrelevant   := cs.count .irrelevant
      ignored      := cs.filterMap (·.warning?)
    }

def revocationValue (r : Option Revocation) : Value :=
  match r with
  | none   => null
  | some r => object [
    (js "vendorAddress", string r.vendorAddress),
    (js "reason", string r.reason),
    (js "revokedAt", string r.revokedAt),
    (js "supersededBy", r.supersededBy.elim null string)
  ]

def Status.text : Status → JsString
  | .ok          => js "OK"
  | .revoked     => js "REVOKED"
  | .unevaluable => js "UNEVALUABLE"

-- The object which is attached to a result.
def Decision.value (d : Decision) : Value :=
  object [
    (js "status", string d.status.text),
    (js "revoked", bool d.revoked),
    (js "subject", string d.subject),
    (js "asOf", d.asOf),
    (js "governing", revocationValue d.governing),
    (js "laterRevoked", revocationValue d.laterRevoked),
    (js "counts", object [
      (js "total", nat d.total),
      (js "applicable", nat d.applicable),
      (js "later", nat d.later),
      (js "irrelevant", nat d.irrelevant),
      (js "ignored", nat d.ignored.length)
    ]),
    (js "ignored", ofStrings d.ignored)
  ]

-- The assignment of a property of an object.
def set (v : Value) (key : String) (w : Value) : Value :=
  match v with
  | .object fields => object <| setField fields (js key) w
  | v              => v

-- The failed checks of a result which is revoked.
def failedChecks (result : Value) : Value :=
  let checks :=
    match result.get "failedChecks" with
    | .array els => els
    | _          => []
  let key := js "keyRevokedAsOf"
  array <| if checks.any (·.toString? = some key) then checks else checks ++ [string key]

-- `applyToVerifyResult` of `cli/core/trust-asof.js`
def applyToVerifyResult (result asOf revocations : Value) : Except Failure Value := do
  if ¬ result.isObject then
    throw <| .error <| js "applyToVerifyResult requires \x7b result, revocations, asOf \x7d"
  let subject := result.get "recoveredSigner"
  if subject.toString?.isNone then
    throw <| .error <| js "applyToVerifyResult: result.recoveredSigner must be a string"
  let decision ← evaluateTrustAsOf syntaxError verifyRevocation subject asOf revocations
  let out := set result "trustAsOf" decision.value
  if decision.revoked then
    return set (set (set out "accepted" (bool false)) "verdict" (string <| js "REVOKED"))
      "failedChecks" (failedChecks result)
  return out

namespace RevocationCore

def UNRECOVERABLE : JsString := js "(unrecoverable)"

-- `applyToVerifyResult` of `verifier/lib/revocation-core.js`
def applyToVerifyResult (result asOf revocations : Value) : Except Failure Value := do
  if ¬ result.isObject then
    throw <| .error <| js "applyToVerifyResult requires \x7b result, revocations, asOf \x7d"
  let subject := ((result.get "recoveredSigner").toString?.filter (· ≠ [])).getD UNRECOVERABLE
  let decision ← evaluateTrustAsOf syntaxError verifyRevocation (string subject) asOf revocations
  let out := set result "trustAsOf" decision.value
  if decision.revoked then
    return set (set (set out "accepted" (bool false)) "verdict" (string <| js "REVOKED"))
      "reason" (string <| js "key_revoked_as_of")
  return out

end RevocationCore

end

end TrustAsOf
