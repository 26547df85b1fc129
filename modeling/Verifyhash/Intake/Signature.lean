import Verifyhash.Data.Unicode
import Verifyhash.Data.Words
import Verifyhash.Intake.StrictJson
import Verifyhash.Library.Rounding

-- The authentication of a webhook delivery in `cli/core/fulfill-intake.js`.
namespace Intake

open Json Words

-- `SIGNATURE_REASONS`
inductive SignatureReason
  | ok                      -- "ok"
  | missingHeader           -- "missing_signature_header"
  | malformedHeader         -- "malformed_signature_header"
  | signatureMismatch       -- "signature_mismatch"
  | timestampOutOfTolerance -- "timestamp_out_of_tolerance"
  deriving DecidableEq

structure SignatureResult where
  ok        : Bool
  reason    : SignatureReason
  timestamp : Option Number := none
  deriving DecidableEq

-- The exact request body, as a string or as a buffer.
inductive RawBody
  | text   (s : JsString)
  | buffer (bytes : Bytes)

def RawBody.bytes : RawBody → Bytes
  | text s       => Unicode.bufferFrom s
  | buffer bytes => bytes

structure SignatureOpts where
  nowSec       : Number
  toleranceSec : Option Number

def defaultToleranceSec : Number :=
  .ofNat 300

-- What `parseSignatureHeader` has collected.
structure SignatureHeader where
  t    : Option JsString := none
  v1s  : List JsString := []
  dupT : Bool := false
  deriving DecidableEq

-- The step for one part of the header.
def parseSignaturePart (h : SignatureHeader) (part : JsString) : SignatureHeader :=
  match part.idxOf? 61 with
  | none    => h
  | some eq =>
    let k := trim <| part.take eq
    let v := trim <| part.drop (eq + 1)
    if k = js "t" then
      match h.t with
      | none   => { h with t := v }
      | some _ => { h with dupT := true }
    else if k = js "v1" then
      if 0 < v.length then { h with v1s := h.v1s ++ [v] } else h
    else
      h

def parseSignatureHeader (header : JsString) : SignatureHeader :=
  (header.splitOn 44).foldl parseSignaturePart { }

-- `/^\d+$/`
def isDecimal (t : JsString) : Bool :=
  t ≠ [] ∧ t.all isDigit

-- `Number(t)` for a string of digits.
def ofDecimal (t : JsString) : Number :=
  ofRational false (digitsValue t)

-- `Number.isSafeInteger(n)`, with the integer.
def toSafeInteger? (n : Number) : Option ℤ :=
  n.toInt?.filter fun i => i.natAbs ≤ 2 ^ 53 - 1

-- `Math.abs(a - b) > tolerance` for integers: the difference is rounded to a double, and the infinity is
-- greater than every integer.
def outOfTolerance (a b tolerance : ℤ) : Bool :=
  match Double.round (a - b : ℤ) with
  | none   => true
  | some d => tolerance < |d|

section

-- `HMAC-SHA256` for the bytes of a key.
variable (hmac : Bytes → Bytes → Bytes32)

-- `.digest("hex")`
def digestHex (secret : JsString) (payload : Bytes) : JsString :=
  (Hex.hexlify <| hmac (Unicode.bufferFrom secret) payload).drop 2

def signedPayload (t : JsString) (rawBody : RawBody) : Bytes :=
  Unicode.bufferFrom (t ++ js ".") ++ rawBody.bytes

-- Two equal lengths and equal bytes.
def timingSafeHexEqual (a b : JsString) : Bool :=
  (Unicode.bufferFrom a).length = (Unicode.bufferFrom b).length ∧ Unicode.bufferFrom a = Unicode.bufferFrom b

-- The checks of the arguments, which throw: the integers `nowSec` and `toleranceSec`.
def signatureConfig (secret : JsString) (opts : SignatureOpts) : Except FulfillIntakeError (ℤ × ℤ) :=
  if secret.length = 0 then
    .error ⟨js "verifyProviderSignature requires a non-empty signing secret string"⟩
  else
    match opts.nowSec.toInt? with
    | none     => .error ⟨js ("verifyProviderSignature requires an integer opts.nowSec " ++
        "(UNIX epoch seconds; the injected clock)")⟩
    | some now =>
      match (opts.toleranceSec.getD defaultToleranceSec).toInt?.filter (0 ≤ ·) with
      | none           => .error ⟨js ("verifyProviderSignature opts.toleranceSec, when given, must be a " ++
          "non-negative integer number of seconds")⟩
      | some tolerance => .ok (now, tolerance)

-- What follows the checks of the arguments. A header which is not a string is `none`.
def checkSignature (rawBody : RawBody) (sigHeader : Option JsString) (secret : JsString)
    (nowSec toleranceSec : ℤ) : SignatureResult :=
  match sigHeader.filter (trim · ≠ []) with
  | none           => { ok := false, reason := .missingHeader }
  | some sigHeader =>
    let h := parseSignatureHeader sigHeader
    match h.t.filter fun t => h.dupT = false ∧ isDecimal t ∧ h.v1s.length ≠ 0 with
    | none   => { ok := false, reason := .malformedHeader }
    | some t =>
      match toSafeInteger? (ofDecimal t) with
      | none      => { ok := false, reason := .malformedHeader }
      | some tNum =>
        let expected := digestHex hmac secret <| signedPayload t rawBody
        if ¬ h.v1s.any (timingSafeHexEqual expected) then
          { ok := false, reason := .signatureMismatch }
        else if outOfTolerance nowSec tNum toleranceSec then
          { ok := false, reason := .timestampOutOfTolerance }
        else
          { ok := true, reason := .ok, timestamp := ofDecimal t }

def verifyProviderSignature (rawBody : RawBody) (sigHeader : Option JsString) (secret : JsString)
    (opts : SignatureOpts) : Except FulfillIntakeError SignatureResult := do
  let (nowSec, toleranceSec) ← signatureConfig secret opts
  return checkSignature hmac rawBody sigHeader secret nowSec toleranceSec

end

end Intake
