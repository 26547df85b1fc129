import Verifyhash.Coverage.Report
import Verifyhash.Session.Event

-- The strict reader of reports in `cli/core/agent-coverage.js`.
namespace Coverage

open Json Value AgentSession

-- `REASONS`, for a text which is no report
inductive Fault
  | reportTooLarge
  | reportNotJson
  | reportNotObject
  | reportBadKind
  | reportUnknownField
  | reportMissingField
  | reportBadField
  | commitsTooMany
  | claimsTooMany
  | claimBadGitRoot
  | claimBadPacketLabel
  | claimBadPacketVerified
  | claimBadRootVerified
  | reportInconsistent
  | reportNotCanonical
  | hostileInput
  deriving DecidableEq

structure Refusal where
  fault  : Fault
  field  : Option JsString := none
  detail : Option Reason := none
  deriving DecidableEq

def REPORT_TOP_FIELDS : List String :=
  ["commits", "kind", "policy", "totals", "verdict"]

def REPORT_COMMIT_FIELDS : List String :=
  ["claims", "oid", "status"]

def REPORT_CLAIM_FIELDS : List String :=
  ["gitRoot", "packetLabel", "packetVerified", "rootVerified", "status"]

def REPORT_VERDICT_FIELDS : List String :=
  ["failures", "pass"]

def REPORT_FAILURE_FIELDS : List String :=
  ["oid", "rule", "status"]

def POLICY_FIELDS : List String :=
  ["requireAll", "requireSince"]

def CLAIM_STATUSES : List Status :=
  [.claimRootMismatch, .claimUnverifiedPacket, .coveredOidOnly, .coveredVerified]

def COMMIT_STATUSES : List Status :=
  CLAIM_STATUSES ++ [.uncovered]

def POLICY_RULES : List Rule :=
  [.requireAll, .requireSince]

def refuse (fault : Fault) (field : JsString) : Except Refusal α :=
  .error { fault, field := some field }

-- What is read of a field, unless the field is refused.
def demand (read : Option α) (fault : Fault) (field : JsString) : Except Refusal α :=
  match read with
  | some a => .ok a
  | none   => refuse fault field

def noUnknown (fields : List String) (path : JsString) (v : Value) : Except Refusal Unit :=
  match (ownKeys v).find? (· ∉ fields.map js) with
  | some k => refuse .reportUnknownField <| path ++ k
  | none   => .ok ()

def noMissing (fields : List String) (path : JsString) (v : Value) : Except Refusal Unit :=
  match fields.find? (¬ v.has ·) with
  | some k => refuse .reportMissingField <| path ++ js k
  | none   => .ok ()

def exactFields (fields : List String) (path : JsString) (v : Value) : Except Refusal Unit := do
  noUnknown fields path v
  noMissing fields path v

def elemsOf? : Value → Option (List Value)
  | .array elems => some elems
  | _            => none

def nullOr (read : Value → Option α) (v : Value) : Option (Option α) :=
  if v.isNull then some none else (read v).map some

def readOid (v : Value) : Option JsString :=
  v.toString?.filter isOid

-- The member of a closed vocabulary with a text.
def readText (text : α → JsString) (known : List α) (v : Value) : Option α :=
  known.find? fun a => v.toString? = some (text a)

-- `Number.isSafeInteger(v) && v >= 0`
def readCount (v : Value) : Option ℕ :=
  (v.toInt?.filter fun n => 0 ≤ n ∧ n ≤ (MAX_SAFE_INTEGER : ℤ)).map Int.toNat

def itemPath (path : JsString) (i : ℕ) : JsString :=
  path ++ js s!"[{i}]"

def readEach (read : JsString → Value → Except Refusal α) (path : JsString) : ℕ → List Value → Except Refusal (List α)
  | _, []      => .ok []
  | i, v :: vs => do
    let a ← read (itemPath path i) v
    let as ← readEach read path (i + 1) vs
    return a :: as

def readClaim (path : JsString) (v : Value) : Except Refusal ClaimEntry := do
  if ¬ v.isObject then
    refuse .reportBadField path
  exactFields REPORT_CLAIM_FIELDS (path ++ js ".") v
  let gitRoot ← demand ((v.get "gitRoot").toString?.filter isGitRoot) .claimBadGitRoot <| path ++ js ".gitRoot"
  let packetLabel ← demand ((v.get "packetLabel").toString?.filter isValidPacketLabel) .claimBadPacketLabel <|
    path ++ js ".packetLabel"
  let packetVerified ← demand (v.get "packetVerified").toBool? .claimBadPacketVerified <| path ++ js ".packetVerified"
  let rootVerified ← demand (nullOr toBool? <| v.get "rootVerified") .claimBadRootVerified <| path ++ js ".rootVerified"
  let status ← demand (readText Status.text CLAIM_STATUSES <| v.get "status") .reportBadField <| path ++ js ".status"
  return { gitRoot, packetLabel, packetVerified, rootVerified, status }

-- A commit, with the number of the claims of those before.
def readCommit (count : ℕ) (path : JsString) (v : Value) : Except Refusal CommitEntry := do
  if ¬ v.isObject then
    refuse .reportBadField path
  exactFields REPORT_COMMIT_FIELDS (path ++ js ".") v
  let oid ← demand (readOid <| v.get "oid") .reportBadField <| path ++ js ".oid"
  let status ← demand (readText Status.text COMMIT_STATUSES <| v.get "status") .reportBadField <| path ++ js ".status"
  let elems ← demand (elemsOf? <| v.get "claims") .reportBadField <| path ++ js ".claims"
  if count + elems.length > MAX_CLAIMS then
    refuse .claimsTooMany <| path ++ js ".claims"
  let claims ← readEach readClaim (path ++ js ".claims") 0 elems
  return { oid, status, claims }

def readCommits : ℕ → ℕ → List Value → Except Refusal (List CommitEntry)
  | _, _,     []      => .ok []
  | i, count, v :: vs => do
    let e ← readCommit count (itemPath (js "commits") i) v
    let es ← readCommits (i + 1) (count + e.claims.length) vs
    return e :: es

def readPolicy (v : Value) : Except Refusal Policy := do
  if ¬ v.isObject then
    refuse .reportBadField <| js "policy"
  exactFields POLICY_FIELDS (js "policy.") v
  let requireAll ← demand (v.get "requireAll").toBool? .reportBadField <| js "policy.requireAll"
  let requireSince ← demand (nullOr readOid <| v.get "requireSince") .reportBadField <| js "policy.requireSince"
  return { requireAll, requireSince }

def readTotal (v : Value) (key : String) : Except Refusal ℕ := do
  noMissing [key] (js "totals.") v
  demand (readCount <| v.get key) .reportBadField <| js "totals." ++ js key

def TOTALS_FIELDS : List String :=
  ["claim-root-mismatch", "claim-unverified-packet", "covered-oid-only", "covered-verified", "uncovered"]

def readTotals (v : Value) : Except Refusal Totals := do
  if ¬ v.isObject then
    refuse .reportBadField <| js "totals"
  noUnknown TOTALS_FIELDS (js "totals.") v
  let claimRootMismatch ← readTotal v "claim-root-mismatch"
  let claimUnverifiedPacket ← readTotal v "claim-unverified-packet"
  let coveredOidOnly ← readTotal v "covered-oid-only"
  let coveredVerified ← readTotal v "covered-verified"
  let uncovered ← readTotal v "uncovered"
  return { claimRootMismatch, claimUnverifiedPacket, coveredOidOnly, coveredVerified, uncovered }

def readFailure (path : JsString) (v : Value) : Except Refusal Failure := do
  if ¬ v.isObject then
    refuse .reportBadField path
  exactFields REPORT_FAILURE_FIELDS (path ++ js ".") v
  let oid ← demand (readOid <| v.get "oid") .reportBadField <| path ++ js ".oid"
  let rule ← demand (readText Rule.text POLICY_RULES <| v.get "rule") .reportBadField <| path ++ js ".rule"
  let status ← demand (readText Status.text COMMIT_STATUSES <| v.get "status") .reportBadField <| path ++ js ".status"
  return { oid, rule, status }

def readVerdict (v : Value) : Except Refusal Verdict := do
  if ¬ v.isObject then
    refuse .reportBadField <| js "verdict"
  exactFields REPORT_VERDICT_FIELDS (js "verdict.") v
  let pass ← demand (v.get "pass").toBool? .reportBadField <| js "verdict.pass"
  let elems ← demand ((elemsOf? <| v.get "failures").filter (·.length ≤ MAX_COMMITS)) .reportBadField <| js "verdict.failures"
  let failures ← readEach readFailure (js "verdict.failures") 0 elems
  return { pass, failures }

-- `_validateReportShape`, which returns what it has checked
def readReport (v : Value) : Except Refusal Report := do
  if ¬ v.isObject then
    throw { fault := .reportNotObject }
  if (v.get "kind").toString? ≠ some REPORT_KIND then
    refuse .reportBadKind <| js "kind"
  exactFields REPORT_TOP_FIELDS [] v
  let elems ← demand (elemsOf? <| v.get "commits") .reportBadField <| js "commits"
  if elems.length > MAX_COMMITS then
    refuse .commitsTooMany <| js "commits"
  let commits ← readCommits 0 0 elems
  let policy ← readPolicy <| v.get "policy"
  let totals ← readTotals <| v.get "totals"
  let verdict ← readVerdict <| v.get "verdict"
  return { commits, policy, totals, verdict }

-- `_canon`
def canonValue (v : Value) : JsString :=
  render <| tidy sortedOrder v

-- `serializeCoverageReport`, for a value which may be no report
def serializeValue (v : Value) : Except Refusal JsString := do
  let r ← readReport v
  match evaluateCoverage (reconstructInputs r) with
  | .error e => throw { fault := .reportInconsistent, detail := some e.reason }
  | .ok re   =>
    if canonValue v ≠ canon re then
      throw { fault := .reportInconsistent }
    if (canon re).length > MAX_REPORT_LENGTH then
      throw { fault := .reportTooLarge }
    return canon re

def parseCoverageReport (s : JsString) : Except Refusal Value := do
  if s.length > MAX_REPORT_LENGTH then
    throw { fault := .reportTooLarge }
  match parse s with
  | none        => throw { fault := .reportNotJson }
  | some parsed =>
    if ¬ parsed.isObject then
      throw { fault := .reportNotObject }
    if (parsed.get "kind").toString? ≠ some REPORT_KIND then
      refuse .reportBadKind <| js "kind"
    let json ← serializeValue parsed
    if json ≠ s then
      throw { fault := .reportNotCanonical }
    match parse json with
    | none        => throw { fault := .hostileInput }
    | some report => return report

end Coverage
