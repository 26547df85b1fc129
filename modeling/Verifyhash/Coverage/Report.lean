import Verifyhash.Data.Json.Canonical
import Verifyhash.Data.Unicode
import Verifyhash.Library.Rounding

-- The coverage of commits by sealed sessions in `cli/core/agent-coverage.js`. The arguments are plain data of
-- the documented shape: a row which is no such data is outside of the types.
namespace Coverage

open Json Value

def REPORT_KIND : JsString := js "vh-agent-coverage@1"

def MAX_COMMITS : ℕ := 100000

def MAX_CLAIMS : ℕ := 100000

def MAX_PACKET_LABEL_LENGTH : ℕ := 4096

def MAX_REPORT_LENGTH : ℕ := 64 * 1024 * 1024

-- `COMMIT_STATUSES`
inductive Status
  | claimRootMismatch
  | claimUnverifiedPacket
  | coveredOidOnly
  | coveredVerified
  | uncovered
  deriving DecidableEq

def Status.text : Status → JsString
  | claimRootMismatch     => js "claim-root-mismatch"
  | claimUnverifiedPacket => js "claim-unverified-packet"
  | coveredOidOnly        => js "covered-oid-only"
  | coveredVerified       => js "covered-verified"
  | uncovered             => js "uncovered"

-- `COVERED_STATUSES`
def COVERED_STATUSES : List Status :=
  [.coveredVerified, .coveredOidOnly]

-- `STATUS_PRECEDENCE`, which has no rank for `uncovered`
def STATUS_PRECEDENCE : Status → Option ℕ
  | .coveredVerified       => some 0
  | .coveredOidOnly        => some 1
  | .claimRootMismatch     => some 2
  | .claimUnverifiedPacket => some 3
  | .uncovered             => none

inductive Reason
  | commitsTooMany
  | commitBadOid
  | commitsDuplicateOid
  | claimsTooMany
  | claimBadOid
  | claimBadGitRoot
  | claimBadPacketLabel
  | policyBadRequireSince
  | policySinceNotInRange
  | reportBadField
  | reportInconsistent
  | reportTooLarge
  deriving DecidableEq

structure Reject where
  reason : Reason
  index  : Option ℕ := none
  field  : Option JsString := none
  deriving DecidableEq

structure ClaimRow where
  oid            : JsString
  gitRoot        : JsString
  packetLabel    : JsString
  packetVerified : Bool
  rootVerified   : Option Bool
  deriving DecidableEq

-- The policy as it is given: its fields may be absent.
structure PolicyInput where
  requireAll   : Option Bool := none
  requireSince : Option JsString := none
  deriving DecidableEq

structure Args where
  commits : List JsString
  claims  : List ClaimRow
  policy  : PolicyInput := { }

structure ClaimEntry where
  gitRoot        : JsString
  packetLabel    : JsString
  packetVerified : Bool
  rootVerified   : Option Bool
  status         : Status
  deriving DecidableEq

structure CommitEntry where
  oid    : JsString
  status : Status
  claims : List ClaimEntry
  deriving DecidableEq

structure Policy where
  requireAll   : Bool
  requireSince : Option JsString
  deriving DecidableEq

structure Totals where
  claimRootMismatch     : ℕ := 0
  claimUnverifiedPacket : ℕ := 0
  coveredOidOnly        : ℕ := 0
  coveredVerified       : ℕ := 0
  uncovered             : ℕ := 0
  deriving DecidableEq

-- `totals[status] += 1`
def Totals.count (t : Totals) : Status → Totals
  | .claimRootMismatch     => { t with claimRootMismatch := t.claimRootMismatch + 1 }
  | .claimUnverifiedPacket => { t with claimUnverifiedPacket := t.claimUnverifiedPacket + 1 }
  | .coveredOidOnly        => { t with coveredOidOnly := t.coveredOidOnly + 1 }
  | .coveredVerified       => { t with coveredVerified := t.coveredVerified + 1 }
  | .uncovered             => { t with uncovered := t.uncovered + 1 }

-- `POLICY_RULES`
inductive Rule
  | requireAll
  | requireSince
  deriving DecidableEq

def Rule.text : Rule → JsString
  | requireAll   => js "require-all"
  | requireSince => js "require-since"

structure Failure where
  oid    : JsString
  rule   : Rule
  status : Status
  deriving DecidableEq

structure Verdict where
  pass     : Bool
  failures : List Failure
  deriving DecidableEq

structure Report where
  commits : List CommitEntry
  policy  : Policy
  totals  : Totals
  verdict : Verdict
  deriving DecidableEq

def isHexDigit (u : UInt16) : Bool :=
  48 ≤ u ∧ u ≤ 57 ∨ 97 ≤ u ∧ u ≤ 102

-- `OID_RE`
def isOid (s : JsString) : Bool :=
  s.length = 40 ∧ s.all isHexDigit

-- `GIT_ROOT_RE`
def isGitRoot (s : JsString) : Bool :=
  s.take 2 = js "0x" ∧ s.length = 66 ∧ (s.drop 2).all isHexDigit

-- `LONE_SURROGATE_RE` has no match in the texts which decode without loss.
def isValidPacketLabel (s : JsString) : Bool :=
  s.length ≠ 0 ∧ s.length ≤ MAX_PACKET_LABEL_LENGTH ∧ (s.all fun u => 31 < u ∧ u ≠ 127) ∧
    Unicode.utf16 (Unicode.decode s) = s

def validateClaimFacts (gitRoot packetLabel : JsString) : Option (Reason × JsString) :=
  if ¬ isGitRoot gitRoot then some (.claimBadGitRoot, js "gitRoot")
  else if ¬ isValidPacketLabel packetLabel then some (.claimBadPacketLabel, js "packetLabel")
  else none

def claimStatus (packetVerified : Bool) (rootVerified : Option Bool) : Status :=
  if packetVerified ≠ true then .claimUnverifiedPacket
  else if rootVerified = some true then .coveredVerified
  else if rootVerified = none then .coveredOidOnly
  else .claimRootMismatch

-- The loop over the commits, with those before.
def checkCommits : ℕ → List JsString → List JsString → Except Reject Unit
  | _, _, []             => .ok ()
  | i, seen, oid :: oids =>
    if ¬ isOid oid then .error { reason := .commitBadOid, index := some i, field := some <| js "oid" }
    else if oid ∈ seen then .error { reason := .commitsDuplicateOid, index := some i, field := some <| js "oid" }
    else checkCommits (i + 1) (seen ++ [oid]) oids

def ClaimRow.entry (cl : ClaimRow) : ClaimEntry where
  gitRoot        := cl.gitRoot
  packetLabel    := cl.packetLabel
  packetVerified := cl.packetVerified
  rootVerified   := cl.rootVerified
  status         := claimStatus cl.packetVerified cl.rootVerified

-- The loop over the claims, which returns those about commits in the range.
def checkClaims (commits : List JsString) : ℕ → List ClaimRow → Except Reject (List ClaimRow)
  | _, []        => .ok []
  | i, cl :: cls =>
    if ¬ isOid cl.oid then .error { reason := .claimBadOid, index := some i, field := some <| js "oid" }
    else
      match validateClaimFacts cl.gitRoot cl.packetLabel with
      | some (reason, field) => .error { reason, index := some i, field := some field }
      | none                 =>
        (checkClaims commits (i + 1) cls).map fun kept => if cl.oid ∈ commits then cl :: kept else kept

-- `byOid.get(oid) || []`
def entriesOf (kept : List ClaimRow) (oid : JsString) : List ClaimEntry :=
  (kept.filter (·.oid = oid)).map ClaimRow.entry

-- The loop over the entries of a commit. The rank is `none` for `Infinity`.
def betterStatus (b : Option ℕ × Status) (ce : ClaimEntry) : Option ℕ × Status :=
  match STATUS_PRECEDENCE ce.status, b.fst with
  | some rank, some best => if rank < best then (some rank, ce.status) else b
  | some rank, none      => (some rank, ce.status)
  | none, _              => b

def commitStatus (entries : List ClaimEntry) : Status :=
  (entries.foldl betterStatus (none, .uncovered)).snd

def commitEntry (kept : List ClaimRow) (oid : JsString) : CommitEntry where
  oid    := oid
  status := commitStatus <| entriesOf kept oid
  claims := entriesOf kept oid

def checkPolicy (commits : List JsString) (p : PolicyInput) : Except Reject Policy :=
  match p.requireSince with
  | none     => .ok { requireAll := p.requireAll = some true, requireSince := none }
  | some oid =>
    if ¬ isOid oid then .error { reason := .policyBadRequireSince, field := some <| js "requireSince" }
    else if oid ∉ commits then .error { reason := .policySinceNotInRange, field := some <| js "requireSince" }
    else .ok { requireAll := p.requireAll = some true, requireSince := some oid }

-- The failure of a commit at a position, if there is one.
def failureAt (policy : Policy) (sinceIndex : Option ℕ) (e : CommitEntry) (i : ℕ) : Option Failure :=
  if e.status ∈ COVERED_STATUSES then none
  else if policy.requireAll then some { oid := e.oid, rule := .requireAll, status := e.status }
  else if sinceIndex.any (· ≤ i) then some { oid := e.oid, rule := .requireSince, status := e.status }
  else none

def reportOf (commits : List JsString) (kept : List ClaimRow) (policy : Policy) : Report :=
  let entries := commits.map (commitEntry kept)
  let sinceIndex := policy.requireSince.map fun oid => commits.idxOf oid
  let failures := entries.zipIdx.filterMap fun e => failureAt policy sinceIndex e.fst e.snd
  {
    commits := entries
    policy
    totals  := entries.foldl (fun t e => t.count e.status) { }
    verdict := { pass := failures.length = 0, failures }
  }

def evaluateCoverage (args : Args) : Except Reject Report := do
  if args.commits.length > MAX_COMMITS then
    throw { reason := .commitsTooMany, field := some <| js "commits" }
  checkCommits 0 [] args.commits
  if args.claims.length > MAX_CLAIMS then
    throw { reason := .claimsTooMany, field := some <| js "claims" }
  let kept ← checkClaims args.commits 0 args.claims
  let policy ← checkPolicy args.commits args.policy
  return reportOf args.commits kept policy

-- The object of a report.
def ClaimEntry.toValue (ce : ClaimEntry) : Value :=
  object [
    (js "gitRoot", string ce.gitRoot),
    (js "packetLabel", string ce.packetLabel),
    (js "packetVerified", bool ce.packetVerified),
    (js "rootVerified", ce.rootVerified.elim null bool),
    (js "status", string ce.status.text)
  ]

def CommitEntry.toValue (e : CommitEntry) : Value :=
  object [
    (js "oid", string e.oid),
    (js "status", string e.status.text),
    (js "claims", .array <| e.claims.map ClaimEntry.toValue)
  ]

def Failure.toValue (f : Failure) : Value :=
  object [(js "oid", string f.oid), (js "rule", string f.rule.text), (js "status", string f.status.text)]

def Report.toValue (r : Report) : Value :=
  object [
    (js "kind", string REPORT_KIND),
    (js "commits", .array <| r.commits.map CommitEntry.toValue),
    (js "policy", object [
      (js "requireAll", bool r.policy.requireAll),
      (js "requireSince", r.policy.requireSince.elim null string)
    ]),
    (js "totals", object [
      (js "claim-root-mismatch", nat r.totals.claimRootMismatch),
      (js "claim-unverified-packet", nat r.totals.claimUnverifiedPacket),
      (js "covered-oid-only", nat r.totals.coveredOidOnly),
      (js "covered-verified", nat r.totals.coveredVerified),
      (js "uncovered", nat r.totals.uncovered)
    ]),
    (js "verdict", object [
      (js "pass", bool r.verdict.pass),
      (js "failures", .array <| r.verdict.failures.map Failure.toValue)
    ])
  ]

-- `_canon`
def canon (r : Report) : JsString :=
  render <| tidy sortedOrder r.toValue

-- `_validateReportShape`, for the checks which the types leave open
def validateReportShape (r : Report) : Except Reject Unit := do
  if r.commits.length > MAX_COMMITS then
    throw { reason := .commitsTooMany, field := some <| js "commits" }
  if ¬ r.commits.all (isOid ·.oid) then
    throw { reason := .reportBadField }
  if (r.commits.map (·.claims.length)).sum > MAX_CLAIMS then
    throw { reason := .claimsTooMany }
  match (r.commits.flatMap (·.claims)).findSome? fun cl => validateClaimFacts cl.gitRoot cl.packetLabel with
  | some (reason, _) => throw { reason }
  | none             =>
    if ¬ r.policy.requireSince.all isOid then
      throw { reason := .reportBadField, field := some <| js "policy.requireSince" }
    if r.verdict.failures.length > MAX_COMMITS then
      throw { reason := .reportBadField, field := some <| js "verdict.failures" }
    if ¬ r.verdict.failures.all (isOid ·.oid) then
      throw { reason := .reportBadField }

def reconstructInputs (r : Report) : Args where
  commits := r.commits.map (·.oid)
  claims  := r.commits.flatMap fun c => c.claims.map fun cl => {
      oid            := c.oid
      gitRoot        := cl.gitRoot
      packetLabel    := cl.packetLabel
      packetVerified := cl.packetVerified
      rootVerified   := cl.rootVerified
    }
  policy  := {
      requireAll   := if r.policy.requireAll then some true else none
      requireSince := r.policy.requireSince
    }

def serializeCoverageReport (r : Report) : Except Reject JsString := do
  validateReportShape r
  match evaluateCoverage (reconstructInputs r) with
  | .error _ => throw { reason := .reportInconsistent }
  | .ok re   =>
    let canonical := canon re
    if canon r ≠ canonical then
      throw { reason := .reportInconsistent }
    if canonical.length > MAX_REPORT_LENGTH then
      throw { reason := .reportTooLarge }
    return canonical

structure Summary where
  totalCommits       : ℕ
  coveredCommits     : ℕ
  coveragePercent    : ℤ
  deepCovered        : ℕ
  oidOnlyCovered     : ℕ
  discrepancies      : ℕ
  unverifiablePackets : ℕ
  uncoveredCommits   : ℕ
  policy             : Policy
  pass               : Bool
  failureCount       : ℕ
  fullyCovered       : Bool
  deriving DecidableEq

-- `Math.floor((covered * 100) / total)`: the quotient is rounded to a double. It is small.
def percent (covered total : ℕ) : ℤ :=
  if total = 0 then 100 else ⌊(Double.round (covered * 100 / total : ℚ)).getD 0⌋

-- The summary, without the text for its readers.
def summarizeCoverage (r : Report) : Except Reject Summary := do
  let _ ← serializeCoverageReport r
  let t := r.totals
  let totalCommits := r.commits.length
  let coveredCommits := t.coveredVerified + t.coveredOidOnly
  return {
    totalCommits
    coveredCommits
    coveragePercent     := percent coveredCommits totalCommits
    deepCovered         := t.coveredVerified
    oidOnlyCovered      := t.coveredOidOnly
    discrepancies       := t.claimRootMismatch
    unverifiablePackets := t.claimUnverifiedPacket
    uncoveredCommits    := t.uncovered
    policy              := r.policy
    pass                := r.verdict.pass
    failureCount        := r.verdict.failures.length
    fullyCovered        := coveredCommits = totalCommits
  }

end Coverage
