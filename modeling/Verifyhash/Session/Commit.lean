import Verifyhash.Session.Event

-- The claims about commits of `cli/core/agent-commit.js`.
namespace AgentCommit

open Json Value AgentSession

def CLAIM_KIND : JsString := js "vh-agent-commit-claim@1"

def CLAIM_EVENT_TYPE : JsString := js "note"

def DEFAULT_ACTOR : JsString := js "agent"

def CLAIM_FIELDS : List JsString :=
  ["commit", "gitRoot", "kind", "scope"].map js

def MAX_SCOPE_LENGTH : ℕ := 4096

def MAX_PAYLOAD_LENGTH : ℕ := 32768

-- `REASONS`, and those of the events
inductive Reason
  | claimNotObject
  | claimUnknownField
  | claimBadKind
  | claimBadCommit
  | claimBadGitRoot
  | claimBadScope
  | claimRedacted
  | claimBadEventType
  | payloadNotString
  | payloadTooLarge
  | payloadNotJson
  | payloadNotCanonical
  | verifyBadInput
  | verifyBadExpected
  | oidMismatch
  | rootMismatch
  | badClaim
  | hostileInput
  | event (reason : AgentSession.Reason)
  deriving DecidableEq

structure Reject where
  reason   : Reason
  field    : Option JsString := none
  index    : Option ℕ := none
  detail   : Option Reason := none
  claimed  : Option JsString := none
  expected : Option JsString := none
  deriving DecidableEq

def Reason.at (reason : Reason) (field : String) : Reject where
  reason := reason
  field  := some <| js field

-- The rejects of the events are passed on.
def ofEvent (r : AgentSession.Reject) : Reject where
  reason := .event r.reason
  field  := r.field
  index  := r.index

structure Claim where
  commit  : JsString
  gitRoot : JsString
  scope   : Option JsString
  deriving DecidableEq

def isHexDigit (u : UInt16) : Bool :=
  48 ≤ u ∧ u ≤ 57 ∨ 97 ≤ u ∧ u ≤ 102

-- `COMMIT_RE`
def isCommit (s : JsString) : Bool :=
  s.length = 40 ∧ s.all isHexDigit

-- `GIT_ROOT_RE`
def isGitRoot (s : JsString) : Bool :=
  s.take 2 = js "0x" ∧ s.length = 66 ∧ (s.drop 2).all isHexDigit

section

variable (keccak256 : Bytes → Bytes32) (toUtf8Bytes : JsString → Except JsString Bytes)

def isValidScope (s : JsString) : Bool :=
  s.length ≠ 0 ∧ s.length ≤ MAX_SCOPE_LENGTH ∧ 92 ∉ s ∧ (s.all fun u => 31 < u ∧ u ≠ 127) ∧
    (payloadHash keccak256 toUtf8Bytes (string s)).isSome ∧
    (s.splitOn 47).all fun seg => seg ∉ [[], js ".", js ".."]

-- The conditions on which the fields are rejected, in their order, and the rejects.
def claimChecks (input : Value) (extraAllowedKeys : List JsString) : List (Bool × Reject) :=
  let unknown := (ownKeys input).find? (· ∉ CLAIM_FIELDS ++ extraAllowedKeys)
  [
    (!input.isObject, { reason := .claimNotObject }),
    (input.has "kind" && (input.get "kind").toString? != some CLAIM_KIND, Reason.claimBadKind.at "kind"),
    (unknown.isSome, { reason := .claimUnknownField, field := unknown }),
    (!(input.get "commit").toString?.any isCommit, Reason.claimBadCommit.at "commit"),
    (!(input.get "gitRoot").toString?.any isGitRoot, Reason.claimBadGitRoot.at "gitRoot"),
    (input.has "scope" && !(input.get "scope").toString?.any (isValidScope keccak256 toUtf8Bytes),
      Reason.claimBadScope.at "scope")
  ]

-- `_validateClaimFields`
def validateClaimFields (input : Value) (extraAllowedKeys : List JsString) : Except Reject Claim :=
  match (claimChecks keccak256 toUtf8Bytes input extraAllowedKeys).find? (·.fst) with
  | some check => .error check.snd
  | none       => .ok {
      commit  := (input.get "commit").toString?.getD []
      gitRoot := (input.get "gitRoot").toString?.getD []
      scope   := (input.get "scope").toString?
    }

-- The fields of the claim object, in the order of `CLAIM_FIELDS`
def Claim.fields (c : Claim) : List (JsString × JsString) :=
  [(js "commit", c.commit), (js "gitRoot", c.gitRoot), (js "kind", CLAIM_KIND)] ++
    c.scope.toList.map fun scope => (js "scope", scope)

-- `_serializeClaim`
def serializeClaim (c : Claim) : JsString :=
  js "\x7b" ++ join (c.fields.map fun f => quote f.fst ++ js ":" ++ quote f.snd) ++ js "\x7d"

def commitClaimPayload (input : Value) : Except Reject (JsString × Claim) := do
  let claim ← validateClaimFields keccak256 toUtf8Bytes input []
  return (serializeClaim claim, claim)

def parseCommitClaim (payload : Value) : Except Reject Claim :=
  match payload.toString? with
  | none   => .error { reason := .payloadNotString }
  | some s =>
    if s.length > MAX_PAYLOAD_LENGTH then .error { reason := .payloadTooLarge }
    else
      match parse s with
      | none        => .error { reason := .payloadNotJson }
      | some parsed =>
        if ¬ parsed.isObject then .error { reason := .claimNotObject }
        else if (parsed.get "kind").toString? ≠ some CLAIM_KIND then .error <| Reason.claimBadKind.at "kind"
        else
          match validateClaimFields keccak256 toUtf8Bytes parsed [] with
          | .error reject => .error reject
          | .ok claim     =>
            if serializeClaim claim ≠ s then .error { reason := .payloadNotCanonical } else .ok claim

structure ClaimEvent where
  event   : Value
  payload : JsString
  claim   : Claim

def claimEvent (input : Value) (claim : Claim) : Value :=
  object [
    (js "seq", input.get "seq"),
    (js "ts", input.get "ts"),
    (js "actor", if input.has "actor" then input.get "actor" else string DEFAULT_ACTOR),
    (js "type", string CLAIM_EVENT_TYPE),
    (js "payload", string <| serializeClaim claim)
  ]

def buildCommitClaimEvent (input : Value) : Except Reject ClaimEvent := do
  let claim ← validateClaimFields keccak256 toUtf8Bytes input <| ["seq", "ts", "actor"].map js
  let event := claimEvent input claim
  match validateEvent keccak256 toUtf8Bytes event with
  | .error reject => throw (ofEvent reject)
  | .ok _         => return { event, payload := serializeClaim claim, claim }

structure Found where
  index   : ℕ
  seq     : Value
  claim   : Claim
  payload : JsString
  event   : Value

-- The claim which an event discloses, and its payload
def disclosed (e : Value) : Option (Claim × JsString) :=
  if (e.get "type").toString? ≠ some CLAIM_EVENT_TYPE then none
  else do
    let payload ← (e.get "payload").toString?
    let claim ← (parseCommitClaim keccak256 toUtf8Bytes <| string payload).toOption
    return (claim, payload)

-- The loop over the events, from position `i` on. The copy of an event may throw.
def findFrom (i : ℕ) : List Value → Except Reject (List Found)
  | []      => .ok []
  | e :: es =>
    match disclosed keccak256 toUtf8Bytes e with
    | none                  => findFrom (i + 1) es
    | some (claim, payload) =>
      match (stringify e).bind parse with
      | none      => .error { reason := .hostileInput }
      | some copy => do
        let claims ← findFrom (i + 1) es
        return { index := i, seq := e.get "seq", claim, payload, event := copy } :: claims

def findCommitClaims (events : Value) : Except Reject (List Found) :=
  match validateSession keccak256 toUtf8Bytes events, events with
  | .error reject, _     => .error <| ofEvent reject
  | .ok _, .array es     => findFrom keccak256 toUtf8Bytes 0 es
  | .ok _, _             => .ok []

structure Verified where
  claim : Claim
  seq   : Option Value

def expectedChecks (expected : Value) : List (Bool × Reject) :=
  let unknown := (ownKeys expected).find? (· ∉ ["commit", "gitRoot"].map js)
  [
    (!expected.isObject, Reason.verifyBadExpected.at "expected"),
    (unknown.isSome, { reason := .verifyBadExpected, field := unknown }),
    (!(expected.get "commit").toString?.any isCommit, Reason.verifyBadExpected.at "commit"),
    (!(expected.get "gitRoot").toString?.any isGitRoot, Reason.verifyBadExpected.at "gitRoot")
  ]

def argsChecks (args : Value) : List (Bool × Reject) :=
  let unknown := (ownKeys args).find? (· ∉ ["event", "payloadString", "expected"].map js)
  [
    (!args.isObject, { reason := .verifyBadInput }),
    (unknown.isSome, { reason := .verifyBadInput, field := unknown }),
    (args.has "event" == args.has "payloadString", Reason.verifyBadInput.at "event")
  ]

-- The payload to verify, and the position of its event
def payloadOf (args : Value) : Except Reject (Value × Option Value) :=
  if args.has "event" then
    let event := args.get "event"
    match validateEvent keccak256 toUtf8Bytes event with
    | .error reject => .error { reason := .badClaim, detail := some <| .event reject.reason, field := reject.field }
    | .ok v         =>
      if v.redacted then .error { reason := .badClaim, detail := some .claimRedacted }
      else if (event.get "type").toString? ≠ some CLAIM_EVENT_TYPE then
        .error { reason := .badClaim, detail := some .claimBadEventType, field := some <| js "type" }
      else .ok (event.get "payload", some <| event.get "seq")
  else .ok (args.get "payloadString", none)

def verifyCommitClaim (args : Value) : Except Reject Verified :=
  let expected := args.get "expected"
  match (argsChecks args ++ expectedChecks expected).find? (·.fst) with
  | some check => .error check.snd
  | none       => do
    let (payload, seq) ← payloadOf keccak256 toUtf8Bytes args
    match parseCommitClaim keccak256 toUtf8Bytes payload with
    | .error reject => throw { reason := .badClaim, detail := some reject.reason, field := reject.field }
    | .ok claim     =>
      let commit := (expected.get "commit").toString?.getD []
      let gitRoot := (expected.get "gitRoot").toString?.getD []
      if claim.commit ≠ commit then
        throw { Reason.oidMismatch.at "commit" with claimed := some claim.commit, expected := some commit }
      if claim.gitRoot ≠ gitRoot then
        throw { Reason.rootMismatch.at "gitRoot" with claimed := some claim.gitRoot, expected := some gitRoot }
      return { claim, seq }

end

end AgentCommit
