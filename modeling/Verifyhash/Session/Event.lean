import Verifyhash.Data.Json.Canonical
import Verifyhash.Journal.Log

-- The session logs of `cli/core/agent-session.js`.
namespace AgentSession

open Hex Json Value

def EVENT_TYPES : List JsString :=
  ["prompt", "completion", "tool_call", "tool_result", "note"].map js

def EVENT_FIELDS : List JsString :=
  ["seq", "ts", "actor", "type", "payload", "payloadHash", "redacted", "meta"].map js

def LEAF_DOMAIN : JsString := js "vh.agent-session/v1:event-leaf"

-- The greatest number for which `Number.isSafeInteger` holds.
def MAX_SAFE_INTEGER : ℕ := 2 ^ 53 - 1

def META_MAX_DEPTH : ℕ := 32
def META_MAX_NODES : ℕ := 100000

-- `REASONS`
inductive Reason
  | eventNotObject
  | eventUnknownField
  | eventBadSeq
  | eventBadTs
  | eventBadActor
  | eventBadType
  | eventBadPayload
  | eventBadPayloadHash
  | eventPayloadHashMismatch
  | eventBadRedactedFlag
  | eventRedactedWithPayload
  | eventUnflaggedRedaction
  | eventMissingPayload
  | eventBadMeta
  | sessionNotArray
  | sessionSeqNotContiguous
  | indexOutOfRange
  | proofMalformed
  | proofSeqMismatch
  | eventNotInHead
  | growthRange
  | growthNotAppendOnly
  | hostileInput
  deriving DecidableEq

-- A result with `ok: false`.
structure Reject where
  reason : Reason
  field  : Option JsString := none
  index  : Option ℕ := none
  deriving DecidableEq

def Reason.at (reason : Reason) (field : String) : Reject where
  reason := reason
  field  := some <| js field

-- The own keys of an object.
def ownKeys : Value → List JsString
  | .object fields => ownOrder <| Fields.keys fields
  | _              => []

-- A visit of a value at a depth. The state is the budget `n`, and a failure is a result of `null`.
def visit (depth : ℕ) : StateT ℕ Option Unit := do
  guard (depth ≤ META_MAX_DEPTH)
  modify (· + 1)
  guard (¬ META_MAX_NODES < (← get))

mutual

-- `_canonicalJson`
def canonicalJson : Value → ℕ → StateT ℕ Option JsString
  | .null, depth          => do visit depth; return js "null"
  | .bool b, depth        => do visit depth; return if b then js "true" else js "false"
  | .number n, depth      => do
    visit depth
    match n with
    | .nan | .infinity _ => failure
    | n                  => return numberText n
  | .string s, depth      => do visit depth; return quote s
  | .array elems, depth   => do
    visit depth
    let parts ← canonicalElems elems (depth + 1)
    return js "[" ++ join parts ++ js "]"
  | .object fields, depth => do
    visit depth
    let parts ← (Fields.arrange sortedOrder <| canonicalFields fields (depth + 1)).mapM fun (k, p) => do
      return (k, ← p)
    return js "\x7b" ++ joinFields parts ++ js "\x7d"
  | .undefined, _         => failure

def canonicalElems : List Value → ℕ → StateT ℕ Option (List JsString)
  | [], _          => return []
  | v :: vs, depth => do
    let part ← canonicalJson v depth
    let parts ← canonicalElems vs depth
    return part :: parts

def canonicalFields : List (JsString × Value) → ℕ → List (JsString × Option (StateT ℕ Option JsString))
  | [], _               => []
  | (k, v) :: fs, depth => (k, some (canonicalJson v depth)) :: canonicalFields fs depth

end

-- The canonical text of `meta`, with a fresh budget.
def canonicalMeta (value : Value) : Option JsString :=
  (canonicalJson value 0).run' 0

-- An event which is accepted.
structure Validation where
  redacted    : Bool
  payloadHash : JsString
  metaJson    : Option JsString
  deriving DecidableEq

-- The conditions on which `validateEvent` rejects an event before it computes the commitment, in their
-- order, and the rejects.
def shapeChecks (event : Value) : List (Bool × Reject) :=
  let unknown := (ownKeys event).find? (· ∉ EVENT_FIELDS)
  let hasPayload := event.has "payload"
  let hasHash := event.has "payloadHash"
  let redacted := (event.get "redacted").toBool? == some true
  [
    (!event.isObject, { reason := .eventNotObject }),
    (unknown.isSome, { reason := .eventUnknownField, field := unknown }),
    (!(event.get "seq").toInt?.any (fun seq => 0 ≤ seq ∧ seq ≤ (MAX_SAFE_INTEGER : ℤ)), Reason.eventBadSeq.at "seq"),
    (!(event.get "ts").toString?.isSome, Reason.eventBadTs.at "ts"),
    (!(event.get "actor").toString?.any (· ≠ []), Reason.eventBadActor.at "actor"),
    (!(event.get "type").toString?.any (· ∈ EVENT_TYPES), Reason.eventBadType.at "type"),
    (hasPayload && !(event.get "payload").toString?.isSome, Reason.eventBadPayload.at "payload"),
    (hasHash && !(event.get "payloadHash").hex32?.isSome, Reason.eventBadPayloadHash.at "payloadHash"),
    (event.has "redacted" && !(event.get "redacted").toBool?.isSome,
      Reason.eventBadRedactedFlag.at "redacted"),
    (!hasPayload && !hasHash, Reason.eventMissingPayload.at "payload"),
    (redacted && hasPayload, Reason.eventRedactedWithPayload.at "redacted"),
    (redacted && !hasHash, Reason.eventBadPayloadHash.at "payloadHash"),
    (!hasPayload && !redacted, Reason.eventUnflaggedRedaction.at "redacted")
  ]

def shapeReject (event : Value) : Option Reject :=
  (shapeChecks event).find? (·.fst) |>.map (·.snd)

section

variable (keccak256 : Bytes → Bytes32) (toUtf8Bytes : JsString → Except JsString Bytes)

-- What is thrown by the encoder is caught.
def payloadHash (payload : Value) : Option JsString := do
  let payload ← payload.toString?
  let bytes ← (toUtf8Bytes payload).toOption
  return hashBytes keccak256 bytes

def commitment (event : Value) : Except Reject JsString :=
  let carried := toLowerCase <| (event.get "payloadHash").hex32?.getD []
  if event.has "payload" then
    match payloadHash keccak256 toUtf8Bytes <| event.get "payload" with
    | none            => .error <| Reason.eventBadPayload.at "payload"
    | some commitment =>
      if event.has "payloadHash" ∧ commitment ≠ carried then
        .error <| Reason.eventPayloadHashMismatch.at "payloadHash"
      else
        .ok commitment
  else
    .ok carried

def metaJson (event : Value) : Except Reject (Option JsString) :=
  if event.has "meta" then
    match canonicalMeta <| event.get "meta" with
    | none   => .error <| Reason.eventBadMeta.at "meta"
    | some t => .ok <| some t
  else
    .ok none

def validateEvent (event : Value) : Except Reject Validation :=
  match shapeReject event with
  | some reject => .error reject
  | none        => do
    let payloadHash ← commitment keccak256 toUtf8Bytes event
    let metaJson ← metaJson event
    return { redacted := ¬ event.has "payload", payloadHash, metaJson }

-- The array whose text is hashed for an event.
def leafArray (event : Value) (v : Validation) : Value :=
  .array [
    string LEAF_DOMAIN,
    event.get "seq",
    event.get "ts",
    event.get "actor",
    event.get "type",
    string v.payloadHash,
    v.metaJson.elim null string
  ]

-- In the functions which return `null` instead of throwing, `none` stands for `null`.
def eventLeaf (event : Value) : Option JsString := do
  let v ← (validateEvent keccak256 toUtf8Bytes event).toOption
  let encoded ← stringify <| leafArray event v
  let bytes ← (toUtf8Bytes encoded).toOption
  return hashBytes keccak256 bytes

def redactEvent (event : Value) : Except Reject Value := do
  let v ← validateEvent keccak256 toUtf8Bytes event
  let twin := [
    (js "seq", event.get "seq"),
    (js "ts", event.get "ts"),
    (js "actor", event.get "actor"),
    (js "type", event.get "type"),
    (js "payloadHash", string v.payloadHash),
    (js "redacted", bool true)
  ]
  match v.metaJson with
  | none   => return object twin
  | some t =>
    match parse t with
    | some m => return object <| twin ++ [(js "meta", m)]
    | none   => throw { reason := .hostileInput }

-- The loop of `validateSession` from position `i` on.
def validateFrom (i : ℕ) : List Value → Except Reject ℕ
  | []      => .ok i
  | e :: es =>
    match validateEvent keccak256 toUtf8Bytes e with
    | .error reject => .error { reject with index := some i }
    | .ok _         =>
      if (e.get "seq").toInt? ≠ some (i : ℤ) then
        .error { reason := .sessionSeqNotContiguous, index := some i }
      else
        validateFrom (i + 1) es

-- The size of a session.
def validateSession (events : Value) : Except Reject ℕ :=
  match events with
  | .array es => validateFrom keccak256 toUtf8Bytes 0 es
  | _         => .error { reason := .sessionNotArray }

-- `events.map((e) => eventLeaf(e))`
def leaves (events : Value) : Value :=
  match events with
  | .array es => .array <| es.map fun e => (eventLeaf keccak256 toUtf8Bytes e).elim null string
  | _         => undefined

def sessionHead (events : Value) : Except Reject Value := do
  let _ ← validateSession keccak256 toUtf8Bytes events
  let head := JournalLog.treeHead keccak256 <| leaves keccak256 toUtf8Bytes events
  if (head.get "root").isNull then
    throw { reason := .hostileInput }
  return object [(js "ok", bool true), (js "size", head.get "size"), (js "root", head.get "root")]

-- The event at an index which passes the check of the range.
def eventAt (events index : Value) : Option Value :=
  match events, index.toInt? with
  | .array es, some (.ofNat i) => es[i]?
  | _, _                       => none

def proveEvent (events index : Value) : Except Reject Value := do
  let _ ← validateSession keccak256 toUtf8Bytes events
  match eventAt events index with
  | none       => throw { reason := .indexOutOfRange }
  | some event =>
    let ip := JournalLog.inclusionProof keccak256 (leaves keccak256 toUtf8Bytes events) index
    match ip.isNull, (stringify event).bind parse with
    | false, some copy =>
      return object [
        (js "event", copy),
        (js "inclusion", object [
          (js "leafIndex", ip.get "leafIndex"),
          (js "treeSize", ip.get "treeSize"),
          (js "path", ip.get "path")
        ])
      ]
    | _, _ => throw { reason := .hostileInput }

-- The `seq` and `redacted` of the event if it is accepted.
def verifyEvent (proof head : Value) : Except Reject (Value × Bool) := do
  if ¬ proof.isObject then
    throw { reason := .proofMalformed }
  let event := proof.get "event"
  let v ← validateEvent keccak256 toUtf8Bytes event
  let inc := proof.get "inclusion"
  if ¬ inc.isObject then
    throw { reason := .proofMalformed }
  if (event.get "seq").toInt? ≠ (inc.get "leafIndex").toInt? then
    throw { reason := .proofSeqMismatch }
  match eventLeaf keccak256 toUtf8Bytes event with
  | none      => throw { reason := .proofMalformed }
  | some leaf =>
    let included := JournalLog.verifyInclusion keccak256 (object [
        (js "leaf", string leaf),
        (js "leafIndex", inc.get "leafIndex"),
        (js "treeSize", inc.get "treeSize"),
        (js "path", inc.get "path")
      ]) head
    if ¬ included then
      throw { reason := .eventNotInHead }
    return (event.get "seq", v.redacted)

def proveGrowth (events firstSize secondSize : Value) : Except Reject Value := do
  let size ← validateSession keccak256 toUtf8Bytes events
  let n := if secondSize.isUndefined then nat size else secondSize
  match firstSize.toInt?, n.toInt? with
  | some first, some second =>
    if first < 1 ∨ second < first ∨ size < second then
      throw { reason := .growthRange }
    let cp := JournalLog.consistencyProof keccak256 (leaves keccak256 toUtf8Bytes events) firstSize n
    if cp.isNull then
      throw { reason := .hostileInput }
    return cp
  | _, _ => throw { reason := .growthRange }

def verifyGrowth (earlierHead laterHead proof : Value) : Except Reject Unit := do
  if ¬ proof.isObject then
    throw { reason := .proofMalformed }
  if ¬ JournalLog.verifyConsistency keccak256 proof earlierHead laterHead then
    throw { reason := .growthNotAppendOnly }

end

end AgentSession
