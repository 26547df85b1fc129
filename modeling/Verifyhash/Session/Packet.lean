import Verifyhash.Session.Event
import Verifyhash.Trust.Attestation

-- The packets of `cli/agent.js`, in which sessions are sealed.
namespace AgentSession

open Hex Json Value Checks CoreAttestation

def PACKET_KIND : JsString := js "vh.agent-session-packet"
def AGENT_HEAD_KIND : JsString := js "vh.agent-head"
def SIGNED_HEAD_KIND : JsString := js "vh.agent-head-signed"

def AGENT_TRUST_NOTE : JsString := js <|
  "This agent-session packet is TAMPER-EVIDENT + OFFLINE-RECOMPUTABLE, NOT a trusted timestamp and " ++
  "NOT a claim the agent behaved well. Its ordered Merkle `head` \x7bsize, root\x7d (RFC-6962-style, " ++
  "position-bound) commits to every event: verify RE-DERIVES each event leaf — recomputing the " ++
  "payload hash commitment for a FULL event, checking the carried commitment for a REDACTED one — " ++
  "and the root from the events you hold, and a REJECT names the first offending event seq. " ++
  "Redaction WITHHOLDS a payload behind its hash commitment without changing any leaf or the root: " ++
  "it can hide, never silently alter. Event `ts` fields are SELF-ASSERTED metadata (recorded, never " ++
  "verified against any clock); \"sealed at time T\" rides the human-owned signing/timestamp " ++
  "trust-root (STRATEGY.md P-3). Garbage-in is out of scope: the head proves the LOG is intact and " ++
  "append-only, not that the log faithfully records what the agent actually did. The packet is an " ++
  "UNTRUSTED transport container: verify never trusts the packet's own stored hashes."

def SIGNED_HEAD_TRUST_NOTE : JsString :=
  js ("This is a SIGNED agent-session HEAD attestation: it WRAPS (never edits) the EXACT canonical head " ++
  "bytes in `attestation` and attaches a detached EIP-191 signature. It asserts the holder of the " ++
  "`signer` key vouched for THIS session head \x7bsize, root\x7d at signing time. Because event leaves " ++
  "are redaction-safe, the SAME signature stays valid for every redacted copy of the sealed session " ++
  "(redaction changes neither leaves nor root). It does NOT prove a timestamp (no \"sealed since " ++
  "T\" — still the human trust-root P-3) and is NOT a legal opinion. Every caveat of the packet " ++
  "applies. ") ++
  AGENT_TRUST_NOTE

def PACKET_FIELDS : List JsString :=
  ["kind", "schemaVersion", "note", "head", "counts", "events", "leaves", "headAttestation"].map js

def HEAD_PAYLOAD_FIELDS : List JsString :=
  ["kind", "schemaVersion", "note", "head"].map js

def HEAD_FIELDS : List JsString :=
  ["size", "root"].map js

def COUNT_FIELDS : List JsString :=
  ["events", "full", "redacted"].map js

-- `HEX32_LC_RE.test(s)`
def isHash (s : JsString) : Bool :=
  isLowerHex s ∧ s.length = 66

-- `Number.isSafeInteger(v) && v >= 0`
def isCount (v : Value) : Bool :=
  v.toInt?.any fun n => 0 ≤ n ∧ n ≤ (MAX_SAFE_INTEGER : ℤ)

-- The first key of an object which is not known.
def unknownKey (known : List JsString) (obj : Value) : Option JsString :=
  (ownKeys obj).find? (· ∉ known)

def elems? : Value → Option (List Value)
  | .array els => some els
  | _          => none

-- The object with some of the fields of a value, of which the optional ones are only taken if they are
-- there.
def pick (fields optional : List String) (v : Value) : Value :=
  object <| (fields ++ optional.filter fun key => v.has key).map fun key => (js key, v.get key)

-- `_validateHeadShape`
def validateHeadShape (head : Value) (label : String) : Except JsString Unit := do
  require head.isObject <| js label ++ js " `head` must be a \x7b size, root \x7d object"
  require (unknownKey HEAD_FIELDS head).isNone <| (unknownKey HEAD_FIELDS head).map fun k =>
    js label ++ js " head has unknown field: " ++ shown (string k)
  require (isCount <| head.get "size") <| (head.get "size").toText.map fun text =>
    js label ++ js " head.size must be a non-negative integer, got: " ++ text
  require ((head.get "root").toString?.any isHash) <| (head.get "root").toText.map fun text =>
    js label ++ js " head.root must be a LOWERCASE 0x-bytes32 hex string " ++
      js "(one canonical encoding, byte-determinism), got: " ++ text

def validateHeadPayload (obj : Value) : Except JsString Value := do
  require obj.isObject <| js "agent-session head payload must be a JSON object"
  require (unknownKey HEAD_PAYLOAD_FIELDS obj).isNone <| (unknownKey HEAD_PAYLOAD_FIELDS obj).map fun k =>
    js "agent-session head payload has unknown field: " ++ shown (string k)
  require ((obj.get "kind").toString? = some AGENT_HEAD_KIND) <|
    js "not an agent-session head payload (kind: " ++ shown (obj.get "kind") ++ js "; expected " ++
      shown (string AGENT_HEAD_KIND) ++ js ")"
  require ((obj.get "schemaVersion").toInt? = some 1) <|
    js "unsupported agent-session head schemaVersion: " ++ shown (obj.get "schemaVersion") ++
      js " (this build understands [1])"
  require ((obj.get "note").toString? = some AGENT_TRUST_NOTE) <|
    js "agent-session head payload `note` must be the standing trust note (caveat must not drift)"
  validateHeadShape (obj.get "head") "agent-session head payload"
  return obj

def serializeHeadPayload (obj : Value) : Except JsString JsString := do
  let _ ← validateHeadPayload obj
  let out := object [
    (js "kind", obj.get "kind"),
    (js "schemaVersion", obj.get "schemaVersion"),
    (js "note", obj.get "note"),
    (js "head", pick ["size", "root"] [] <| obj.get "head")
  ]
  return (stringify out).getD [] ++ js "\n"

def SIGNED_HEAD_CFG : Cfg Value where
  kind                    := SIGNED_HEAD_KIND
  supportedSchemaVersions := [1]
  note                    := SIGNED_HEAD_TRUST_NOTE
  label                   := js "signed agent-session head"
  validateUnsigned        := validateHeadPayload
  serializeUnsigned       := serializeHeadPayload

-- Why no packet is built: the session is rejected, or the text of `meta` is not read back.
inductive BuildError
  | reject (r : Reject)
  | syntaxError
  deriving DecidableEq

-- An event as it is sealed.
def canonicalEvent (e : Value) (v : Validation) : Except BuildError Value :=
  let fields := [
    (js "seq", e.get "seq"),
    (js "ts", e.get "ts"),
    (js "actor", e.get "actor"),
    (js "type", e.get "type")
  ] ++ (if v.redacted then [] else [(js "payload", e.get "payload")]) ++
    [(js "payloadHash", string v.payloadHash)] ++
    if v.redacted then [(js "redacted", bool true)] else []
  match v.metaJson with
  | none   => .ok <| object fields
  | some t =>
    match parse t with
    | some m => .ok <| object <| fields ++ [(js "meta", m)]
    | none   => .error .syntaxError

section

variable (keccak256 : Bytes → Bytes32) (toUtf8Bytes : JsString → Except JsString Bytes)

def sealEvent (e : Value) : Except BuildError Value := do
  let v ← (validateEvent keccak256 toUtf8Bytes e).mapError .reject
  canonicalEvent e v

def buildPacket (events : Value) : Except BuildError Value := do
  let _ ← (validateSession keccak256 toUtf8Bytes events).mapError .reject
  let canon ← ((elems? events).getD []).mapM <| sealEvent keccak256 toUtf8Bytes
  let redactedCount := (canon.filter fun c => c.has "redacted").length
  let head ← (sessionHead keccak256 toUtf8Bytes <| array canon).mapError .reject
  return object [
    (js "kind", string PACKET_KIND),
    (js "schemaVersion", nat 1),
    (js "note", string AGENT_TRUST_NOTE),
    (js "head", object [(js "size", head.get "size"), (js "root", head.get "root")]),
    (js "counts", object [
      (js "events", nat canon.length),
      (js "full", nat <| canon.length - redactedCount),
      (js "redacted", nat redactedCount)
    ]),
    (js "events", array canon),
    (js "leaves", array <| canon.map fun c => (eventLeaf keccak256 toUtf8Bytes c).elim null string)
  ]

end

section

-- The messages of the parser.
variable (syntaxError : JsString → JsString)

def validateHeadAttestation (container : Value) : Except JsString Unit :=
  if container.isUndefined then
    .ok ()
  else
    match validateSignedAttestation syntaxError container SIGNED_HEAD_CFG with
    | .ok _          => .ok ()
    | .error message => .error <| js "agent-session packet headAttestation is invalid: " ++ message

def validateLeaf (leaf : Value) (i : ℕ) : Except JsString Unit :=
  require (leaf.toString?.any isHash) <| leaf.toText.map fun text =>
    js "agent-session packet leaves[" ++ natText i ++ js "] must be a LOWERCASE 0x-bytes32 hex string, got: " ++ text

def validateCount (counts : Value) (k : String) : Except JsString Unit :=
  require (isCount <| counts.get k) <| (counts.get k).toText.map fun text =>
    js "agent-session packet counts." ++ js k ++ js " must be a non-negative integer, got: " ++ text

def validatePacketShape (obj : Value) : Except JsString Unit := do
  require obj.isObject <| js "agent-session packet must be a JSON object"
  require (unknownKey PACKET_FIELDS obj).isNone <| (unknownKey PACKET_FIELDS obj).map fun k =>
    js "agent-session packet has unknown field: " ++ shown (string k)
  require ((obj.get "kind").toString? = some PACKET_KIND) <|
    js "not an agent-session packet (kind: " ++ shown (obj.get "kind") ++ js "; expected " ++
      shown (string PACKET_KIND) ++ js ")"
  require (supports [1] <| obj.get "schemaVersion") <|
    js "unsupported agent-session packet schemaVersion: " ++ shown (obj.get "schemaVersion") ++
      js " (this build understands " ++ shownVersions [1] ++ js ")"
  require ((obj.get "note").toString? = some AGENT_TRUST_NOTE) <|
    js "agent-session packet `note` must be the standing trust note (caveat must not drift)"
  validateHeadShape (obj.get "head") "agent-session packet"
  let counts := obj.get "counts"
  require counts.isObject <|
    js "agent-session packet `counts` must be a \x7b events, full, redacted \x7d object"
  require (unknownKey COUNT_FIELDS counts).isNone <| (unknownKey COUNT_FIELDS counts).map fun k =>
    js "agent-session packet counts has unknown field: " ++ shown (string k)
  ["events", "full", "redacted"].forM <| validateCount counts
  let events ← demand (elems? <| obj.get "events") <| js "agent-session packet `events` must be an array"
  let leaves ← demand ((elems? <| obj.get "leaves").filter fun leaves => leaves.length = events.length) <|
    js "agent-session packet `leaves` must be an array with EXACTLY one leaf expectation per event"
  leaves.zipIdx.forM fun l => validateLeaf l.fst l.snd
  let size := ((obj.get "head").get "size").toInt?
  require (size = some (events.length : ℤ)) <| ((obj.get "head").get "size").toText.map fun text =>
    js "agent-session packet head.size (" ++ text ++ js ") does not match the events length (" ++
      natText events.length ++ js ")"
  require ((counts.get "events").toInt? = some (events.length : ℤ) ∧
      ((counts.get "full").toInt?.getD 0 + (counts.get "redacted").toInt?.getD 0 = (events.length : ℤ))) <| js <|
    "agent-session packet `counts` is internally inconsistent " ++
    "(events must equal the events length; full + redacted must equal events)"
  validateHeadAttestation syntaxError <| obj.get "headAttestation"

-- An event as it is written. The operator `in` throws for what is no object.
def packetEvent (e : Value) : Except JsString Value :=
  match e with
  | .undefined | .null => .error <| js "Cannot read properties of " ++ shown e ++ js " (reading 'seq')"
  | .object _ | .array _ =>
    .ok <| pick ["seq", "ts", "actor", "type"] ["payload", "payloadHash", "redacted", "meta"] e
  | e => .error <| js "Cannot use 'in' operator to search for 'payload' in " ++ e.toText.getD []

def packetAttestation (container : Value) : List (JsString × Value) :=
  if container.isUndefined then
    []
  else
    [(js "headAttestation", object [
      (js "kind", container.get "kind"),
      (js "schemaVersion", container.get "schemaVersion"),
      (js "note", container.get "note"),
      (js "attestation", container.get "attestation"),
      (js "signature", pick ["scheme", "signer", "signature"] [] <| container.get "signature")
    ])]

def serializePacket (packet : Value) : Except JsString JsString := do
  validatePacketShape syntaxError packet
  let events ← ((elems? <| packet.get "events").getD []).mapM packetEvent
  let out := [
    (js "kind", packet.get "kind"),
    (js "schemaVersion", packet.get "schemaVersion"),
    (js "note", packet.get "note"),
    (js "head", pick ["size", "root"] [] <| packet.get "head"),
    (js "counts", pick ["events", "full", "redacted"] [] <| packet.get "counts"),
    (js "events", array events),
    (js "leaves", packet.get "leaves")
  ] ++ packetAttestation (packet.get "headAttestation")
  return (stringify <| object out).getD [] ++ js "\n"

end

-- The reasons for which `verifyPacket` rejects a packet.
inductive PacketReason
  | session (reason : Reason)
  | eventLeafMismatch
  | headMismatch
  | countsMismatch
  | notSigned
  | headNotBound
  | signatureForged
  | wrongVendor
  deriving DecidableEq

structure SignatureReport where
  signatureMatchesSigner : Bool
  recoveredSigner        : JsString
  claimedSigner          : JsString
  scheme                 : JsString
  vendorPinned           : Option JsString
  signerMatchesVendor    : Option Bool
  deriving DecidableEq

structure PacketReject where
  reason    : PacketReason
  seq       : Option ℕ := none
  detail    : Option JsString := none
  signature : Option SignatureReport := none
  deriving DecidableEq

-- What is returned for a packet which is accepted.
structure Acceptance where
  size      : Value
  root      : Value
  events    : ℕ
  full      : ℕ
  redacted  : ℕ
  withheld  : List Value
  signed    : Bool
  signature : Option SignatureReport

def PacketReason.with (reason : PacketReason) (signature : Option SignatureReport) (detail : JsString) :
    PacketReject where
  reason    := reason
  detail    := some detail
  signature := signature

def hostile : PacketReject where
  reason := .session .hostileInput

-- The reject of a session, at the position of the event.
def Reject.toPacket (r : Reject) : PacketReject where
  reason := .session r.reason
  seq    := r.index
  detail := r.field

-- `{ size: .., root: .. }` in a message, or the error of the conversion, which is caught.
def headText (size root : Value) : Except PacketReject JsString :=
  match size.toText, root.toText with
  | some s, some r => .ok <| js "\x7b size: " ++ s ++ js ", root: " ++ r ++ js " \x7d"
  | _, _           => .error hostile

def countsReject (full withheld : ℕ) (counts : Value) : PacketReject :=
  match (counts.get "full").toText, (counts.get "redacted").toText with
  | some f, some r =>
    PacketReason.countsMismatch.with none <|
      js "recounted \x7b full: " ++ natText full ++ js ", redacted: " ++ natText withheld ++
        js " \x7d != declared \x7b full: " ++ f ++ js ", redacted: " ++ r ++ js " \x7d"
  | _, _ => hostile

section

variable (keccak256 : Bytes → Bytes32) (toUtf8Bytes : JsString → Except JsString Bytes)

-- The first position whose leaf is not the stored one.
def leafMismatch (events leaves : List Value) : Option ℕ :=
  events.zipIdx.findIdx? fun e =>
    (eventLeaf keccak256 toUtf8Bytes e.fst).isNone ∨
      (leaves.getD e.snd undefined).toString? ≠ eventLeaf keccak256 toUtf8Bytes e.fst

section

variable (verifyMessage : JsString → JsString → Option JsString) (getAddress : JsString → Option JsString)
variable (syntaxError : JsString → JsString)

-- The check of the signed head, in a packet whose shape is valid.
def verifyHead (size root container : Value) (vendor : Option JsString) :
    Except PacketReject (Option SignatureReport) := do
  if container.isUndefined then
    if vendor.isSome then
      throw <| PacketReason.notSigned.with none <| js <|
        "--vendor pins the signer of a SIGNED packet, but this packet carries no headAttestation " ++
        "(a stripped signature never passes a pinned verify)"
    return none
  match validateSignedAttestation syntaxError container SIGNED_HEAD_CFG with
  | .error _      => throw hostile
  | .ok container =>
    let head := container.embedded.get "head"
    if (head.get "size").toInt? ≠ size.toInt? ∨ (head.get "root").toString? ≠ root.toString? then
      let signed ← headText (head.get "size") (head.get "root")
      let derived ← headText size root
      throw <| PacketReason.headNotBound.with none <| js "the headAttestation signs " ++ signed ++
        js " but this packet's events derive " ++ derived ++ js " — the signature belongs to a DIFFERENT session"
    let att := verifySignedAttestation verifyMessage container
    match signerMatchesExpected getAddress att.recoveredSigner vendor with
    | none         => throw hostile
    | some matches? =>
      let claimedSigner := Hex.toLowerCase container.signer
      let signature : SignatureReport := {
        signatureMatchesSigner := att.signatureMatchesSigner
        recoveredSigner        := att.recoveredSigner
        claimedSigner          := claimedSigner
        scheme                 := container.scheme
        vendorPinned           := vendor
        signerMatchesVendor    := matches?
      }
      if ¬ att.signatureMatchesSigner then
        throw <| PacketReason.signatureForged.with (some signature) <|
          js "the container claims signer " ++ claimedSigner ++ js " but the signature recovers to " ++
            att.recoveredSigner
      match vendor with
      | none        => return some signature
      | some vendor =>
        if matches? ≠ some true then
          throw <| PacketReason.wrongVendor.with (some signature) <|
            js "the head signature recovers to " ++ att.recoveredSigner ++ js ", not the pinned vendor " ++ vendor
        return some signature

-- `verifyPacket`, for a packet whose shape is valid
def verifyPacket (packet : Value) (vendor : Option JsString) : Except PacketReject Acceptance := do
  let vendor := vendor.filter (· ≠ [])
  let _ ← (validateSession keccak256 toUtf8Bytes <| packet.get "events").mapError Reject.toPacket
  let events := (elems? <| packet.get "events").getD []
  let leaves := (elems? <| packet.get "leaves").getD []
  match leafMismatch keccak256 toUtf8Bytes events leaves with
  | some i => throw { reason := .eventLeafMismatch, seq := some i }
  | none   =>
    let derived ← (sessionHead keccak256 toUtf8Bytes <| packet.get "events").mapError fun r =>
      { reason := .session r.reason, seq := r.index }
    let head := packet.get "head"
    if (derived.get "size").toInt? ≠ (head.get "size").toInt? ∨
        (derived.get "root").toString? ≠ (head.get "root").toString? then
      let recomputed ← headText (derived.get "size") (derived.get "root")
      let declared ← headText (head.get "size") (head.get "root")
      throw <| PacketReason.headMismatch.with none <| js "recomputed " ++ recomputed ++ js " != declared " ++ declared
    let withheld := (events.filter fun e => (e.get "redacted").toBool? = some true).map fun e => e.get "seq"
    let full := events.length - withheld.length
    let counts := packet.get "counts"
    if (counts.get "full").toInt? ≠ some (full : ℤ) ∨ (counts.get "redacted").toInt? ≠ some (withheld.length : ℤ) then
      throw <| countsReject full withheld.length counts
    let signature ← verifyHead verifyMessage getAddress syntaxError (derived.get "size") (derived.get "root")
      (packet.get "headAttestation") vendor
    return {
      size     := derived.get "size"
      root     := derived.get "root"
      events   := events.length
      full     := full
      redacted := withheld.length
      withheld := withheld
      signed   := ¬ (packet.get "headAttestation").isUndefined
      signature
    }

end

end

end AgentSession
