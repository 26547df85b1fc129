import Verifyhash.Data.Words
import Verifyhash.Session.Packet

-- The transcripts which `cli/agent-hook.js` maps to the events of a session.
namespace AgentHook

open Json Value

structure Skipped where
  lines     : ℕ
  blocks    : ℕ
  malformed : ℕ

-- An event before it has its position.
structure Mapped where
  ts       : JsString
  actor    : JsString
  type     : JsString
  payload  : JsString
  metadata : Option Value

-- `{ seq, ...ev }`
def Mapped.toEvent (ev : Mapped) (seq : ℕ) : Value :=
  .object <| [
    (js "seq", nat seq),
    (js "ts", string ev.ts),
    (js "actor", string ev.actor),
    (js "type", string ev.type),
    (js "payload", string ev.payload)
  ] ++ ev.metadata.toList.map fun v => (js "meta", v)

-- What the loop over the blocks of a line reads from the line.
structure Speaker where
  user : Bool
  ts   : JsString

def Speaker.actor (s : Speaker) : JsString :=
  if s.user then js "user" else js "agent:assistant"

def Speaker.textType (s : Speaker) : JsString :=
  if s.user then js "prompt" else js "completion"

def Speaker.textEvent (s : Speaker) (text : JsString) : Mapped where
  ts       := s.ts
  actor    := s.actor
  type     := s.textType
  payload  := text
  metadata := none

-- `v === undefined ? null : v`
def orNull (v : Value) : Value :=
  if v.isUndefined then .null else v

def hasType (v : Value) (type : String) : Bool :=
  (v.get "type").toString? = some (js type)

-- The text of a block, which becomes the payload as it is.
def textOf (b : Value) : Option JsString :=
  if b.isObject ∧ hasType b "text" then (b.get "text").toString? else none

def Speaker.toolCall (s : Speaker) (b : Value) : Mapped where
  ts       := s.ts
  actor    := s.actor
  type     := js "tool_call"
  payload  := (stringify <| .object [
    (js "id", b.get "id"),
    (js "name", b.get "name"),
    (js "input", orNull <| b.get "input")
  ]).getD []
  metadata := none

def Speaker.toolResult (s : Speaker) (b : Value) : Mapped :=
  let id := (b.get "tool_use_id").toString?.getD <| js "unknown"
  {
    ts       := s.ts
    actor    := js "tool:" ++ id
    type     := js "tool_result"
    payload  := (b.get "content").toString?.getD <| (stringify <| orNull <| b.get "content").getD []
    metadata := some <| .object <| (js "tool_use_id", string id) ::
      if (b.get "is_error").toBool? = some true then [(js "is_error", bool true)] else []
  }

-- The event of a content block, unless the block is skipped.
def Speaker.blockEvent (s : Speaker) (b : Value) : Option Mapped :=
  match textOf b with
  | some text => some <| s.textEvent text
  | none      =>
    if b.isObject ∧ hasType b "tool_use" ∧ ¬ s.user then some <| s.toolCall b
    else if b.isObject ∧ hasType b "tool_result" ∧ s.user then some <| s.toolResult b
    else none

-- One turn of the loop over the content blocks of a line.
def Speaker.mapBlock (s : Speaker) (st : List Mapped × Skipped) (b : Value) : List Mapped × Skipped :=
  match s.blockEvent b with
  | some ev => (st.fst ++ [ev], st.snd)
  | none    => (st.fst, { st.snd with blocks := st.snd.blocks + 1 })

-- Who speaks in a line, if it is a message.
def speaker? (line : Value) : Option Speaker :=
  if line.isObject ∧ (hasType line "user" ∨ hasType line "assistant") ∧ (line.get "message").isObject then
    some { user := hasType line "user", ts := (line.get "timestamp").toString?.getD [] }
  else
    none

def mapLine (line : Value) (skipped : Skipped) : List Mapped × Skipped :=
  match speaker? line, (line.get "message").get "content" with
  | some s, .string text  => ([s.textEvent text], skipped)
  | some s, .array blocks => blocks.foldl s.mapBlock ([], skipped)
  | _, _                  => ([], { skipped with lines := skipped.lines + 1 })

structure Transcript where
  events  : List Value
  skipped : Skipped

-- `events.push({ seq: events.length, ...ev })`
def push (events : List Value) (ev : Mapped) : List Value :=
  events ++ [ev.toEvent events.length]

-- One turn of the loop over the lines.
def mapRaw (t : Transcript) (raw : JsString) : Transcript :=
  if Words.trim raw = [] then
    t
  else
    match parse raw with
    | none      => { t with skipped := { t.skipped with malformed := t.skipped.malformed + 1 } }
    | some line =>
      let (evs, skipped) := mapLine line t.skipped
      { events := evs.foldl push t.events, skipped }

-- `s.split(/\r?\n/)`, where a part of the current line is read.
def splitLines (current : JsString) : JsString → List JsString
  | []           => [current]
  | 13 :: 10 :: s => current :: splitLines [] s
  | 10 :: s      => current :: splitLines [] s
  | u :: s       => splitLines (current ++ [u]) s

def mapTranscriptText (text : JsString) : Transcript :=
  (splitLines [] text).foldl mapRaw { events := [], skipped := ⟨0, 0, 0⟩ }

end AgentHook
