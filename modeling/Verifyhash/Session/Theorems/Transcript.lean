import Verifyhash.Data.Json.Printable
import Verifyhash.Session.Theorems.Packet
import Verifyhash.Session.Transcript

namespace AgentHook

open AgentSession Json Value Unicode Fallible

section

variable {s : Speaker} {b line : Value} {ev : Mapped} {keccak256 : Bytes → Bytes32}
variable {toUtf8Bytes : JsString → Except JsString Bytes}

-- The events which the core accepts at every position, if it can encode their payload.
structure Sound (ev : Mapped) : Prop where
  actor    : ev.actor ≠ []
  type     : ev.type ∈ EVENT_TYPES
  metadata : ∀ v, ev.metadata = some v → (canonicalMeta v).isSome ∧ OfDoubles v

theorem get_toEvent (ev : Mapped) (i : ℕ) :
    (ev.toEvent i).get "seq" = nat i ∧ (ev.toEvent i).get "ts" = string ev.ts ∧
    (ev.toEvent i).get "actor" = string ev.actor ∧ (ev.toEvent i).get "type" = string ev.type ∧
    (ev.toEvent i).get "payload" = string ev.payload ∧
    (ev.toEvent i).get "meta" = ev.metadata.getD .undefined := by
  rcases ev with ⟨ts, actor, type, payload, _ | v⟩ <;> exact ⟨rfl, rfl, rfl, rfl, rfl, rfl⟩

theorem has_toEvent (ev : Mapped) (i : ℕ) :
    (ev.toEvent i).has "payload" ∧ (ev.toEvent i).has "payloadHash" = false ∧ (ev.toEvent i).has "redacted" = false ∧
    (ev.toEvent i).has "meta" = ev.metadata.isSome := by
  rcases ev with ⟨ts, actor, type, payload, _ | v⟩ <;> exact ⟨rfl, rfl, rfl, rfl⟩

theorem ofDoubles_toEvent (h : Sound ev) (hi : i < 2 ^ 53) : OfDoubles (ev.toEvent i) := by
  have hn : OfDoubles (nat i) := .number fun q hq => by
    obtain rfl := Number.finite.inj hq
    exact Double.isDouble_natCast hi
  refine .object fun f hf => ?_
  obtain hf | hf := List.mem_append.mp hf
  · simp only [List.mem_cons, List.not_mem_nil, or_false] at hf
    obtain rfl | rfl | rfl | rfl | rfl := hf
    · exact hn
    all_goals exact .string
  · obtain ⟨v, hv, rfl⟩ := List.mem_map.mp hf
    exact (h.metadata v <| by simpa using hv).right

-- An event is accepted at its position exactly if its payload is encoded.
theorem accepts_toEvent (h : Sound ev) (hi : i < 2 ^ 53) :
    (∃ c v, Accepts keccak256 toUtf8Bytes (ev.toEvent i) c v ∧ c.seq = i) ↔
      ∃ bytes, toUtf8Bytes ev.payload = .ok bytes := by
  obtain ⟨hseq, hts, hactor, htype, hpayload, hmeta⟩ := get_toEvent ev i
  obtain ⟨hp, hh, hr, hm⟩ := has_toEvent ev i
  constructor
  case mp =>
    rintro ⟨c, v, a, -⟩
    have hd := a.disclosed hp
    rw [hpayload, payloadHash] at hd
    cases hb : toUtf8Bytes ev.payload
    case error => simp [toString?, hb, Except.toOption] at hd
    case ok bytes => exact ⟨bytes, rfl⟩
  case mpr =>
    rintro ⟨bytes, hb⟩
    refine ⟨⟨i, ev.ts, ev.actor, ev.type⟩,
      ⟨false, hashBytes keccak256 bytes, ev.metadata.bind canonicalMeta⟩, ?_, rfl⟩
    exact {
      isObject  := rfl
      known     := by
        refine subset_ownKeys fun k hk => ?_
        rcases ev with ⟨_, _, _, _, _ | _⟩
        all_goals
          simp only [List.map_append, List.map_cons, List.map_nil, Option.toList, List.append_nil, List.mem_cons,
            List.mem_append, List.not_mem_nil, or_false] at hk
        · obtain rfl | rfl | rfl | rfl | rfl := hk <;> decide
        · obtain (rfl | rfl | rfl | rfl | rfl) | rfl := hk <;> decide
      seq       := by rw [hseq, toInt?_nat]
      seq_le    := by
        simp only [MAX_SAFE_INTEGER]
        omega
      ts        := hts
      actor     := hactor
      actor_ne  := h.actor
      type      := htype
      type_mem  := h.type
      redacted  := by rw [hp]; rfl
      disclosed := fun _ => by simp [hpayload, payloadHash, toString?, hb, Except.toOption]
      carried   := fun hc => by simp [hh] at hc
      flag      := fun hc => by simp [hr] at hc
      hidden    := fun hc => absurd hp hc
      metaJson  := by rw [hm, hmeta]; cases ev.metadata <;> rfl
      hasMeta   := fun hc => by
        rw [hm] at hc
        obtain ⟨v, hv⟩ := Option.isSome_iff_exists.mp hc
        rw [hmeta, hv]
        exact (h.metadata v hv).left
    }

theorem actor_ne (s : Speaker) : s.actor ≠ [] := by
  rw [Speaker.actor]
  split_ifs <;> decide

theorem textType_mem (s : Speaker) : s.textType ∈ EVENT_TYPES := by
  rw [Speaker.textType]
  split_ifs <;> decide

theorem toolTypes_mem : js "tool_call" ∈ EVENT_TYPES ∧ js "tool_result" ∈ EVENT_TYPES := by
  decide

theorem sound_textEvent (s : Speaker) (text : JsString) : Sound (s.textEvent text) where
  actor    := actor_ne s
  type     := textType_mem s
  metadata := nofun

theorem sound_toolCall (s : Speaker) (b : Value) : Sound (s.toolCall b) where
  actor    := actor_ne s
  type     := toolTypes_mem.left
  metadata := nofun

theorem sound_toolResult (s : Speaker) (b : Value) : Sound (s.toolResult b) where
  actor    := by
    rw [Speaker.toolResult]
    exact List.append_ne_nil_of_left_ne_nil (by decide) _
  type     := toolTypes_mem.right
  metadata := fun v hv => by
    rw [Speaker.toolResult] at hv
    obtain rfl := Option.some_inj.mp hv
    generalize (b.get "tool_use_id").toString?.getD (js "unknown") = id
    split_ifs
    · refine ⟨rfl, .object fun f hf => ?_⟩
      simp only [List.mem_cons, List.not_mem_nil, or_false] at hf
      obtain rfl | rfl := hf
      · exact .string
      · exact .bool
    · refine ⟨rfl, .object fun f hf => ?_⟩
      obtain rfl := List.mem_singleton.mp hf
      exact .string

-- The texts which become payloads as they are: of the other payloads, each is the text of a value.
def Speaker.rawText (s : Speaker) (b : Value) : Option JsString :=
  match textOf b with
  | some text => some text
  | none      => if b.isObject ∧ hasType b "tool_result" ∧ s.user then (b.get "content").toString? else none

theorem sound_blockEvent (h : s.blockEvent b = some ev) : Sound ev := by
  rw [Speaker.blockEvent] at h
  split at h
  · obtain rfl := Option.some_inj.mp h
    exact sound_textEvent ..
  · split_ifs at h
    · obtain rfl := Option.some_inj.mp h
      exact sound_toolCall ..
    · obtain rfl := Option.some_inj.mp h
      exact sound_toolResult ..

theorem wellFormed_stringify {v : Value} (hu : v ≠ .undefined) : WellFormed ((stringify v).getD []) := by
  cases ht : stringify v
  case none =>
    cases v
    case undefined => exact absurd rfl hu
    all_goals simp [stringify] at ht
  case some t => exact (printable_stringify ht).wellFormed

theorem orNull_ne (v : Value) : orNull v ≠ .undefined := by
  rw [orNull]
  split_ifs with h
  · nofun
  · exact mt isUndefined_iff.mpr h

-- The payload of an event can be encoded exactly if the text which it is made of can.
theorem wellFormed_payload (h : s.blockEvent b = some ev) :
    WellFormed ev.payload ↔ ∀ t, s.rawText b = some t → WellFormed t := by
  rw [Speaker.blockEvent] at h
  rw [Speaker.rawText]
  cases ht : textOf b
  case some text =>
    simp only [ht] at h ⊢
    obtain rfl := Option.some_inj.mp h
    simp [Speaker.textEvent]
  case none =>
    simp only [ht] at h ⊢
    split_ifs at h with h₁ h₂
    · obtain rfl := Option.some_inj.mp h
      have hu : Value.object [(js "id", b.get "id"), (js "name", b.get "name"),
          (js "input", orNull <| b.get "input")] ≠ .undefined := nofun
      have hw : WellFormed (s.toolCall b).payload := wellFormed_stringify hu
      simp [hw, h₁.right.right]
    · obtain rfl := Option.some_inj.mp h
      rw [if_pos h₂, Speaker.toolResult]
      cases hc : (b.get "content").toString?
      case none => simpa using wellFormed_stringify <| orNull_ne _
      case some t => simp

end

section

-- What becomes of a line which is not blank: a message has an event, or none, for each of its blocks.
inductive Fate
  | malformed
  | skipped
  | mapped (blocks : List (Option Mapped))

namespace Fate

def isMalformed : Fate → Bool
  | malformed => true
  | _         => false

def isSkipped : Fate → Bool
  | skipped => true
  | _       => false

def blocks : Fate → List (Option Mapped)
  | mapped blocks => blocks
  | _             => []

end Fate

-- The fate of a line which is parsed. A content which is a text is its only block.
def fateOf (line : Value) : Fate :=
  match speaker? line, (line.get "message").get "content" with
  | some s, .string text  => .mapped [some <| s.textEvent text]
  | some s, .array blocks => .mapped <| blocks.map s.blockEvent
  | _, _                  => .skipped

def fate (raw : JsString) : Fate :=
  match parse raw with
  | none      => .malformed
  | some line => fateOf line

-- The lines of a transcript which are not blank.
def linesOf (text : JsString) : List JsString :=
  (splitLines [] text).filter fun raw => Words.trim raw ≠ []

-- The events of the mappable blocks of some lines, in order.
def eventsOf (raws : List JsString) : List Mapped :=
  (raws.flatMap fun raw => (fate raw).blocks).reduceOption

-- The events are those of the mappable blocks with their positions, and everything else is counted once.
structure Accounts (raws : List JsString) (t : Transcript) : Prop where
  events    : t.events = (eventsOf raws).mapIdx fun i ev => ev.toEvent i
  malformed : t.skipped.malformed = raws.countP fun raw => (fate raw).isMalformed
  lines     : t.skipped.lines = raws.countP fun raw => (fate raw).isSkipped
  blocks    : t.skipped.blocks = (raws.flatMap fun raw => (fate raw).blocks).countP Option.isNone

theorem foldl_mapBlock (s : Speaker) (bs : List Value) (st : List Mapped × Skipped) :
    bs.foldl s.mapBlock st = (st.fst ++ (bs.map s.blockEvent).reduceOption,
      { st.snd with blocks := st.snd.blocks + (bs.map s.blockEvent).countP Option.isNone }) := by
  induction bs generalizing st
  case nil => simp
  case cons b bs ih =>
    rw [List.foldl_cons, ih, Speaker.mapBlock]
    cases hb : s.blockEvent b
    case none =>
      simp [hb]
      omega
    case some ev => simp [hb]

theorem mapLine_eq (line : Value) (skipped : Skipped) : mapLine line skipped =
    ((fateOf line).blocks.reduceOption, {
      lines     := skipped.lines + if (fateOf line).isSkipped then 1 else 0
      blocks    := skipped.blocks + (fateOf line).blocks.countP Option.isNone
      malformed := skipped.malformed
    }) := by
  cases hs : speaker? line
  case none => simp [mapLine, fateOf, hs, Fate.blocks, Fate.isSkipped]
  case some s =>
    cases hc : (line.get "message").get "content"
    case array blocks => simp [mapLine, fateOf, hs, hc, foldl_mapBlock, Fate.blocks, Fate.isSkipped]
    all_goals simp [mapLine, fateOf, hs, hc, Fate.blocks, Fate.isSkipped]

theorem foldl_push {done evs : List Mapped} : evs.foldl push (done.mapIdx fun i ev => ev.toEvent i) =
    (done ++ evs).mapIdx fun i ev => ev.toEvent i := by
  induction evs generalizing done
  case nil => simp
  case cons ev evs ih =>
    have hp : push (done.mapIdx fun i ev => ev.toEvent i) ev = (done ++ [ev]).mapIdx fun i ev => ev.toEvent i := by
      simp [push, List.mapIdx_append]
    rw [List.foldl_cons, hp, ih, List.append_assoc, List.singleton_append]

-- A line which is read next is accounted for.
theorem Accounts.step {raws : List JsString} {t : Transcript} (h : Accounts raws t) (raw : JsString) :
    Accounts (if Words.trim raw = [] then raws else raws ++ [raw]) (mapRaw t raw) := by
  rw [mapRaw]
  split_ifs with hb
  case pos => exact h
  case neg =>
    have he : eventsOf (raws ++ [raw]) = eventsOf raws ++ (fate raw).blocks.reduceOption := by
      simp [eventsOf, List.reduceOption_append]
    cases hp : parse raw
    case none =>
      have hf : fate raw = .malformed := by rw [fate, hp]
      constructor
      · rw [he, hf]
        simpa [Fate.blocks] using h.events
      · simp [hf, h.malformed, Fate.isMalformed]
      · simp [hf, h.lines, Fate.isSkipped]
      · simp [hf, h.blocks, Fate.blocks]
    case some line =>
      have hf : fate raw = fateOf line := by rw [fate, hp]
      have hm : (fateOf line).isMalformed = false := by
        rw [fateOf]
        split <;> rfl
      simp only [mapLine_eq]
      constructor
      · simp only [he, hf, h.events]
        rw [foldl_push]
      · simp [hf, hm, h.malformed]
      · simp [hf, h.lines, List.countP_cons]
      · simp [hf, h.blocks]

theorem accounts_foldl {raws : List JsString} {t : Transcript} (h : Accounts raws t) (lines : List JsString) :
    Accounts (raws ++ lines.filter fun raw => Words.trim raw ≠ []) (lines.foldl mapRaw t) := by
  induction lines generalizing raws t
  case nil => simpa using h
  case cons raw lines ih =>
    have := ih <| h.step raw
    by_cases hb : Words.trim raw = []
    case pos => simpa [hb] using this
    case neg => simpa [hb] using this

theorem accounts_mapTranscriptText (text : JsString) : Accounts (linesOf text) (mapTranscriptText text) := by
  have h : Accounts [] { events := [], skipped := ⟨0, 0, 0⟩ } := ⟨rfl, rfl, rfl, rfl⟩
  exact accounts_foldl h <| splitLines [] text

end

section

-- The texts of a line which become payloads as they are.
def rawTexts (line : Value) : List JsString :=
  match speaker? line, (line.get "message").get "content" with
  | some _, .string text  => [text]
  | some s, .array blocks => blocks.filterMap s.rawText
  | _, _                  => []

-- The texts of the messages and of the results of tools, as they stand in a transcript, can be encoded.
def TextsEncode (text : JsString) : Prop :=
  ∀ raw ∈ linesOf text, ∀ line, parse raw = some line → ∀ t ∈ rawTexts line, WellFormed t

-- Everything in a transcript is accounted for, and if there are events, then they are sealed.
def Seals (keccak256 : Bytes → Bytes32) (toUtf8Bytes : JsString → Except JsString Bytes) (text : JsString) : Prop :=
  Accounts (linesOf text) (mapTranscriptText text) ∧
    ((mapTranscriptText text).events ≠ [] →
      ∃ p, buildPacket keccak256 toUtf8Bytes (.array (mapTranscriptText text).events) = .ok p)

variable {keccak256 : Bytes → Bytes32} {toUtf8Bytes : JsString → Except JsString Bytes} {text : JsString}

theorem mem_eventsOf {raws : List JsString} {ev : Mapped} :
    ev ∈ eventsOf raws ↔ ∃ raw ∈ raws, some ev ∈ (fate raw).blocks := by
  simp [eventsOf, List.reduceOption_mem_iff]

theorem blocks_fate (raw : JsString) :
    (fate raw).blocks = ((parse raw).map fun line => (fateOf line).blocks).getD [] := by
  rw [fate]
  cases parse raw <;> rfl

-- Of a line, the events and the texts which are embedded in them.
theorem of_blocks_fateOf {line : Value} : (∀ ev, some ev ∈ (fateOf line).blocks → Sound ev) ∧
    ((∀ ev, some ev ∈ (fateOf line).blocks → WellFormed ev.payload) ↔ ∀ t ∈ rawTexts line, WellFormed t) := by
  cases hs : speaker? line
  case none => simp [fateOf, rawTexts, hs, Fate.blocks]
  case some s =>
    cases hc : (line.get "message").get "content"
    case string text =>
      simp only [fateOf, rawTexts, hs, hc, Fate.blocks, List.mem_singleton, Option.some_inj, forall_eq]
      exact ⟨sound_textEvent s text, .rfl⟩
    case array blocks =>
      simp only [fateOf, rawTexts, hs, hc, Fate.blocks, List.mem_map, List.mem_filterMap]
      constructor
      case left =>
        rintro ev ⟨b, -, hb⟩
        exact sound_blockEvent hb
      case right =>
        constructor
        case mp =>
          rintro h t ⟨b, hb, ht⟩
          -- A text which is embedded belongs to a block with an event.
          obtain ⟨ev, hev⟩ : ∃ ev, s.blockEvent b = some ev := by
            rw [Speaker.rawText] at ht
            rw [Speaker.blockEvent]
            cases hx : textOf b
            case some text => exact ⟨_, rfl⟩
            case none =>
              simp only [hx, Option.ite_none_right_eq_some] at ht ⊢
              split_ifs with h₁ h₂
              · exact ⟨_, rfl⟩
              · exact ⟨_, rfl⟩
              · exact absurd ht.left h₂
          exact (wellFormed_payload hev).mp (h ev ⟨b, hb, hev⟩) t ht
        case mpr =>
          rintro h ev ⟨b, hb, hev⟩
          exact (wellFormed_payload hev).mpr fun t ht => h t ⟨b, hb, ht⟩
    all_goals simp [fateOf, rawTexts, hs, hc, Fate.blocks]

theorem sound_of_mem {raws : List JsString} {ev : Mapped} (h : ev ∈ eventsOf raws) : Sound ev := by
  obtain ⟨raw, -, hm⟩ := mem_eventsOf.mp h
  rw [blocks_fate] at hm
  cases hp : parse raw
  case none => simp [hp] at hm
  case some line =>
    rw [hp] at hm
    exact of_blocks_fateOf.left ev hm

theorem textsEncode_iff : TextsEncode text ↔ ∀ ev ∈ eventsOf (linesOf text), WellFormed ev.payload := by
  constructor
  case mp =>
    intro h ev hev
    obtain ⟨raw, hr, hm⟩ := mem_eventsOf.mp hev
    rw [blocks_fate] at hm
    cases hp : parse raw
    case none => simp [hp] at hm
    case some line =>
      rw [hp] at hm
      exact of_blocks_fateOf.right.mpr (h raw hr line hp) ev hm
  case mpr =>
    intro h raw hr line hp
    refine of_blocks_fateOf.right.mp fun ev hev => h ev <| mem_eventsOf.mpr ⟨raw, hr, ?_⟩
    rw [blocks_fate, hp]
    exact hev

-- The numbered events are a session exactly if their payloads are encoded.
theorem isSession_iff {evs : List Mapped} (hs : ∀ ev ∈ evs, Sound ev) (hl : evs.length ≤ 2 ^ 53) :
    IsSession keccak256 toUtf8Bytes (evs.mapIdx fun i ev => ev.toEvent i) ↔
      ∀ ev ∈ evs, ∃ bytes, toUtf8Bytes ev.payload = .ok bytes := by
  have hi {i : ℕ} (h : i < evs.length) : (∃ c v, Accepts keccak256 toUtf8Bytes (evs[i].toEvent i) c v ∧ c.seq = i) ↔
      ∃ bytes, toUtf8Bytes evs[i].payload = .ok bytes :=
    accepts_toEvent (hs _ <| List.getElem_mem h) (by omega)
  constructor
  case mp =>
    intro h ev hev
    obtain ⟨i, hlt, rfl⟩ := List.getElem_of_mem hev
    have := h i (by simpa using hlt)
    rw [List.getElem_mapIdx] at this
    exact (hi hlt).mp this
  case mpr =>
    intro h i hlt
    have hlt : i < evs.length := by simpa using hlt
    rw [List.getElem_mapIdx]
    exact (hi hlt).mpr <| h _ <| List.getElem_mem hlt

end

theorem wellFormed_of_strictUtf8 (h : strictUtf8 s = .ok bytes) : WellFormed s := by
  rw [strictUtf8] at h
  split_ifs at h with hs
  exact ⟨decode s, hs⟩

theorem splitLines_eq {current s : JsString} (h : 10 ∉ s) : splitLines current s = [current ++ s] := by
  induction s generalizing current
  case nil => simp [splitLines]
  case cons u s ih =>
    rw [List.mem_cons, not_or] at h
    have hs : splitLines current (u :: s) = splitLines (current ++ [u]) s := by
      rw [splitLines]
      · rintro _ - rfl
        simp at h
      · rintro rfl
        simp at h
    rw [hs, ih h.right, List.append_assoc, List.singleton_append]

-- A line of a user with a text.
def message (text : JsString) : Value :=
  .object [
    (js "type", .string <| js "user"),
    (js "message", .object [(js "content", .string text)])
  ]

theorem plain_message (text : JsString) : Plain (message text) := by
  have hn : [js "type", js "message"].Nodup := by decide
  refine .object hn fun f hf => ?_
  simp only [List.mem_cons, List.not_mem_nil, or_false] at hf
  obtain rfl | rfl := hf
  · exact .string
  · refine .object (by simp) fun f hf => ?_
    obtain rfl := List.mem_singleton.mp hf
    exact .string

-- A transcript of one line.
theorem linesOf_message (text : JsString) : linesOf (render <| message text) = [render <| message text] := by
  have hp := printable_render <| plain_message text
  have hn : 10 ∉ render (message text) := fun h => by simpa using hp.le 10 h
  obtain ⟨t, ht⟩ : ∃ t, render (message text) = 123 :: t := ⟨_, rfl⟩
  have hb : Words.trim (render <| message text) ≠ [] := by
    have hd : (123 :: t).dropWhile Words.isSpace = 123 :: t := List.dropWhile_cons_of_neg (by decide)
    rw [ht, Words.trim, hd, ne_eq, List.rdropWhile_eq_nil_iff]
    intro h
    exact absurd (h 123 List.mem_cons_self) (by decide)
  rw [linesOf, splitLines_eq hn, List.nil_append]
  simp [hb]

theorem parse_message (text : JsString) : parse (render <| message text) = some (message text) :=
  parse_render <| plain_message text

-- The line is mapped to a single event.
theorem eventsOf_message (text : JsString) :
    eventsOf (linesOf <| render <| message text) = [⟨[], js "user", js "prompt", text, none⟩] := by
  have hf : fateOf (message text) = .mapped [some ⟨[], js "user", js "prompt", text, none⟩] := rfl
  rw [linesOf_message, eventsOf, List.flatMap_singleton, blocks_fate, parse_message, Option.map_some, hf]
  rfl

end AgentHook
