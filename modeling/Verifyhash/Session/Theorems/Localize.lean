import Verifyhash.Hash.Keccak
import Verifyhash.Library.Fallible
import Verifyhash.Session.Theorems.Packet

namespace AgentSession

open Json Value Fallible Checks

section

variable (keccak256 : Bytes → Bytes32) (toUtf8Bytes : JsString → Except JsString Bytes)

-- A valid event at its position.
structure WellPlaced (e : Value) (i : ℕ) : Prop where
  valid : ∃ v, validateEvent keccak256 toUtf8Bytes e = .ok v
  seq   : (e.get "seq").toInt? = some (i : ℤ)

-- The stored leaf is the recomputed one.
def LeafMatches (e leaf : Value) : Prop :=
  ∃ l, eventLeaf keccak256 toUtf8Bytes e = some l ∧ leaf.toString? = some l

variable (events leaves : List Value) (i : ℕ)

def PlacedAt : Prop :=
  ∃ e, events[i]? = some e ∧ WellPlaced keccak256 toUtf8Bytes e i

def LeafAt : Prop :=
  ∃ e, events[i]? = some e ∧ LeafMatches keccak256 toUtf8Bytes e (leaves.getD i undefined)

-- An event without a defect of its own.
def SoundAt : Prop :=
  PlacedAt keccak256 toUtf8Bytes events i ∧ LeafAt keccak256 toUtf8Bytes events leaves i

end

section

variable (keccak256 : Bytes → Bytes32) (toUtf8Bytes : JsString → Except JsString Bytes)
variable (verifyMessage : JsString → JsString → Option JsString) (getAddress : JsString → Option JsString)
variable (syntaxError : JsString → JsString) (packet : Value) (vendor : Option JsString)

-- The arrays of a packet whose shape is valid.
def packetEvents : List Value :=
  (elems? <| packet.get "events").getD []

def packetLeaves : List Value :=
  (elems? <| packet.get "leaves").getD []

-- An event at which a packet is rejected is the first one with a defect.
def NamesFirst : Prop :=
  ∀ r s, verifyPacket keccak256 toUtf8Bytes verifyMessage getAddress syntaxError packet vendor = .error r →
    r.seq = some s → s < (packetEvents packet).length ∧
      (∀ j < s, SoundAt keccak256 toUtf8Bytes (packetEvents packet) (packetLeaves packet) j) ∧
      ¬ SoundAt keccak256 toUtf8Bytes (packetEvents packet) (packetLeaves packet) s

-- Before the first event which is invalid or misplaced, every stored leaf is the recomputed one.
def LeavesBefore : Prop :=
  ∀ s < (packetEvents packet).length, ¬ PlacedAt keccak256 toUtf8Bytes (packetEvents packet) s →
    (∀ j < s, PlacedAt keccak256 toUtf8Bytes (packetEvents packet) j) →
    ∀ j < s, LeafAt keccak256 toUtf8Bytes (packetEvents packet) (packetLeaves packet) j

end

section

variable {keccak256 : Bytes → Bytes32} {toUtf8Bytes : JsString → Except JsString Bytes}
variable {verifyMessage : JsString → JsString → Option JsString} {getAddress : JsString → Option JsString}
variable {syntaxError : JsString → JsString} {packet : Value} {vendor : Option JsString}
variable {e : Value} {events leaves : List Value}

-- The loop of `validateSession` stops at the first event which is invalid or misplaced.
theorem validateFrom_cases (i : ℕ) (es : List Value) :
    (∃ n, validateFrom keccak256 toUtf8Bytes i es = .ok n ∧
      ∀ j e, es[j]? = some e → WellPlaced keccak256 toUtf8Bytes e (i + j)) ∨
    ∃ r k e, validateFrom keccak256 toUtf8Bytes i es = .error r ∧ r.index = some (i + k) ∧ es[k]? = some e ∧
      ¬ WellPlaced keccak256 toUtf8Bytes e (i + k) ∧
      ∀ j < k, ∀ e, es[j]? = some e → WellPlaced keccak256 toUtf8Bytes e (i + j) := by
  induction es generalizing i
  case nil => exact .inl ⟨i, rfl, by simp⟩
  case cons e es ih =>
    rw [validateFrom]
    cases hv : validateEvent keccak256 toUtf8Bytes e
    case error r =>
      refine .inr ⟨_, 0, e, rfl, rfl, rfl, ?_, by simp⟩
      rintro ⟨⟨v, h⟩, _⟩
      cases hv.symm.trans h
    case ok v =>
      by_cases hs : (e.get "seq").toInt? = some (i : ℤ)
      case neg =>
        simp only [hs, ne_eq, not_false_eq_true, if_true]
        exact .inr ⟨_, 0, e, rfl, rfl, rfl, fun h => hs h.seq, by simp⟩
      case pos =>
        simp only [hs, ne_eq, not_true_eq_false, if_false]
        have he : WellPlaced keccak256 toUtf8Bytes e i := ⟨⟨v, hv⟩, hs⟩
        rcases ih (i + 1) with ⟨n, hn, h⟩ | ⟨r, k, e', hr, hi, hk, hb, h⟩
        case inl =>
          refine .inl ⟨n, hn, ?_⟩
          rintro (_ | j) e' hj
          · obtain rfl : e = e' := by simpa using hj
            exact he
          · rw [Nat.add_comm j, ←Nat.add_assoc]
            exact h j e' <| by simpa using hj
        case inr =>
          have ha (j) : i + 1 + j = i + (j + 1) := by omega
          rw [ha] at hi hb
          refine .inr ⟨r, k + 1, e', hr, hi, by simpa using hk, hb, ?_⟩
          rintro (_ | j) hj e' he'
          · obtain rfl : e = e' := by simpa using he'
            exact he
          · rw [←ha]
            exact h j (by omega) e' <| by simpa using he'

-- What the first two passes over a packet find.
theorem leafMismatch_cases :
    (leafMismatch keccak256 toUtf8Bytes events leaves = none ∧
      ∀ j < events.length, LeafAt keccak256 toUtf8Bytes events leaves j) ∨
    ∃ k < events.length, leafMismatch keccak256 toUtf8Bytes events leaves = some k ∧
      ¬ LeafAt keccak256 toUtf8Bytes events leaves k ∧
      ∀ j < k, LeafAt keccak256 toUtf8Bytes events leaves j := by
  have hp (j) (hj : j < events.length) : LeafAt keccak256 toUtf8Bytes events leaves j ↔
      ¬ ((eventLeaf keccak256 toUtf8Bytes events[j]).isNone ∨
        (leaves.getD j undefined).toString? ≠ eventLeaf keccak256 toUtf8Bytes events[j]) := by
    rw [LeafAt, List.getElem?_eq_getElem hj]
    simp only [Option.some.injEq, exists_eq_left', LeafMatches]
    cases eventLeaf keccak256 toUtf8Bytes events[j] <;> simp
  rw [leafMismatch]
  generalize hr : List.findIdx? _ _ = r
  cases r
  case none =>
    rw [List.findIdx?_eq_none_iff] at hr
    refine .inl ⟨rfl, fun j hj => (hp j hj).mpr ?_⟩
    have := hr (events[j], j) <| List.mem_zipIdx_iff_getElem?.mpr <| List.getElem?_eq_getElem hj
    simpa using this
  case some k =>
    rw [List.findIdx?_eq_some_iff_getElem] at hr
    obtain ⟨hk, h, hb⟩ := hr
    have hk : k < events.length := by simpa using hk
    refine .inr ⟨k, hk, rfl, ?_, fun j hj => (hp j (hj.trans hk)).mpr ?_⟩
    · rw [hp k hk, not_not]
      simpa using h
    · have := hb j hj
      simpa using this

-- A computation which rejects without naming an event.
def NoSeq (x : Except PacketReject α) : Prop :=
  ∀ r, x = .error r → r.seq = none

namespace NoSeq

theorem pure (a : α) : NoSeq (.ok a) :=
  fun _ h => nomatch h

theorem throw {r : PacketReject} (h : r.seq = none) : NoSeq (.error r : Except PacketReject α) := by
  rintro _ ⟨rfl⟩
  exact h

theorem bind {x : Except PacketReject α} {f : α → Except PacketReject β} (h : NoSeq x) (hf : ∀ a, NoSeq (f a)) :
    NoSeq (x >>= f) := by
  cases x
  case error r => exact throw <| h r rfl
  case ok a    => exact hf a

theorem ite {x y : Except PacketReject α} {p : Prop} [Decidable p] (hx : NoSeq x) (hy : NoSeq y) :
    NoSeq (if p then x else y) := by
  split_ifs <;> assumption

theorem headText (size root : Value) : NoSeq (headText size root) := by
  rw [AgentSession.headText]
  cases size.toText
  case none => exact throw rfl
  case some =>
    cases root.toText
    case none => exact throw rfl
    case some => exact pure _

theorem verifyHead (size root container : Value) :
    NoSeq (verifyHead verifyMessage getAddress syntaxError size root container vendor) := by
  rw [AgentSession.verifyHead]
  refine ite ?_ ?_
  case refine_1 => exact ite (throw rfl) (pure _)
  case refine_2 =>
    cases CoreAttestation.validateSignedAttestation syntaxError container SIGNED_HEAD_CFG
    case error => exact throw rfl
    case ok container =>
      refine ite ?_ ?_
      · exact bind (headText _ _) fun _ => bind (headText _ _) fun _ => throw rfl
      · simp only
        generalize CoreAttestation.signerMatchesExpected _ _ _ = m
        cases m
        case none => exact throw rfl
        case some =>
          refine ite (throw rfl) ?_
          cases vendor
          case none => exact pure _
          case some => exact ite (throw rfl) (pure _)

theorem sessionHead {es : Value} (h : validateSession keccak256 toUtf8Bytes es = .ok n) :
    NoSeq ((sessionHead keccak256 toUtf8Bytes es).mapError fun r =>
      ({ reason := .session r.reason, seq := r.index } : PacketReject)) := by
  rw [AgentSession.sessionHead, h, ok_bind]
  simp only
  split_ifs
  · exact throw rfl
  · exact pure _

end NoSeq

-- The passes after the second one do not name an event.
theorem verifyPacket_seq {r : PacketReject}
    (h : verifyPacket keccak256 toUtf8Bytes verifyMessage getAddress syntaxError packet vendor = .error r)
    (hs : r.seq = some s) :
    (∃ e, validateSession keccak256 toUtf8Bytes (packet.get "events") = .error e ∧ e.index = some s) ∨
    (∃ n, validateSession keccak256 toUtf8Bytes (packet.get "events") = .ok n) ∧
      leafMismatch keccak256 toUtf8Bytes (packetEvents packet) (packetLeaves packet) = some s := by
  rw [verifyPacket] at h
  cases hv : validateSession keccak256 toUtf8Bytes (packet.get "events")
  case error e =>
    rw [hv] at h
    obtain rfl := Except.error.inj h
    exact .inl ⟨e, rfl, hs⟩
  case ok n =>
    refine .inr ⟨⟨n, rfl⟩, ?_⟩
    rw [hv, Except.mapError, ok_bind] at h
    cases hl : leafMismatch keccak256 toUtf8Bytes (packetEvents packet) (packetLeaves packet)
    case some i =>
      rw [packetEvents, packetLeaves] at hl
      simp only [hl] at h
      obtain rfl := Except.error.inj h
      exact hs
    case none =>
      rw [packetEvents, packetLeaves] at hl
      dsimp only at h
      rw [hl] at h
      refine absurd ?_ (hs ▸ Option.some_ne_none s : r.seq ≠ none)
      refine NoSeq.bind (NoSeq.sessionHead hv) (fun derived => ?_) r h
      refine NoSeq.ite ?_ ?_
      · exact NoSeq.bind (NoSeq.headText _ _) fun _ => NoSeq.bind (NoSeq.headText _ _) fun _ => NoSeq.throw rfl
      · refine NoSeq.ite (NoSeq.throw ?_) ?_
        · rw [countsReject]
          split <;> rfl
        · exact NoSeq.bind (NoSeq.verifyHead _ _ _) fun _ => NoSeq.pure _

theorem validateSession_of_array (h : packet.get "events" = array events) :
    packetEvents packet = events ∧ validateSession keccak256 toUtf8Bytes (packet.get "events") =
      validateFrom keccak256 toUtf8Bytes 0 events := by
  rw [packetEvents, h]
  exact ⟨rfl, rfl⟩

-- The first two passes over the events of a packet.
theorem validateSession_cases (h : packet.get "events" = array events) :
    (∃ n, validateSession keccak256 toUtf8Bytes (packet.get "events") = .ok n ∧
      ∀ j < (packetEvents packet).length, PlacedAt keccak256 toUtf8Bytes (packetEvents packet) j) ∨
    ∃ r, ∃ k < (packetEvents packet).length,
      validateSession keccak256 toUtf8Bytes (packet.get "events") = .error r ∧ r.index = some k ∧
      ¬ PlacedAt keccak256 toUtf8Bytes (packetEvents packet) k ∧
      ∀ j < k, PlacedAt keccak256 toUtf8Bytes (packetEvents packet) j := by
  have ⟨he, hv⟩ := @validateSession_of_array keccak256 toUtf8Bytes _ _ h
  rw [hv, he]
  have hp {j} (hj : j < events.length)
      (h : ∀ e, events[j]? = some e → WellPlaced keccak256 toUtf8Bytes e (0 + j)) :
      PlacedAt keccak256 toUtf8Bytes events j :=
    ⟨events[j], List.getElem?_eq_getElem hj, Nat.zero_add j ▸ h _ (List.getElem?_eq_getElem hj)⟩
  rcases @validateFrom_cases keccak256 toUtf8Bytes 0 events with ⟨n, hn, h⟩ | ⟨r, k, e, hr, hi, hk, hb, h⟩
  case inl => exact .inl ⟨n, hn, fun j hj => hp hj <| h j⟩
  case inr =>
    have hl : k < events.length := (List.getElem?_eq_some_iff.mp hk).choose
    rw [Nat.zero_add] at hi hb
    refine .inr ⟨r, k, hl, hr, hi, ?_, fun j hj => hp (hj.trans hl) <| h j hj⟩
    rintro ⟨e', he', hw⟩
    obtain rfl := Option.some.inj <| hk.symm.trans he'
    exact hb hw

theorem events_of_shape (h : validatePacketShape syntaxError packet = .ok ()) :
    ∃ events, packet.get "events" = array events := by
  cases he : packet.get "events"
  case array events => exact ⟨events, rfl⟩
  all_goals simp [validatePacketShape, bind_eq_ok, demand_eq_ok, he, elems?] at h

theorem verifyPacket_of_invalid (h : validateSession keccak256 toUtf8Bytes (packet.get "events") = .error r) :
    verifyPacket keccak256 toUtf8Bytes verifyMessage getAddress syntaxError packet vendor = .error r.toPacket := by
  rw [verifyPacket, h]
  rfl

-- The named event is the first one with a defect exactly if the leaves before an invalid or misplaced event
-- are in order.
theorem namesFirst_iff (h : validatePacketShape syntaxError packet = .ok ()) :
    NamesFirst keccak256 toUtf8Bytes verifyMessage getAddress syntaxError packet vendor ↔
      LeavesBefore keccak256 toUtf8Bytes packet := by
  obtain ⟨events, he⟩ := events_of_shape h
  rcases @validateSession_cases keccak256 toUtf8Bytes _ _ he with ⟨n, hn, hp⟩ | ⟨r, k, hk, hr, hi, hb, hp⟩
  case inl =>
    refine iff_of_true ?_ fun s hs hn => absurd (hp s hs) hn
    intro r s hr hs
    rcases verifyPacket_seq hr hs with ⟨e, he, _⟩ | ⟨_, hl⟩
    case inl => cases hn.symm.trans he
    case inr =>
      rcases @leafMismatch_cases keccak256 toUtf8Bytes (packetEvents packet) (packetLeaves packet) with
        ⟨h, _⟩ | ⟨k, hk, h, hb, ha⟩
      · cases h.symm.trans hl
      · obtain rfl := Option.some.inj <| h.symm.trans hl
        exact ⟨hk, fun j hj => ⟨hp j (hj.trans hk), ha j hj⟩, fun hs => hb hs.right⟩
  case inr =>
    have hu {s} (hs : s < (packetEvents packet).length)
        (hn : ¬ PlacedAt keccak256 toUtf8Bytes (packetEvents packet) s)
        (ha : ∀ j < s, PlacedAt keccak256 toUtf8Bytes (packetEvents packet) j) : s = k := by
      rcases lt_trichotomy s k with h | h | h
      · exact absurd (hp s h) hn
      · exact h
      · exact absurd (ha k h) hb
    constructor
    case mp =>
      intro hf s hs hn ha
      obtain rfl := hu hs hn ha
      exact fun j hj => (hf _ s (verifyPacket_of_invalid hr) hi).right.left j hj |>.right
    case mpr =>
      intro hl r' s hv hs
      rcases verifyPacket_seq hv hs with ⟨e, he, hi'⟩ | ⟨⟨n, hn⟩, _⟩
      case inl =>
        obtain rfl := Except.error.inj <| hr.symm.trans he
        obtain rfl := Option.some.inj <| hi.symm.trans hi'
        exact ⟨hk, fun j hj => ⟨hp j hj, hl k hk hb hp j hj⟩, fun hs => hb hs.left⟩
      case inr => cases hr.symm.trans hn

theorem NamesFirst.eventLeaf_eq
    (h : NamesFirst keccak256 toUtf8Bytes verifyMessage getAddress syntaxError packet vendor)
    (hv : validateSession keccak256 toUtf8Bytes (packet.get "events") = .error r) (hi : r.index = some s) (hj : j < s)
    (he : (packetEvents packet)[j]? = some e) (hl : ((packetLeaves packet).getD j undefined).toString? = some l) :
    eventLeaf keccak256 toUtf8Bytes e = some l := by
  obtain ⟨-, e', he', l', hl', hs⟩ := (h _ s (verifyPacket_of_invalid hv) hi).right.left j hj
  obtain rfl := Option.some.inj <| he.symm.trans he'
  obtain rfl := Option.some.inj <| hl.symm.trans hs
  exact hl'

-- What is hashed for the leaf of an event.
def leafBytes (keccak256 : Bytes → Bytes32) (toUtf8Bytes : JsString → Except JsString Bytes) (event : Value) :
    Option Bytes := do
  let v ← (validateEvent keccak256 toUtf8Bytes event).toOption
  let encoded ← stringify <| leafArray event v
  (toUtf8Bytes encoded).toOption

theorem eventLeaf_ne {w : Bytes32} (hp : p = leafBytes keccak256 toUtf8Bytes e)
    (hb : p.all fun bytes => keccak256 bytes ≠ w) : eventLeaf keccak256 toUtf8Bytes e ≠ some (Hex.hexlify w) := by
  subst hp
  intro h
  simp only [eventLeaf, Option.bind_eq_bind, Option.bind_eq_some_iff] at h
  obtain ⟨v, hv, encoded, he, bytes, hbytes, h⟩ := h
  have hp : leafBytes keccak256 toUtf8Bytes e = some bytes := by
    simp only [leafBytes, Option.bind_eq_bind, hv, Option.bind_some, he, hbytes]
  rw [hp, Option.all_some, decide_eq_true_eq] at hb
  exact hb <| Hex.hexlify_inj <| Option.some.inj h

end

section

def promptEvent : Value :=
  object [
    (js "seq", nat 0),
    (js "ts", string <| js "t"),
    (js "actor", string <| js "user"),
    (js "type", string <| js "prompt"),
    (js "payload", string <| js "hi")
  ]

-- It is not the leaf of the event.
def storedLeaf : JsString :=
  Hex.hexlify 1

-- A packet with the same event twice, so that the second one is misplaced, and with wrong leaves.
def repeatedPacket : Value :=
  object [
    (js "kind", string PACKET_KIND),
    (js "schemaVersion", nat 1),
    (js "note", string AGENT_TRUST_NOTE),
    (js "head", object [(js "size", nat 2), (js "root", string storedLeaf)]),
    (js "counts", object [(js "events", nat 2), (js "full", nat 2), (js "redacted", nat 0)]),
    (js "events", .array [promptEvent, promptEvent]),
    (js "leaves", ofStrings [storedLeaf, storedLeaf])
  ]

theorem shape_repeatedPacket : validatePacketShape id repeatedPacket = .ok () := by
  have hhead : validateHeadShape (repeatedPacket.get "head") "agent-session packet" = .ok () := by
    simp only [validateHeadShape, bind_eq_ok, require_eq_ok, exists_const]
    exact ⟨rfl, by decide +kernel, by decide +kernel, by decide +kernel⟩
  have hcounts : ["events", "full", "redacted"].forM (validateCount <| repeatedPacket.get "counts") = .ok () := by
    refine forM_eq_ok fun k hk => ?_
    have hc : ∀ k ∈ ["events", "full", "redacted"], isCount ((repeatedPacket.get "counts").get k) := by decide +kernel
    rw [validateCount, require_eq_ok]
    exact hc k hk
  have hleaves : ([string storedLeaf, string storedLeaf].zipIdx.forM fun l => validateLeaf l.fst l.snd) = .ok () := by
    refine forM_eq_ok fun l hl => ?_
    have hl : l.fst = string storedLeaf := by
      have := List.fst_mem_of_mem_zipIdx hl
      simpa using this
    rw [validateLeaf, require_eq_ok, hl]
    decide +kernel
  simp only [validatePacketShape, bind_eq_ok, require_eq_ok, demand_eq_ok, exists_const]
  exact ⟨rfl, by decide +kernel, rfl, by decide +kernel, rfl, (), hhead, rfl, by decide +kernel, (), hcounts,
    [promptEvent, promptEvent], rfl, [string storedLeaf, string storedLeaf], rfl, (), hleaves, by decide +kernel,
    by decide +kernel, rfl⟩

theorem validateSession_repeatedPacket :
    validateSession Keccak.keccak256 Unicode.strictUtf8 (repeatedPacket.get "events") =
      .error { reason := .sessionSeqNotContiguous, index := some 1 } := by
  decide +kernel

def promptBytes : Option Bytes :=
  leafBytes Keccak.keccak256 Unicode.strictUtf8 promptEvent

theorem keccak256_promptBytes_ne : promptBytes.all fun bytes => Keccak.keccak256 bytes ≠ 1 := by
  decide +kernel

theorem namesFirst_iff_repeated :
    NamesFirst Keccak.keccak256 Unicode.strictUtf8 (fun _ _ => none) some id repeatedPacket none ↔
      LeavesBefore Keccak.keccak256 Unicode.strictUtf8 repeatedPacket :=
  namesFirst_iff shape_repeatedPacket

-- The packet is rejected at its second event, although the first one has a wrong leaf.
theorem not_namesFirst :
    ¬ NamesFirst Keccak.keccak256 Unicode.strictUtf8 (fun _ _ => none) some id repeatedPacket none := by
  intro h
  have he : (packetEvents repeatedPacket)[0]? = some promptEvent := rfl
  have hl : ((packetLeaves repeatedPacket).getD 0 undefined).toString? = some storedLeaf := rfl
  exact eventLeaf_ne promptBytes.eq_def keccak256_promptBytes_ne <|
    h.eventLeaf_eq validateSession_repeatedPacket rfl Nat.zero_lt_one he hl

end

end AgentSession
