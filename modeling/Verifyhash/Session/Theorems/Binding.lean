import Verifyhash.Session.Theorems.Redaction

namespace AgentSession

open Json Value Fallible Hex Unicode JournalLog MerkleLog

section

variable (keccak256 : Bytes → Bytes32) (toUtf8Bytes : JsString → Except JsString Bytes)

-- The inputs which are hashed for the leaf of an event: the text of the leaf, and the payload if the
-- event discloses it.
def eventInputs (event : Value) : List Bytes :=
  match validateEvent keccak256 toUtf8Bytes event with
  | .error _ => []
  | .ok v    =>
    let encoded := (stringify <| leafArray event v).bind fun s => (toUtf8Bytes s).toOption
    let payload := (event.get "payload").toString?.bind fun s => (toUtf8Bytes s).toOption
    encoded.toList ++ payload.toList

-- The inputs which are hashed for the head of a session.
def headInputs (es : List Value) : List Bytes :=
  es.flatMap (eventInputs keccak256 toUtf8Bytes) ++ treeHeadInputs keccak256 (leafList keccak256 toUtf8Bytes es)

-- The inputs which are hashed to verify the proof for an event.
def verifyEventInputs (proof : Value) : List Bytes :=
  let leaf := eventLeaf keccak256 toUtf8Bytes <| proof.get "event"
  eventInputs keccak256 toUtf8Bytes (proof.get "event") ++
    (leaf.map fun leaf => verifyInclusionInputs keccak256 <| included leaf <| proof.get "inclusion").getD []

-- When two events are accepted and agree on the fields which a leaf covers, and on the payload if both
-- of them disclose it.
structure Agree (e₁ e₂ : Value) : Prop where
  seq       : (e₁.get "seq").toInt? = (e₂.get "seq").toInt?
  ts        : e₁.get "ts" = e₂.get "ts"
  actor     : e₁.get "actor" = e₂.get "actor"
  type      : e₁.get "type" = e₂.get "type"
  validated : ∃ v₁ v₂, validateEvent keccak256 toUtf8Bytes e₁ = .ok v₁ ∧ validateEvent keccak256 toUtf8Bytes e₂ = .ok v₂ ∧
    v₁.payloadHash = v₂.payloadHash ∧ v₁.metaJson = v₂.metaJson
  payload   : e₁.has "payload" → e₂.has "payload" → e₁.get "payload" = e₂.get "payload"

end

variable {keccak256 : Bytes → Bytes32} {toUtf8Bytes : JsString → Except JsString Bytes}
variable {es : List Value}

theorem Accepts.leaf_mem (a : Accepts keccak256 toUtf8Bytes e c v) (he : Encodes toUtf8Bytes) :
    bufferFrom (render <| leafValue c v) ∈ eventInputs keccak256 toUtf8Bytes e := by
  simp [eventInputs, validateEvent_eq_ok.mpr ⟨c, a⟩, a.stringify_leafArray, he.eq_ok a.wellFormed_leafValue,
    Except.toOption]

theorem Accepts.payload_mem (a : Accepts keccak256 toUtf8Bytes e c v) (hp : e.get "payload" = string p)
    (hb : toUtf8Bytes p = .ok b) : b ∈ eventInputs keccak256 toUtf8Bytes e := by
  simp [eventInputs, validateEvent_eq_ok.mpr ⟨c, a⟩, hp, toString?, hb, Except.toOption]

-- The leaf of an event determines what it covers.
theorem Accepts.agree (a₁ : Accepts keccak256 toUtf8Bytes e₁ c₁ v₁) (a₂ : Accepts keccak256 toUtf8Bytes e₂ c₂ v₂)
    (he : Encodes toUtf8Bytes) (hu : Lossless toUtf8Bytes) (h₁ : eventInputs keccak256 toUtf8Bytes e₁ ⊆ is)
    (h₂ : eventInputs keccak256 toUtf8Bytes e₂ ⊆ is) (c : CollisionFree keccak256 is)
    (h : toBytes32 (leafOf keccak256 c₁ v₁) = toBytes32 (leafOf keccak256 c₂ v₂)) :
    Agree keccak256 toUtf8Bytes e₁ e₂ := by
  rw [leafOf, leafOf, toBytes32_hashBytes, toBytes32_hashBytes] at h
  have h := c _ (h₁ <| a₁.leaf_mem he) _ (h₂ <| a₂.leaf_mem he) h
  have h := render_inj a₁.plain_leafValue a₂.plain_leafValue <|
    bufferFrom_inj a₁.wellFormed_leafValue a₂.wellFormed_leafValue h
  have hm (m m' : Option JsString) (h : m.elim null string = m'.elim null string) : m = m' := by
    cases m <;> cases m' <;> simp_all
  simp only [leafValue, array.injEq, List.cons.injEq, string.injEq, true_and, and_true] at h
  obtain ⟨hq, ht, ha, hy, hh, hm'⟩ := h
  have hq : (nat c₁.seq).toInt? = (nat c₂.seq).toInt? := congrArg toInt? hq
  exact {
    seq       := by rw [a₁.seq, a₂.seq, ←toInt?_nat, hq, toInt?_nat]
    ts        := by rw [a₁.ts, a₂.ts, ht]
    actor     := by rw [a₁.actor, a₂.actor, ha]
    type      := by rw [a₁.type, a₂.type, hy]
    validated := ⟨v₁, v₂, validateEvent_eq_ok.mpr ⟨c₁, a₁⟩, validateEvent_eq_ok.mpr ⟨c₂, a₂⟩, hh, hm _ _ hm'⟩
    payload h₁' h₂' := by
      obtain ⟨p₁, b₁, hp₁, hb₁, hx₁⟩ := a₁.payload h₁'
      obtain ⟨p₂, b₂, hp₂, hb₂, hx₂⟩ := a₂.payload h₂'
      have hk : keccak256 b₁ = keccak256 b₂ := hexlify_inj <| hx₁.symm.trans <| hh.trans hx₂
      obtain rfl := c _ (h₁ <| a₁.payload_mem hp₁ hb₁) _ (h₂ <| a₂.payload_mem hp₂ hb₂) hk
      rw [hp₁, hp₂, hu p₁ p₂ b₁ hb₁ hb₂]
  }

theorem sessionHead_eq_ok (he : Encodes toUtf8Bytes) :
    sessionHead keccak256 toUtf8Bytes (.array es) = .ok head ↔
      IsSession keccak256 toUtf8Bytes es ∧ head = headOf keccak256 toUtf8Bytes es := by
  constructor
  case mp =>
    intro h
    obtain ⟨_, hv, _⟩ := bind_eq_ok.mp h
    obtain ⟨_, hs⟩ := validateSession_eq_ok.mp hv
    rw [hs.sessionHead_eq he] at h
    exact ⟨hs, (Except.ok.inj h).symm⟩
  case mpr =>
    rintro ⟨hs, rfl⟩
    exact hs.sessionHead_eq he

theorem eventInputs_subset {i : ℕ} (hi : i < es.length) :
    eventInputs keccak256 toUtf8Bytes es[i] ⊆ headInputs keccak256 toUtf8Bytes es := fun _ h =>
  List.mem_append_left _ <| List.mem_flatMap.mpr ⟨_, List.getElem_mem hi, h⟩

-- Sessions with the same head have the same size and agree at every position.
theorem agree_of_sessionHead_eq {es₁ es₂ : List Value} (he : Encodes toUtf8Bytes) (hu : Lossless toUtf8Bytes)
    (c : CollisionFree keccak256 (headInputs keccak256 toUtf8Bytes es₁ ++ headInputs keccak256 toUtf8Bytes es₂))
    (h₁ : sessionHead keccak256 toUtf8Bytes (.array es₁) = .ok head)
    (h₂ : sessionHead keccak256 toUtf8Bytes (.array es₂) = .ok head) :
    es₁.length = es₂.length ∧ ∀ (i : ℕ) (h₁ : i < es₁.length) (h₂ : i < es₂.length),
      Agree keccak256 toUtf8Bytes es₁[i] es₂[i] := by
  obtain ⟨hs₁, rfl⟩ := sessionHead_eq_ok he |>.mp h₁
  obtain ⟨hs₂, hh⟩ := sessionHead_eq_ok he |>.mp h₂
  have hl₁ : (leafList keccak256 toUtf8Bytes es₁).length = es₁.length := List.length_map ..
  have hl₂ : (leafList keccak256 toUtf8Bytes es₂).length = es₂.length := List.length_map ..
  have hn : nat es₁.length = nat es₂.length := congrArg (·.get "size") hh
  have hr : string (mth keccak256 <| leafList keccak256 toUtf8Bytes es₁) =
      string (mth keccak256 <| leafList keccak256 toUtf8Bytes es₂) := congrArg (·.get "root") hh
  have hl : es₁.length = es₂.length := by
    have := congrArg toInt? hn
    rw [toInt?_nat, toInt?_nat] at this
    exact_mod_cast Option.some.inj this
  rw [string.injEq, mth_eq <| hs₁.isHex32_leafList he, mth_eq <| hs₂.isHex32_leafList he] at hr
  have hm := LogScheme.root_inj (S := scheme keccak256) (c.mono ?_) (by simp [hl₁, hl₂, hl]) <| hexlify_inj hr
  case refine_1 =>
    refine List.append_subset.mpr ⟨fun _ h => ?_, fun _ h => ?_⟩
    · exact List.mem_append_left _ <| List.mem_append_right _ h
    · exact List.mem_append_right _ <| List.mem_append_right _ h
  refine ⟨hl, fun i hi₁ hi₂ => ?_⟩
  obtain ⟨c₁, v₁, a₁, _⟩ := hs₁ i hi₁
  obtain ⟨c₂, v₂, a₂, _⟩ := hs₂ i hi₂
  refine a₁.agree a₂ he hu (fun _ h => List.mem_append_left _ <| eventInputs_subset hi₁ h)
    (fun _ h => List.mem_append_right _ <| eventInputs_subset hi₂ h) c ?_
  rw [←IsSession.getElem_leafList he hi₁ (hl₁ ▸ hi₁) a₁, ←IsSession.getElem_leafList he hi₂ (hl₂ ▸ hi₂) a₂]
  have := congrArg (·[i]?) hm
  simpa [hl₁, hl₂, hi₁, hi₂] using this

-- An event which is proven for the head of a session agrees with the event of the session at the place
-- which it states.
theorem agree_of_verifyEvent {es : List Value} (he : Encodes toUtf8Bytes) (hu : Lossless toUtf8Bytes)
    (c : CollisionFree keccak256 (headInputs keccak256 toUtf8Bytes es ++ verifyEventInputs keccak256 toUtf8Bytes proof))
    (h : sessionHead keccak256 toUtf8Bytes (.array es) = .ok head)
    (hv : verifyEvent keccak256 toUtf8Bytes proof head = .ok r) :
    ∃ (i : ℕ) (hi : i < es.length), ((proof.get "event").get "seq").toInt? = some (i : ℤ) ∧
      Agree keccak256 toUtf8Bytes (proof.get "event") es[i] := by
  obtain ⟨hs, rfl⟩ := sessionHead_eq_ok he |>.mp h
  obtain ⟨-, -, c₁, v₁, a₁, hi₁, hc, -⟩ := verifyEvent_eq_ok he |>.mp hv
  have hh := hs.isHex32_leafList he
  have hl : (leafList keccak256 toUtf8Bytes es).length = es.length := List.length_map ..
  rw [verifyInclusion_head isHead_headOf, ←hl, ←treeHead_ofStrings hh] at hc
  have hin : verifyEventInputs keccak256 toUtf8Bytes proof = eventInputs keccak256 toUtf8Bytes (proof.get "event") ++
      verifyInclusionInputs keccak256 (included (leafOf keccak256 c₁ v₁) <| proof.get "inclusion") := by
    rw [verifyEventInputs, a₁.eventLeaf he]
    rfl
  have hsub : treeHeadInputs keccak256 (leafList keccak256 toUtf8Bytes es) ++
      verifyInclusionInputs keccak256 (included (leafOf keccak256 c₁ v₁) <| proof.get "inclusion") ⊆
      headInputs keccak256 toUtf8Bytes es ++ verifyEventInputs keccak256 toUtf8Bytes proof := by
    refine List.append_subset.mpr ⟨fun _ h => ?_, fun _ h => ?_⟩
    · exact List.mem_append_left _ <| List.mem_append_right _ h
    · exact List.mem_append_right _ <| hin ▸ List.mem_append_right _ h
  obtain ⟨i, leaf, hi, hleaf, hlt, hb⟩ := leaf_of_verifyInclusion hh (c.mono hsub) hc
  obtain rfl : leafOf keccak256 c₁ v₁ = leaf := string.inj hleaf
  obtain rfl : c₁.seq = i := by
    have : ((proof.get "inclusion").get "leafIndex").toInt? = some (i : ℤ) := hi
    rw [hi₁] at this
    exact_mod_cast Option.some.inj this
  have hlt' : c₁.seq < es.length := hl ▸ hlt
  obtain ⟨c₂, v₂, a₂, _⟩ := hs c₁.seq hlt'
  refine ⟨c₁.seq, hlt', a₁.seq, ?_⟩
  refine a₁.agree a₂ he hu (fun _ h => List.mem_append_right _ <| hin ▸ List.mem_append_left _ h)
    (fun _ h => List.mem_append_left _ <| eventInputs_subset hlt' h) c ?_
  have hx (c v) : isHex32 (leafOf keccak256 c v) := isHex32_hashBytes _
  rw [IsSession.getElem_leafList he hlt' hlt a₂, getBytes_eq (hx _ _), getBytes_eq (hx _ _)] at hb
  exact Bytes.ofBytes32_inj hb

-- The head of a session binds its events: it fixes their number and what their leaves cover, and an
-- accepted proof is for an event of the session. The proofs which are made are accepted.
theorem sessionHead_binds (he : Encodes toUtf8Bytes) (hu : Lossless toUtf8Bytes) :
    (∀ es₁ es₂ head, CollisionFree keccak256
        (headInputs keccak256 toUtf8Bytes es₁ ++ headInputs keccak256 toUtf8Bytes es₂) →
      sessionHead keccak256 toUtf8Bytes (.array es₁) = .ok head →
      sessionHead keccak256 toUtf8Bytes (.array es₂) = .ok head →
      es₁.length = es₂.length ∧ ∀ (i : ℕ) (h₁ : i < es₁.length) (h₂ : i < es₂.length),
        Agree keccak256 toUtf8Bytes es₁[i] es₂[i]) ∧
    (∀ es proof head r, CollisionFree keccak256
        (headInputs keccak256 toUtf8Bytes es ++ verifyEventInputs keccak256 toUtf8Bytes proof) →
      sessionHead keccak256 toUtf8Bytes (.array es) = .ok head →
      verifyEvent keccak256 toUtf8Bytes proof head = .ok r →
      ∃ (i : ℕ) (hi : i < es.length), ((proof.get "event").get "seq").toInt? = some (i : ℤ) ∧
        Agree keccak256 toUtf8Bytes (proof.get "event") es[i]) ∧
    (∀ es index proof head, (∀ e ∈ es, OfDoubles e) →
      sessionHead keccak256 toUtf8Bytes (.array es) = .ok head →
      proveEvent keccak256 toUtf8Bytes (.array es) index = .ok proof →
      ∃ r, verifyEvent keccak256 toUtf8Bytes proof head = .ok r) := by
  refine ⟨fun es₁ es₂ head c h₁ h₂ => agree_of_sessionHead_eq he hu c h₁ h₂,
    fun es proof head r c h hv => agree_of_verifyEvent he hu c h hv, fun es index proof head hd h hp => ?_⟩
  obtain ⟨hs, rfl⟩ := sessionHead_eq_ok he |>.mp h
  obtain ⟨i, hi, hl, rfl⟩ := hs.proveEvent_eq_ok he hd |>.mp hp
  exact hs.verifyEvent_proofOf he hd hi hl

-- The session of the exchange, its redaction and the proof for its first event.
def exchangeHead : Value :=
  headOf Keccak.keccak256 strictUtf8 exchange

def redactedExchange : List Value :=
  redactAt Keccak.keccak256 strictUtf8 (· = 0) exchange

def promptProof : Value :=
  proofOf Keccak.keccak256 strictUtf8 exchange (nat 0) 0

theorem sessionHead_binds_exchange :
    (∀ (i : ℕ) (h₁ : i < exchange.length) (h₂ : i < redactedExchange.length),
      Agree Keccak.keccak256 strictUtf8 (exchange.get ⟨i, h₁⟩) (redactedExchange.get ⟨i, h₂⟩)) ∧
    (∃ (i : ℕ) (hi : i < exchange.length), ((promptProof.get "event").get "seq").toInt? = some (i : ℤ) ∧
      Agree Keccak.keccak256 strictUtf8 (promptProof.get "event") exchange[i]) ∧
    ∃ r, verifyEvent Keccak.keccak256 strictUtf8 promptProof exchangeHead = .ok r :=
  have b := @sessionHead_binds Keccak.keccak256 strictUtf8 encodes_strictUtf8 lossless_strictUtf8
  have hs : IsSession Keccak.keccak256 strictUtf8 exchange :=
    validateSession_eq_ok (n := 2) |>.mp (by decide +kernel) |>.right
  have h : sessionHead Keccak.keccak256 strictUtf8 (.array exchange) = .ok exchangeHead :=
    hs.sessionHead_eq encodes_strictUtf8
  have hp : proveEvent Keccak.keccak256 strictUtf8 (.array exchange) (nat 0) = .ok promptProof :=
    hs.proveEvent_eq_ok encodes_strictUtf8 ofDoubles_exchange |>.mpr ⟨0, toInt?_nat, by decide, rfl⟩
  have ⟨r, hr⟩ := b.right.right exchange (nat 0) promptProof exchangeHead ofDoubles_exchange h hp
  have hr' : sessionHead Keccak.keccak256 strictUtf8
      (.array redactedExchange) = .ok exchangeHead := by
    have ⟨head, h₁, h₂⟩ := (standsFor_redactAt (· = 0) encodes_strictUtf8 ofDoubles_exchange hs).head
    rwa [←h₁.symm.trans h]
  have c : CollisionFree Keccak.keccak256 (headInputs Keccak.keccak256 strictUtf8 exchange ++
        headInputs Keccak.keccak256 strictUtf8 redactedExchange) ∧
      CollisionFree Keccak.keccak256 (headInputs Keccak.keccak256 strictUtf8 exchange ++
        verifyEventInputs Keccak.keccak256 strictUtf8 promptProof) := by
    decide +kernel
  ⟨(b.left exchange redactedExchange exchangeHead c.left h hr').right,
   b.right.left exchange promptProof exchangeHead r c.right h hr, r, hr⟩

end AgentSession
