import Verifyhash.Session.Theorems.Session

namespace AgentSession

open Json Value Fallible Hex Unicode JournalLog

theorem plain_ofDoubles (h : Plain v) : OfDoubles v := by
  induction h
  case null           => exact .null
  case bool           => exact .bool
  case string         => exact .string
  case array ih       => exact .array ih
  case object ih      => exact .object ih
  case number q hq    =>
    refine .number fun q' h => ?_
    obtain ⟨rfl⟩ := h
    exact hq

variable {keccak256 : Bytes → Bytes32} {toUtf8Bytes : JsString → Except JsString Bytes}
variable {e : Value} {es : List Value} {c : Core} {v : Validation}

theorem Accepts.ofDoubles_twin (a : Accepts keccak256 toUtf8Bytes e c v) (hd : OfDoubles e) :
    OfDoubles (twinOf e v) := by
  have hm (h : e.has "meta") : OfDoubles (Json.tidy sortedOrder <| e.get "meta") :=
    plain_ofDoubles <| plain_tidy sortedOrder_perm (a.strict_meta hd h).serializable
  have hb : OfDoubles (bool true) := .bool
  have hs : OfDoubles (string v.payloadHash) := .string
  refine .object fun f hf => ?_
  rw [a.metaJson_isSome] at hf
  cases h : e.has "meta"
  all_goals
    simp only [h, Bool.false_eq_true, if_true, if_false, List.cons_append, List.nil_append, List.mem_cons,
      List.not_mem_nil, or_false] at hf
  case false => rcases hf with rfl | rfl | rfl | rfl | rfl | rfl <;> first | exact hd.get _ | assumption
  case true =>
    rcases hf with rfl | rfl | rfl | rfl | rfl | rfl | rfl
    all_goals first | exact hm h | exact hd.get _ | assumption

-- The twin of a twin is the twin itself.
theorem twinOf_twinOf : twinOf (twinOf e v) { v with redacted := true } = twinOf e v := by
  have hg (key) (hk : key ∈ ["seq", "ts", "actor", "type"]) : (twinOf e v).get key = e.get key := get_twinOf hk
  rw [twinOf, hg "seq" (by decide), hg "ts" (by decide), hg "actor" (by decide), hg "type" (by decide)]
  cases h : v.metaJson.isSome
  case false => simp [twinOf, h]
  case true  => rw [get_meta_twinOf h, tidy_tidy sortedOrder_perm, twinOf, if_pos h, if_pos rfl]

variable (keccak256 toUtf8Bytes) in
-- The session in which the events at the positions of a subset are redacted.
def redactAt (subset : ℕ → Bool) (es : List Value) : List Value :=
  es.mapIdx fun i e => if subset i then (redactEvent keccak256 toUtf8Bytes e).toOption.getD e else e

-- Whether an event is redacted or not, its place and its leaf are the same.
theorem redacted_accepts (a : Accepts keccak256 toUtf8Bytes e c v) (hd : OfDoubles e) (b : Bool) :
    OfDoubles (if b then (redactEvent keccak256 toUtf8Bytes e).toOption.getD e else e) ∧
    ∃ v', Accepts keccak256 toUtf8Bytes
      (if b then (redactEvent keccak256 toUtf8Bytes e).toOption.getD e else e) c v' ∧
      leafOf keccak256 c v' = leafOf keccak256 c v := by
  cases b
  case false => exact ⟨hd, v, a, rfl⟩
  case true  =>
    rw [a.redactEvent hd]
    exact ⟨a.ofDoubles_twin hd, _, a.twin hd, rfl⟩

theorem redactEvent_idem (hd : OfDoubles e) (h : redactEvent keccak256 toUtf8Bytes e = .ok twin) :
    redactEvent keccak256 toUtf8Bytes twin = .ok twin := by
  obtain ⟨v, hv, _⟩ := bind_eq_ok.mp h
  obtain ⟨c, a⟩ := validateEvent_eq_ok.mp hv
  rw [a.redactEvent hd] at h
  obtain ⟨rfl⟩ := h
  rw [(a.twin hd).redactEvent (a.ofDoubles_twin hd), twinOf_twinOf]

section

variable (subset : ℕ → Bool) (hs : IsSession keccak256 toUtf8Bytes es) (hd : ∀ e ∈ es, OfDoubles e)

include hs hd

theorem IsSession.redactAt : IsSession keccak256 toUtf8Bytes (redactAt keccak256 toUtf8Bytes subset es) := by
  intro i h
  have hl : i < es.length := by simpa [AgentSession.redactAt] using h
  obtain ⟨c, v, a, hq⟩ := hs i hl
  obtain ⟨_, v', a', _⟩ := redacted_accepts a (hd _ <| List.getElem_mem hl) (subset i)
  simp only [AgentSession.redactAt, List.getElem_mapIdx]
  exact ⟨c, v', a', hq⟩

theorem ofDoubles_redactAt : ∀ e ∈ redactAt keccak256 toUtf8Bytes subset es, OfDoubles e := by
  intro e he
  obtain ⟨i, h, rfl⟩ := List.getElem_of_mem he
  have hl : i < es.length := by simpa [redactAt] using h
  obtain ⟨c, v, a, _⟩ := hs i hl
  simp only [redactAt, List.getElem_mapIdx]
  exact redacted_accepts a (hd _ <| List.getElem_mem hl) (subset i) |>.left

theorem eventLeaf_redactAt (he : Encodes toUtf8Bytes) :
    (redactAt keccak256 toUtf8Bytes subset es).map (eventLeaf keccak256 toUtf8Bytes) =
      es.map (eventLeaf keccak256 toUtf8Bytes) := by
  refine List.ext_getElem (by simp [redactAt]) fun i h₁ h₂ => ?_
  have hl : i < es.length := by simpa using h₂
  obtain ⟨c, v, a, _⟩ := hs i hl
  obtain ⟨_, v', a', hv⟩ := redacted_accepts a (hd _ <| List.getElem_mem hl) (subset i)
  simp only [List.getElem_map, redactAt, List.getElem_mapIdx]
  rw [a'.eventLeaf he, a.eventLeaf he, hv]

end

theorem leafList_eq : leafList keccak256 toUtf8Bytes es =
    (es.map <| eventLeaf keccak256 toUtf8Bytes).map (·.getD []) := by
  simp [leafList]

theorem headOf_congr (h : es.map (eventLeaf keccak256 toUtf8Bytes) = es'.map (eventLeaf keccak256 toUtf8Bytes)) :
    headOf keccak256 toUtf8Bytes es = headOf keccak256 toUtf8Bytes es' := by
  have hl : es.length = es'.length := by simpa using congrArg List.length h
  rw [headOf, headOf, leafList_eq, h, ←leafList_eq, hl]

-- When a session of `n` events stands in for another one: it has the same leaves and the same head, and
-- what is proven from it is accepted for the heads of the other one.
structure StandsFor (keccak256 : Bytes → Bytes32) (toUtf8Bytes : JsString → Except JsString Bytes)
    (es' es : List Value) (n : ℕ) : Prop where
  validated : validateSession keccak256 toUtf8Bytes (.array es') = .ok n
  leaf      : ∀ e ∈ es, eventLeaf keccak256 toUtf8Bytes e ≠ none
  leaves    : es'.map (eventLeaf keccak256 toUtf8Bytes) = es.map (eventLeaf keccak256 toUtf8Bytes)
  head      : ∃ head, sessionHead keccak256 toUtf8Bytes (.array es) = .ok head ∧
    sessionHead keccak256 toUtf8Bytes (.array es') = .ok head
  proves    : ∀ (index : Value) (i : ℕ), index.toInt? = some (i : ℤ) → i < n →
    ∃ proof, proveEvent keccak256 toUtf8Bytes (.array es') index = .ok proof
  proven    : ∀ index proof, proveEvent keccak256 toUtf8Bytes (.array es') index = .ok proof →
    ∃ head r, sessionHead keccak256 toUtf8Bytes (.array es) = .ok head ∧
      verifyEvent keccak256 toUtf8Bytes proof head = .ok r
  grows     : ∀ (first second : Value) (m k : ℕ), first.toInt? = some (m : ℤ) →
    (lastSize es second).toInt? = some (k : ℤ) → 1 ≤ m → m ≤ k → k ≤ n →
    ∃ proof, proveGrowth keccak256 toUtf8Bytes (.array es') first second = .ok proof
  grown     : ∀ first second proof, proveGrowth keccak256 toUtf8Bytes (.array es') first second = .ok proof →
    ∃ (m k : ℕ) (earlier later : Value),
      first.toInt? = some (m : ℤ) ∧ (lastSize es second).toInt? = some (k : ℤ) ∧
      sessionHead keccak256 toUtf8Bytes (.array <| es.take m) = .ok earlier ∧
      sessionHead keccak256 toUtf8Bytes (.array <| es.take k) = .ok later ∧
      verifyGrowth keccak256 earlier later proof = .ok ()

theorem standsFor_redactAt (subset : ℕ → Bool) (he : Encodes toUtf8Bytes) (hd : ∀ e ∈ es, OfDoubles e)
    (hs : IsSession keccak256 toUtf8Bytes es) :
    StandsFor keccak256 toUtf8Bytes (redactAt keccak256 toUtf8Bytes subset es) es es.length := by
  have hs' : IsSession keccak256 toUtf8Bytes (redactAt keccak256 toUtf8Bytes subset es) := hs.redactAt subset hd
  have hd' := ofDoubles_redactAt subset hs hd
  have hl : (redactAt keccak256 toUtf8Bytes subset es).length = es.length := by simp [redactAt]
  have hleaf := eventLeaf_redactAt subset hs hd he
  have hlast second : lastSize (redactAt keccak256 toUtf8Bytes subset es) second = lastSize es second := by
    rw [lastSize, lastSize, hl]
  exact {
    validated := validateSession_eq_ok.mpr ⟨hl, hs'⟩
    leaf e h  := by
      obtain ⟨c, v, a⟩ := hs.exists_of_mem h
      simp [a.eventLeaf he]
    leaves    := hleaf
    head      := ⟨_, hs.sessionHead_eq he, headOf_congr hleaf ▸ hs'.sessionHead_eq he⟩
    proves index i hi h := ⟨_, hs'.proveEvent_eq_ok he hd' |>.mpr ⟨i, hi, hl ▸ h, rfl⟩⟩
    proven index proof h := by
      obtain ⟨i, hi, hlt, rfl⟩ := hs'.proveEvent_eq_ok he hd' |>.mp h
      obtain ⟨r, hr⟩ := hs'.verifyEvent_proofOf he hd' hi hlt
      exact ⟨_, r, hs.sessionHead_eq he, headOf_congr hleaf ▸ hr⟩
    grows first second m k hm hk h₁ h h₂ :=
      ⟨_, hs'.proveGrowth_eq_ok he |>.mpr ⟨m, k, hm, hlast _ ▸ hk, h₁, h, hl ▸ h₂, rfl⟩⟩
    grown first second proof h := by
      obtain ⟨m, k, hm, hk, h₁, hmk, h₂, rfl⟩ := hs'.proveGrowth_eq_ok he |>.mp h
      have hg := hs'.verifyGrowth_accepted he hm hk h₁ hmk h₂
      have ht (j) : headOf keccak256 toUtf8Bytes ((redactAt keccak256 toUtf8Bytes subset es).take j) =
          headOf keccak256 toUtf8Bytes (es.take j) := headOf_congr <| by rw [List.map_take, hleaf, List.map_take]
      rw [ht, ht] at hg
      exact ⟨m, k, _, _, hm, hlast _ ▸ hk, hs.take.sessionHead_eq he, hs.take.sessionHead_eq he, hg⟩
  }

-- Redaction succeeds for every event of a session and is idempotent, and a redacted session stands in
-- for the original one.
theorem redactAt_preserves {n : ℕ} (he : Encodes toUtf8Bytes) (hd : ∀ e ∈ es, OfDoubles e)
    (hv : validateSession keccak256 toUtf8Bytes (.array es) = .ok n) (subset : ℕ → Bool) :
    (∀ e ∈ es, ∃ twin, redactEvent keccak256 toUtf8Bytes e = .ok twin) ∧
    (∀ e twin, OfDoubles e → redactEvent keccak256 toUtf8Bytes e = .ok twin →
      redactEvent keccak256 toUtf8Bytes twin = .ok twin) ∧
    StandsFor keccak256 toUtf8Bytes (redactAt keccak256 toUtf8Bytes subset es) es n := by
  obtain ⟨rfl, hs⟩ := validateSession_eq_ok.mp hv
  refine ⟨fun e h => ?_, fun e twin => redactEvent_idem, standsFor_redactAt subset he hd hs⟩
  obtain ⟨c, v, a⟩ := hs.exists_of_mem h
  exact ⟨_, a.redactEvent <| hd e h⟩

-- A prompt with its payload and a meta object, and the completion which follows.
def exchange : List Value := [
  object [
    (js "seq", nat 0),
    (js "ts", string <| js "t"),
    (js "actor", string <| js "user"),
    (js "type", string <| js "prompt"),
    (js "payload", string <| js "hi"),
    (js "meta", object [(js "b", null), (js "a", nat 1)])
  ],
  object [
    (js "payload", string <| js "ho"),
    (js "seq", nat 1),
    (js "ts", string []),
    (js "actor", string <| js "model"),
    (js "type", string <| js "completion")
  ]
]

theorem ofDoubles_exchange : ∀ e ∈ exchange, OfDoubles e := by
  have hn {n : ℕ} (h : n < 2 ^ 53) : OfDoubles (nat n) := plain_ofDoubles <| .number <| Double.isDouble_natCast h
  have hs (s) : OfDoubles (string s) := .string
  have hm : OfDoubles (object [(js "b", null), (js "a", nat 1)]) :=
    .object <| by simp [hn (n := 1) (by decide), OfDoubles.null]
  simp only [exchange, List.forall_mem_cons, List.not_mem_nil, false_imp_iff, implies_true, and_true]
  refine ⟨.object ?_, .object ?_⟩
  all_goals
    simp only [List.forall_mem_cons, List.not_mem_nil, false_imp_iff, implies_true, and_true]
    simp only [hs, hm, hn (n := 0) (by decide), hn (n := 1) (by decide), and_self]

theorem redactAt_preserves_exchange :
    (∀ e ∈ exchange, ∃ twin, redactEvent Keccak.keccak256 strictUtf8 e = .ok twin) ∧
    (∀ e twin, OfDoubles e → redactEvent Keccak.keccak256 strictUtf8 e = .ok twin →
      redactEvent Keccak.keccak256 strictUtf8 twin = .ok twin) ∧
    StandsFor Keccak.keccak256 strictUtf8 (redactAt Keccak.keccak256 strictUtf8 (· = 0) exchange) exchange 2 :=
  redactAt_preserves encodes_strictUtf8 ofDoubles_exchange (by decide) _

end AgentSession
