import Verifyhash.Session.Packet
import Verifyhash.Session.Theorems.Binding

namespace AgentSession

open Json Value Fallible Hex Unicode JournalLog Checks CoreAttestation

variable {keccak256 : Bytes → Bytes32} {toUtf8Bytes : JsString → Except JsString Bytes}
variable {e : Value} {es : List Value} {c : Core} {v : Validation}

section Pick

variable {fields optional : List String} {key : String} {w : Value}

theorem lookup_fields (ks : List String) : (ks.map fun k => (js k, w.get k)).lookup (js key) =
    if js key ∈ ks.map js then some (w.get key) else none := by
  induction ks
  case nil => rfl
  case cons k ks ih =>
    rw [List.map_cons, List.map_cons, List.lookup_cons, ih]
    by_cases hk : js key = js k
    case pos =>
      have hw : w.get k = w.get key := by
        cases w
        case object => rw [Value.get, Value.get, hk]
        all_goals rfl
      simp [hk, hw]
    case neg =>
      have : (js key == js k) = false := beq_false_of_ne hk
      simp [hk, this]

theorem get_pick (h : key ∈ fields ++ optional) : (pick fields optional w).get key = w.get key := by
  rw [pick, Value.get, lookup_fields]
  split_ifs with hk
  · rfl
  · refine (get_eq_undefined_of_has fun hh => hk ?_).symm
    refine List.mem_map_of_mem ?_
    rw [List.mem_append, List.mem_filter]
    exact List.mem_append.mp h |>.imp_right fun h => ⟨h, hh⟩

theorem has_congr {key' : String} (h : js key = js key') : w.has key = w.has key' := by
  cases w
  case object => rw [Value.has, Value.has, h]
  all_goals rfl

theorem has_pick (h : key ∈ optional) (hn : js key ∉ fields.map js) :
    (pick fields optional w).has key = w.has key := by
  have hm : js key ∈ (fields ++ optional.filter fun k => w.has k).map js ↔ w.has key := by
    rw [List.map_append, List.mem_append]
    constructor
    · rintro (hm | hm)
      · exact absurd hm hn
      · obtain ⟨k, hk, he⟩ := List.mem_map.mp hm
        exact has_congr he ▸ (List.mem_filter.mp hk).right
    · exact fun hw => .inr <| List.mem_map_of_mem <| List.mem_filter.mpr ⟨h, hw⟩
  rw [pick, Value.has, lookup_fields]
  split_ifs with hk
  · exact (hm.mp hk).symm
  · exact (Bool.eq_false_iff.mpr <| mt hm.mpr hk).symm

theorem known_pick : ∀ k ∈ ownKeys (pick fields optional w), k ∈ (fields ++ optional).map js := by
  intro k hk
  obtain ⟨_, hk⟩ := Option.isSome_iff_exists.mp <| mem_ownKeys.mp hk
  obtain ⟨key, hm, he⟩ := List.mem_map.mp <| Fields.mem_of_lookup hk
  obtain ⟨rfl, -⟩ := Prod.mk.inj he
  refine List.mem_map_of_mem ?_
  rw [List.mem_append, List.mem_filter] at hm
  exact List.mem_append.mpr <| hm.imp_right And.left

-- What is picked from the text of what is picked has the same text, if no optional field is `undefined`.
theorem tidy_pick_tidy
    (hu : ∀ key ∈ optional, w.has key → w.get key ≠ undefined) :
    tidy ownOrder (pick fields optional (tidy ownOrder (pick fields optional w))) =
      tidy ownOrder (pick fields optional w) := by
  have hg : ∀ key ∈ fields ++ optional,
      (tidy ownOrder (pick fields optional w)).get key = tidy ownOrder (w.get key) := fun key h => by
    rw [get_tidy ownOrder_perm, get_pick h]
  have hf : (optional.filter fun key => (tidy ownOrder (pick fields optional w)).has key) =
      optional.filter fun key => w.has key := by
    refine List.filter_congr fun key h => Bool.eq_iff_iff.mpr ?_
    rw [has_tidy ownOrder_perm, get_pick (List.mem_append_right _ h)]
    exact ⟨has_of_get, hu key h⟩
  have hm (ks : List String) (hk : ∀ key ∈ ks, key ∈ fields ++ optional) :
      tidyFields ownOrder (ks.map fun key => (js key, (tidy ownOrder (pick fields optional w)).get key)) =
        tidyFields ownOrder (ks.map fun key => (js key, w.get key)) := by
    rw [tidyFields_eq, tidyFields_eq, List.map_map, List.map_map]
    refine List.map_congr_left fun key h => ?_
    simp only [Function.comp_apply, hg key (hk key h)]
    rw [tidyField_congr <| tidy_ownOrder_self _]
  have hk : ∀ key ∈ fields ++ optional.filter fun key => w.has key, key ∈ fields ++ optional := by
    intro key h
    rw [List.mem_append, List.mem_filter] at h
    exact List.mem_append.mpr <| h.imp_right And.left
  rw [pick, hf, tidy, hm _ hk]
  rfl

theorem serializable_pick (h : ∀ key ∈ fields ++ optional, w.get key ≠ undefined → Serializable (w.get key)) :
    Serializable (pick fields optional w) := by
  refine .of_fields fun f hf hu => ?_
  obtain ⟨key, hm, rfl⟩ := List.mem_map.mp hf
  refine h key ?_ hu
  rw [List.mem_append, List.mem_filter] at hm
  exact List.mem_append.mpr <| hm.imp_right And.left

theorem ofDoubles_pick (h : OfDoubles w) : OfDoubles (pick fields optional w) := by
  refine .object fun f hf => ?_
  obtain ⟨key, -, rfl⟩ := List.mem_map.mp hf
  exact h.get key

end Pick

-- An event as it is sealed, with its `meta` as it is read back from the canonical text.
def canonOf (e : Value) (v : Validation) : Value :=
  object <| [
    (js "seq", e.get "seq"),
    (js "ts", e.get "ts"),
    (js "actor", e.get "actor"),
    (js "type", e.get "type")
  ] ++ (if v.redacted then [] else [(js "payload", e.get "payload")]) ++
    [(js "payloadHash", string v.payloadHash)] ++
    (if v.redacted then [(js "redacted", bool true)] else []) ++
    if v.metaJson.isSome then [(js "meta", tidy sortedOrder <| e.get "meta")] else []

section

variable {key : String}

theorem get_canonOf (hk : key ∈ ["seq", "ts", "actor", "type"]) : (canonOf e v).get key = e.get key := by
  simp only [List.mem_cons, List.not_mem_nil, or_false] at hk
  rcases hk with rfl | rfl | rfl | rfl <;> rfl

theorem has_payload_canonOf : (canonOf e v).has "payload" = !v.redacted := by
  rw [canonOf]
  cases v.redacted <;> cases v.metaJson.isSome <;> rfl

theorem has_redacted_canonOf : (canonOf e v).has "redacted" = v.redacted := by
  rw [canonOf]
  cases v.redacted <;> cases v.metaJson.isSome <;> rfl

theorem has_meta_canonOf : (canonOf e v).has "meta" = v.metaJson.isSome := by
  rw [canonOf]
  cases v.redacted <;> cases v.metaJson.isSome <;> rfl

theorem get_payload_canonOf (h : ¬ v.redacted) : (canonOf e v).get "payload" = e.get "payload" := by
  rw [canonOf, if_neg h]
  rfl

theorem get_payloadHash_canonOf : (canonOf e v).get "payloadHash" = string v.payloadHash := by
  rw [canonOf]
  cases v.redacted <;> rfl

theorem get_redacted_canonOf (h : v.redacted) : (canonOf e v).get "redacted" = bool true := by
  rw [canonOf, if_pos h, if_pos h]
  rfl

theorem get_meta_canonOf (h : v.metaJson.isSome) : (canonOf e v).get "meta" = tidy sortedOrder (e.get "meta") := by
  rw [canonOf, if_pos h]
  cases v.redacted <;> rfl

end

namespace Accepts

theorem sealEvent (a : Accepts keccak256 toUtf8Bytes e c v) (hd : OfDoubles e) :
    sealEvent keccak256 toUtf8Bytes e = .ok (canonOf e v) := by
  rw [AgentSession.sealEvent, validateEvent_eq_ok.mpr ⟨c, a⟩, Except.mapError, ok_bind, canonicalEvent, canonOf]
  cases hm : v.metaJson
  case none => simp
  case some t => simp [a.parse_metaJson hd hm]

-- A sealed event is accepted with the same result.
theorem canon (a : Accepts keccak256 toUtf8Bytes e c v) (hd : OfDoubles e) :
    Accepts keccak256 toUtf8Bytes (canonOf e v) c v := by
  have hr := a.redacted
  have hp : (canonOf e v).has "payload" = e.has "payload" := by
    rw [has_payload_canonOf, hr, Bool.not_not]
  have hm : (canonOf e v).has "meta" = e.has "meta" := has_meta_canonOf.trans a.metaJson_isSome
  have hc (h : e.has "meta") : canonicalMeta ((canonOf e v).get "meta") = canonicalMeta (e.get "meta") := by
    rw [get_meta_canonOf <| a.metaJson_isSome.trans h, canonicalMeta_tidy sortedOrder_perm <| a.strict_meta hd h]
  exact {
    isObject    := rfl
    known       := by
      rw [canonOf]
      refine subset_ownKeys ?_
      split_ifs <;> simp only [List.map_append, List.map_cons, List.map_nil] <;> decide
    seq         := by rw [get_canonOf (by decide), a.seq]
    seq_le      := a.seq_le
    ts          := by rw [get_canonOf (by decide), a.ts]
    actor       := by rw [get_canonOf (by decide), a.actor]
    actor_ne    := a.actor_ne
    type        := by rw [get_canonOf (by decide), a.type]
    type_mem    := a.type_mem
    redacted    := by rw [hp, hr]
    disclosed h := by
      rw [hp] at h
      rw [get_payload_canonOf (by simp [hr, h]), a.disclosed h]
    carried _   := ⟨_, get_payloadHash_canonOf, a.payloadHash_hex⟩
    flag h      := by
      rw [has_redacted_canonOf] at h
      rw [get_redacted_canonOf h, hp, ←hr, h]
    hidden h    := by
      rw [hp] at h
      have h : v.redacted := by simp [hr, h]
      exact ⟨has_of_get <| by rw [get_payloadHash_canonOf]; nofun, has_redacted_canonOf.trans h⟩
    metaJson    := by
      rw [hm, a.metaJson]
      split_ifs with h
      · exact (hc h).symm
      · rfl
    hasMeta h   := by
      rw [hm] at h
      rw [hc h]
      exact a.hasMeta h
  }

-- An event with the same fields is accepted with the same result.
theorem congr {e' : Value} (a : Accepts keccak256 toUtf8Bytes e c v) (ho : e'.isObject)
    (hk : ∀ k ∈ ownKeys e', k ∈ EVENT_FIELDS)
    (hg : ∀ key ∈ ["seq", "ts", "actor", "type", "payload", "payloadHash", "redacted", "meta"], e'.get key = e.get key)
    (hh : ∀ key ∈ ["payload", "payloadHash", "redacted", "meta"], e'.has key = e.has key) :
    Accepts keccak256 toUtf8Bytes e' c v := by
  simp only [List.forall_mem_cons, List.not_mem_nil, false_imp_iff, implies_true, and_true] at hg hh
  obtain ⟨g₁, g₂, g₃, g₄, g₅, g₆, g₇, g₈⟩ := hg
  obtain ⟨h₁, h₂, h₃, h₄⟩ := hh
  exact {
    isObject  := ho
    known     := hk
    seq       := g₁ ▸ a.seq
    seq_le    := a.seq_le
    ts        := g₂ ▸ a.ts
    actor     := g₃ ▸ a.actor
    actor_ne  := a.actor_ne
    type      := g₄ ▸ a.type
    type_mem  := a.type_mem
    redacted  := h₁ ▸ a.redacted
    disclosed := by rw [h₁, g₅]; exact a.disclosed
    carried   := by rw [h₂, g₆]; exact a.carried
    flag      := by rw [h₃, g₇, h₁]; exact a.flag
    hidden    := by rw [h₁, h₂, h₃]; exact a.hidden
    metaJson  := by rw [h₄, g₈]; exact a.metaJson
    hasMeta   := by rw [h₄, g₈]; exact a.hasMeta
  }

end Accepts

-- An event as it is written, and as it is read back.
def written (e : Value) : Value :=
  pick ["seq", "ts", "actor", "type"] ["payload", "payloadHash", "redacted", "meta"] e

def reread (e : Value) : Value :=
  tidy ownOrder (written e)

namespace Accepts

theorem written (a : Accepts keccak256 toUtf8Bytes e c v) : Accepts keccak256 toUtf8Bytes (written e) c v :=
  a.congr rfl (fun k hk => known_pick k hk) (fun _ h => get_pick h) fun _ h => has_pick h <| by
    revert h
    rename_i key
    revert key
    decide

theorem reread (a : Accepts keccak256 toUtf8Bytes e c v) (hd : OfDoubles e) :
    Accepts keccak256 toUtf8Bytes (reread e) c v :=
  a.written.tidy (ofDoubles_pick hd) ownOrder_perm

-- An event which is read back is written as before.
theorem tidy_written_reread (a : Accepts keccak256 toUtf8Bytes e c v) (hd : OfDoubles e) :
    Json.tidy ownOrder (AgentSession.written (AgentSession.reread e)) = AgentSession.reread e :=
  tidy_pick_tidy <| a.get_ne_undefined hd

-- A flag which is set says that the event is redacted.
theorem flag_iff (a : Accepts keccak256 toUtf8Bytes e c v) :
    (e.get "redacted").toBool? = some true ↔ ¬ e.has "payload" := by
  constructor
  · intro h hp
    rw [a.flag <| has_of_toBool? h, hp] at h
    simp [toBool?] at h
  · intro hp
    rw [a.flag (a.hidden hp).right]
    simp [hp, toBool?]

theorem packetEvent (a : Accepts keccak256 toUtf8Bytes e c v) : packetEvent e = .ok (AgentSession.written e) := by
  obtain ⟨fields, rfl⟩ := isObject_iff.mp a.isObject
  rfl

end Accepts

-- The events of the second list are accepted like those of the first one.
def Copies (keccak256 : Bytes → Bytes32) (toUtf8Bytes : JsString → Except JsString Bytes) : List Value → List Value → Prop :=
  List.Forall₂ fun e e' => ∃ c v, Accepts keccak256 toUtf8Bytes e c v ∧ Accepts keccak256 toUtf8Bytes e' c v

-- The positions of the events which are redacted.
def redactedFrom (i : ℕ) : List Value → List ℕ
  | []      => []
  | e :: es => if e.has "payload" then redactedFrom (i + 1) es else i :: redactedFrom (i + 1) es

namespace Copies

variable {es' : List Value}

theorem eventLeaf_eq (h : Copies keccak256 toUtf8Bytes es es') (he : Encodes toUtf8Bytes) :
    es'.map (eventLeaf keccak256 toUtf8Bytes) = es.map (eventLeaf keccak256 toUtf8Bytes) := by
  induction h
  case nil => rfl
  case cons h _ ih =>
    obtain ⟨c, v, a, a'⟩ := h
    rw [List.map_cons, List.map_cons, ih, a.eventLeaf he, a'.eventLeaf he]

theorem leafList_eq (h : Copies keccak256 toUtf8Bytes es es') (he : Encodes toUtf8Bytes) :
    leafList keccak256 toUtf8Bytes es' = leafList keccak256 toUtf8Bytes es := by
  rw [AgentSession.leafList_eq, AgentSession.leafList_eq, h.eventLeaf_eq he]

theorem isSession (h : Copies keccak256 toUtf8Bytes es es') (hs : IsSession keccak256 toUtf8Bytes es) :
    IsSession keccak256 toUtf8Bytes es' := by
  intro i hi
  have hi' : i < es.length := by rwa [h.length_eq]
  obtain ⟨c, v, a, a'⟩ := List.Forall₂.get h hi' hi
  obtain ⟨c', v', b, hc⟩ := hs i hi'
  refine ⟨c, v, a', ?_⟩
  have := a.seq.symm.trans b.seq
  rw [←hc]
  simpa using this

end Copies

theorem isHash_hexlify (w : Bytes32) : isHash (hexlify w) := by
  have hl : ∀ d < 16, (48 ≤ lowerDigit d ∧ lowerDigit d ≤ 57) ∨ (97 ≤ lowerDigit d ∧ lowerDigit d ≤ 102) := by
    decide
  have hd : (hexlify w).length = 66 := length_of_isHex32 (isHex32_hexlify w)
  rw [isHash, isLowerHex, decide_eq_true_eq, decide_eq_true_eq, List.all_eq_true]
  refine ⟨⟨List.take_left' (by decide), fun u hu => ?_⟩, hd⟩
  rw [drop_hexlify] at hu
  obtain ⟨d, hm, rfl⟩ := List.mem_map.mp hu
  exact decide_eq_true <| hl d <| Numeral.digits_lt (by omega) hm

theorem isCount_of {w : Value} {n : ℕ} (h : w.toInt? = some (n : ℤ)) (hn : n ≤ MAX_SAFE_INTEGER) : isCount w := by
  rw [isCount, h, Option.any_some]
  simpa using hn

theorem forM_eq_ok {f : α → Except JsString Unit} {l : List α} (h : ∀ a ∈ l, f a = .ok ()) : l.forM f = .ok () := by
  induction l
  case nil => rfl
  case cons a l ih =>
    have ⟨ha, h⟩ := List.forall_mem_cons.mp h
    change (f a >>= fun _ => l.forM f) = .ok ()
    rw [ha, ok_bind, ih h]

theorem unknownKey_isNone {known : List JsString} {obj : Value} (h : ∀ k ∈ ownKeys obj, k ∈ known) :
    (unknownKey known obj).isNone := by
  rw [unknownKey, Option.isNone_iff_eq_none, List.find?_eq_none]
  simpa using h

-- The number of the events which are redacted.
def redactedCount (es : List Value) : ℕ :=
  (redactedFrom 0 es).length

theorem redactedFrom_length_le (i : ℕ) (es : List Value) : (redactedFrom i es).length ≤ es.length := by
  induction es generalizing i
  case nil => exact le_rfl
  case cons e es ih =>
    rw [redactedFrom]
    split_ifs
    · exact (ih _).trans <| Nat.le_succ _
    · exact Nat.succ_le_succ <| ih _

-- A value which is a packet for a session, apart from the events in it.
structure IsPacket (keccak256 : Bytes → Bytes32) (toUtf8Bytes : JsString → Except JsString Bytes) (es : List Value)
    (p : Value) : Prop where
  isObject : p.isObject
  closed   : ∀ k ∈ ownKeys p, k ∈ PACKET_FIELDS
  kind     : (p.get "kind").toString? = some PACKET_KIND
  version  : (p.get "schemaVersion").toInt? = some ((1 : ℕ) : ℤ)
  note     : (p.get "note").toString? = some AGENT_TRUST_NOTE
  head     : (p.get "head").isObject ∧ ∀ k ∈ ownKeys (p.get "head"), k ∈ HEAD_FIELDS
  size     : ((p.get "head").get "size").toInt? = some (es.length : ℤ)
  root     : ((p.get "head").get "root").toString? = some (mth keccak256 <| leafList keccak256 toUtf8Bytes es)
  counts   : (p.get "counts").isObject ∧ ∀ k ∈ ownKeys (p.get "counts"), k ∈ COUNT_FIELDS
  events   : ((p.get "counts").get "events").toInt? = some (es.length : ℤ)
  full     : ((p.get "counts").get "full").toInt? = some ((es.length - redactedCount es : ℕ) : ℤ)
  redacted : ((p.get "counts").get "redacted").toInt? = some (redactedCount es : ℤ)
  leaves   : p.get "leaves" = ofStrings (leafList keccak256 toUtf8Bytes es)
  unsigned : p.get "headAttestation" = undefined

namespace IsSession

variable (hs : IsSession keccak256 toUtf8Bytes es) (he : Encodes toUtf8Bytes)

include hs he

theorem isHash_leafList : ∀ leaf ∈ leafList keccak256 toUtf8Bytes es, isHash leaf := by
  intro leaf hl
  obtain ⟨e, h, rfl⟩ := List.mem_map.mp hl
  obtain ⟨c, v, a⟩ := hs.exists_of_mem h
  rw [a.eventLeaf he]
  exact isHash_hexlify _

theorem isHash_root : isHash (mth keccak256 <| leafList keccak256 toUtf8Bytes es) := by
  rw [mth_eq <| hs.isHex32_leafList he]
  exact isHash_hexlify _

end IsSession

namespace IsPacket

variable {p : Value} {es' : List Value} {syntaxError : JsString → JsString}
variable (hp : IsPacket keccak256 toUtf8Bytes es p) (hs : IsSession keccak256 toUtf8Bytes es) (he : Encodes toUtf8Bytes)
variable (hl : es.length < 2 ^ 32) (hes : p.get "events" = .array es') (hc : Copies keccak256 toUtf8Bytes es es')

include hp hs he hl

theorem validateHeadShape : validateHeadShape (p.get "head") label = .ok () := by
  have hn : es.length ≤ MAX_SAFE_INTEGER := hl.le.trans (by decide)
  simp only [AgentSession.validateHeadShape, bind_eq_ok, require_eq_ok, exists_const]
  refine ⟨hp.head.left, unknownKey_isNone hp.head.right, isCount_of hp.size hn, ?_⟩
  rw [hp.root, Option.any_some]
  exact hs.isHash_root he

include hes hc in
theorem validatePacketShape : validatePacketShape syntaxError p = .ok () := by
  have hn : es.length ≤ MAX_SAFE_INTEGER := hl.le.trans (by decide)
  have hr : redactedCount es ≤ es.length := redactedFrom_length_le 0 es
  have hlen : es'.length = es.length := hc.length_eq.symm
  have hleaf : (elems? <| p.get "leaves").filter (fun leaves => leaves.length = es'.length) =
      some ((leafList keccak256 toUtf8Bytes es).map string) := by
    rw [hp.leaves, ofStrings, elems?]
    simp [leafList, hlen]
  have hcount : ["events", "full", "redacted"].forM (validateCount <| p.get "counts") = .ok () := by
    refine forM_eq_ok ?_
    simp only [List.forall_mem_cons, List.not_mem_nil, false_imp_iff, implies_true, and_true, validateCount,
      require_eq_ok]
    exact ⟨isCount_of hp.events hn, isCount_of hp.full (by omega), isCount_of hp.redacted (by omega)⟩
  have hleaves : (((leafList keccak256 toUtf8Bytes es).map string).zipIdx.forM fun l => validateLeaf l.fst l.snd) =
      .ok () := by
    refine forM_eq_ok fun l hm => ?_
    obtain ⟨leaf, hm, he'⟩ := List.mem_map.mp <| List.fst_mem_of_mem_zipIdx hm
    rw [validateLeaf, require_eq_ok, ←he', toString?, Option.any_some]
    exact hs.isHash_leafList he leaf hm
  have hsum : ((p.get "counts").get "full").toInt?.getD 0 + ((p.get "counts").get "redacted").toInt?.getD 0 =
      (es'.length : ℤ) := by
    rw [hp.full, hp.redacted, Option.getD_some, Option.getD_some, hlen]
    omega
  simp only [AgentSession.validatePacketShape, bind_eq_ok, require_eq_ok, demand_eq_ok, exists_const]
  refine ⟨hp.isObject, unknownKey_isNone hp.closed, hp.kind, ?_, hp.note, (), hp.validateHeadShape hs he hl,
    hp.counts.left, unknownKey_isNone hp.counts.right, (), hcount, es', ?_, _, hleaf, (), hleaves,
    hlen ▸ hp.size, ⟨hlen ▸ hp.events, hsum⟩, ?_⟩
  · simp [supports, hp.version]
  · rw [hes, elems?]
  · rw [hp.unsigned]
    rfl

end IsPacket

-- The object whose text is written for a packet.
def outOf (p : Value) (es' : List Value) : Value :=
  object [
    (js "kind", p.get "kind"),
    (js "schemaVersion", p.get "schemaVersion"),
    (js "note", p.get "note"),
    (js "head", pick ["size", "root"] [] <| p.get "head"),
    (js "counts", pick ["events", "full", "redacted"] [] <| p.get "counts"),
    (js "events", array <| es'.map written),
    (js "leaves", p.get "leaves")
  ]

theorem subset_keys {fields : List (JsString × Value)} {known : List JsString}
    (h : ∀ k ∈ fields.map Prod.fst, k ∈ known) : ∀ k ∈ ownKeys (object fields), k ∈ known := by
  intro k hk
  obtain ⟨_, hk⟩ := Option.isSome_iff_exists.mp <| mem_ownKeys.mp hk
  exact h k <| List.mem_map_of_mem <| Fields.mem_of_lookup hk

theorem ownKeys_tidy {order : List JsString → List JsString} (ho : ∀ ks, (order ks).Perm ks) {w : Value}
    (h : k ∈ ownKeys (tidy order w)) : k ∈ ownKeys w := by
  cases w
  case number n => cases n <;> simp [tidy, ownKeys] at h
  case object fields =>
    rw [tidy, mem_ownKeys, Fields.lookup_arrange ho, tidyFields_eq, Fields.lookup_map] at h
    refine mem_ownKeys.mpr ?_
    cases hl : fields.lookup k
    case none => simp [hl] at h
    case some => rfl
  all_goals simp [tidy, ownKeys] at h

theorem ofDoubles_elems {w : Value} (h : OfDoubles w) (hw : w = array es) : ∀ e ∈ es, OfDoubles e := by
  subst hw
  cases h
  assumption

theorem tidy_ofStrings {order : List JsString → List JsString} (ss : List JsString) :
    tidy order (ofStrings ss) = ofStrings ss := by
  rw [ofStrings, tidy, tidyElems_eq, List.map_map]
  congr 1

theorem serializable_of_toString? {w : Value} (h : w.toString? = some s) : Serializable w := by
  rw [toString?_eq_some.mp h]
  exact .string

theorem Copies.reread {es' : List Value} (h : Copies keccak256 toUtf8Bytes es es') (hd : ∀ e ∈ es', OfDoubles e) :
    Copies keccak256 toUtf8Bytes es (es'.map reread) := by
  induction h
  case nil => exact .nil
  case cons h _ ih =>
    have ⟨hd, ht⟩ := List.forall_mem_cons.mp hd
    obtain ⟨c, v, a, a'⟩ := h
    exact .cons ⟨c, v, a, a'.reread hd⟩ (ih ht)

theorem Copies.accepts {es' : List Value} (h : Copies keccak256 toUtf8Bytes es es') (hm : e ∈ es') :
    ∃ c v, Accepts keccak256 toUtf8Bytes e c v := by
  induction h
  case nil => simp at hm
  case cons h _ ih =>
    obtain ⟨c, v, _, a'⟩ := h
    cases hm
    case head => exact ⟨c, v, a'⟩
    case tail hm => exact ih hm

namespace IsPacket

variable {p : Value} {es' : List Value} {syntaxError : JsString → JsString}
variable (hp : IsPacket keccak256 toUtf8Bytes es p) (hd : OfDoubles p)
variable (hes : p.get "events" = .array es') (hc : Copies keccak256 toUtf8Bytes es es')

include hp hd hes hc

theorem serializable : Serializable (outOf p es') := by
  have hhead : Serializable (pick ["size", "root"] [] <| p.get "head") := by
    refine serializable_pick ?_
    simp only [List.append_nil, List.forall_mem_cons, List.not_mem_nil, false_imp_iff, implies_true, and_true]
    exact ⟨fun _ => serializable_of_toInt? ((hd.get _).get _) hp.size, fun _ => serializable_of_toString? hp.root⟩
  have hcounts : Serializable (pick ["events", "full", "redacted"] [] <| p.get "counts") := by
    refine serializable_pick ?_
    simp only [List.append_nil, List.forall_mem_cons, List.not_mem_nil, false_imp_iff, implies_true, and_true]
    exact ⟨fun _ => serializable_of_toInt? ((hd.get _).get _) hp.events,
      fun _ => serializable_of_toInt? ((hd.get _).get _) hp.full,
      fun _ => serializable_of_toInt? ((hd.get _).get _) hp.redacted⟩
  have hevents : Serializable (array <| es'.map written) := by
    refine .array fun w hw => ?_
    obtain ⟨e, hm, rfl⟩ := List.mem_map.mp hw
    obtain ⟨c, v, a⟩ := hc.accepts hm
    exact a.written.serializable <| ofDoubles_pick <| ofDoubles_elems (hd.get "events") hes e hm
  have hleaves : Serializable (p.get "leaves") := by
    rw [hp.leaves, ofStrings]
    refine .array fun w hw => ?_
    obtain ⟨s, -, rfl⟩ := List.mem_map.mp hw
    exact .string
  refine .of_fields ?_
  simp only [List.forall_mem_cons, List.not_mem_nil, false_imp_iff, implies_true, and_true]
  exact ⟨fun _ => serializable_of_toString? hp.kind, fun _ => serializable_of_toInt? (hd.get _) hp.version,
    fun _ => serializable_of_toString? hp.note, fun _ => hhead, fun _ => hcounts, fun _ => hevents, fun _ => hleaves⟩

-- The text of a packet.
theorem serializePacket (hs : IsSession keccak256 toUtf8Bytes es) (he : Encodes toUtf8Bytes) (hl : es.length < 2 ^ 32) :
    serializePacket syntaxError p = .ok (render (tidy ownOrder <| outOf p es') ++ js "\n") := by
  have hm : es'.mapM packetEvent = .ok (es'.map written) := mapM_eq_ok fun e h => by
    obtain ⟨c, v, a⟩ := hc.accepts h
    exact a.packetEvent
  have hu : packetAttestation (p.get "headAttestation") = [] := by
    rw [hp.unsigned]
    rfl
  rw [AgentSession.serializePacket, hp.validatePacketShape hs he hl hes hc, ok_bind, hes, elems?, Option.getD_some, hm,
    ok_bind, hu, List.append_nil]
  change Except.ok ((stringify <| outOf p es').getD [] ++ js "\n") = _
  rw [stringify_eq <| hp.serializable hd hes hc, Option.getD_some]

omit hd hes hc in
-- A packet which is read back is one for the same session.
theorem reread : IsPacket keccak256 toUtf8Bytes es (tidy ownOrder <| outOf p es') := by
  have hg (key : String) : (tidy ownOrder <| outOf p es').get key = tidy ownOrder ((outOf p es').get key) :=
    get_tidy ownOrder_perm key
  have hhead : (outOf p es').get "head" = pick ["size", "root"] [] (p.get "head") := rfl
  have hcounts : (outOf p es').get "counts" = pick ["events", "full", "redacted"] [] (p.get "counts") := rfl
  have ht (w : Value) (key : String) : (tidy ownOrder w).get key = tidy ownOrder (w.get key) :=
    get_tidy ownOrder_perm key
  exact {
    isObject := by rw [isObject_tidy]; rfl
    closed k hk := by
      revert hk
      refine fun hk => subset_keys ?_ k <| ownKeys_tidy ownOrder_perm hk
      simp only [List.map_cons, List.map_nil]
      decide
    kind     := by rw [hg, toString?_tidy]; exact hp.kind
    version  := by rw [hg, toInt?_tidy]; exact hp.version
    note     := by rw [hg, toString?_tidy]; exact hp.note
    head     := by
      rw [hg, hhead]
      exact ⟨by rw [isObject_tidy]; rfl, fun k hk => known_pick k <| ownKeys_tidy ownOrder_perm hk⟩
    size     := by rw [hg, hhead, ht, get_pick (by decide), toInt?_tidy, hp.size]
    root     := by rw [hg, hhead, ht, get_pick (by decide), toString?_tidy, hp.root]
    counts   := by
      rw [hg, hcounts]
      exact ⟨by rw [isObject_tidy]; rfl, fun k hk => known_pick k <| ownKeys_tidy ownOrder_perm hk⟩
    events   := by rw [hg, hcounts, ht, get_pick (by decide), toInt?_tidy, hp.events]
    full     := by rw [hg, hcounts, ht, get_pick (by decide), toInt?_tidy, hp.full]
    redacted := by rw [hg, hcounts, ht, get_pick (by decide), toInt?_tidy, hp.redacted]
    leaves   := by
      rw [hg, show (outOf p es').get "leaves" = p.get "leaves" from rfl, hp.leaves, tidy_ofStrings]
    unsigned := by
      rw [hg]
      exact tidy_undefined
  }

omit hp in
-- It is written as before.
theorem outOf_reread : tidy ownOrder (outOf (tidy ownOrder <| outOf p es') (es'.map AgentSession.reread)) =
    tidy ownOrder (outOf p es') := by
  have hg (key : String) : (tidy ownOrder <| outOf p es').get key = tidy ownOrder ((outOf p es').get key) :=
    get_tidy ownOrder_perm key
  have hf {v w : Value} (h : tidy ownOrder v = tidy ownOrder w) : tidyField ownOrder v = tidyField ownOrder w :=
    tidyField_congr h
  have hevents : tidy ownOrder (array <| (es'.map AgentSession.reread).map written) =
      tidy ownOrder (array <| es'.map written) := by
    simp only [tidy, tidyElems_eq, List.map_map, Value.array.injEq]
    refine List.map_congr_left fun e hm => ?_
    obtain ⟨c, v, a⟩ := hc.accepts hm
    exact a.tidy_written_reread <| ofDoubles_elems (hd.get "events") hes e hm
  rw [outOf, hg, hg, hg, hg, hg, hg, tidy, tidyFields_eq]
  simp only [List.map_cons, List.map_nil, hf hevents, hf <| tidy_ownOrder_self _]
  rw [show (outOf p es').get "head" = pick ["size", "root"] [] (p.get "head") from rfl,
    show (outOf p es').get "counts" = pick ["events", "full", "redacted"] [] (p.get "counts") from rfl,
    hf <| tidy_pick_tidy (by simp), hf <| tidy_pick_tidy (by simp), outOf, tidy, tidyFields_eq]
  rfl

end IsPacket

-- The sequence numbers of the redacted events are their positions.
theorem Copies.withheld_eq {es' : List Value} (h : Copies keccak256 toUtf8Bytes es es')
    (hs : ∀ (j : ℕ) (h : j < es.length), ∃ c v, Accepts keccak256 toUtf8Bytes es[j] c v ∧ c.seq = i + j)
    (hn : ∀ e ∈ es', ∀ n : ℕ, (e.get "seq").toInt? = some (n : ℤ) → e.get "seq" = nat n) :
    ((es'.filter fun e => (e.get "redacted").toBool? = some true).map fun e => e.get "seq") =
      (redactedFrom i es).map nat := by
  induction h generalizing i
  case nil => rfl
  case cons e e' es es' h _ ih =>
    have ⟨hn, ht⟩ := List.forall_mem_cons.mp hn
    obtain ⟨c, v, a, a'⟩ := h
    have ih := ih (i := i + 1) (fun j hj => by
      obtain ⟨c, v, a, hq⟩ := hs (j + 1) (by simpa using hj)
      exact ⟨c, v, a, by omega⟩) ht
    have hseq : c.seq = i := by
      obtain ⟨c', v', b, hq⟩ := hs 0 (by simp)
      have := a.seq.symm.trans b.seq
      rw [hq, Nat.add_zero] at this
      simpa using this
    have hp : e'.has "payload" = e.has "payload" := by
      have := a.redacted.symm.trans a'.redacted
      simpa using this.symm
    rw [redactedFrom, List.filter_cons]
    by_cases he : e.has "payload"
    case pos =>
      have hf : ¬ (e'.get "redacted").toBool? = some true := fun h => a'.flag_iff.mp h (hp.trans he)
      rw [if_pos he, if_neg (by simpa using hf), ih]
    case neg =>
      have hf : (e'.get "redacted").toBool? = some true := a'.flag_iff.mpr (by rwa [hp])
      rw [if_neg he, if_pos (by simpa using hf), List.map_cons, List.map_cons, ih, hn i (hseq ▸ a'.seq)]

theorem tidy_of_toInt? {order : List JsString → List JsString} {w : Value} {n : ℕ}
    (h : w.toInt? = some (n : ℤ)) : tidy order w = nat n := by
  cases w
  case number k =>
    rcases k with _ | _ | _ | q
    case negZero =>
      obtain rfl : n = 0 := by simpa [toInt?, Number.toInt?, eq_comm] using h
      simp [tidy, nat, Number.ofNat]
    case finite =>
      simp only [toInt?, Number.toInt?] at h
      split_ifs at h with hq
      have : (n : ℚ) = q := by
        rw [←Rat.num_div_den q, hq, Option.some.inj h]
        simp
      rw [nat, Number.ofNat, this]
      rfl
    all_goals simp [toInt?, Number.toInt?] at h
  all_goals simp [toInt?] at h

theorem seq_reread {es' : List Value} : ∀ e ∈ es'.map reread, ∀ n : ℕ,
    (e.get "seq").toInt? = some (n : ℤ) → e.get "seq" = nat n := by
  intro e hm n h
  obtain ⟨e, -, rfl⟩ := List.mem_map.mp hm
  rw [reread, get_tidy ownOrder_perm] at h ⊢
  rw [toInt?_tidy] at h
  exact tidy_of_toInt? h

theorem Copies.leafMismatch {es' : List Value} (h : Copies keccak256 toUtf8Bytes es es') (he : Encodes toUtf8Bytes) :
    leafMismatch keccak256 toUtf8Bytes es' ((leafList keccak256 toUtf8Bytes es).map string) = none := by
  rw [AgentSession.leafMismatch, List.findIdx?_eq_none_iff]
  intro x hx
  obtain ⟨e, i⟩ := x
  obtain ⟨hi, hx⟩ := List.mem_zipIdx' hx
  obtain ⟨c, v, a⟩ := h.accepts <| List.getElem_mem hi
  have hl : i < (leafList keccak256 toUtf8Bytes es').length := by simpa [leafList] using hi
  have hg : ((leafList keccak256 toUtf8Bytes es).map string).getD i undefined = string (leafOf keccak256 c v) := by
    rw [←h.leafList_eq he, List.getD_eq_getElem?_getD, List.getElem?_map, List.getElem?_eq_getElem hl,
      IsSession.getElem_leafList he hi hl a]
    rfl
  simp only [hx, a.eventLeaf he, hg, toString?, Option.isNone_some, Bool.false_eq_true, ne_eq, not_true_eq_false, or_self,
    decide_false]

-- A packet whose events are copies of those of the session is accepted.
theorem IsPacket.verifyPacket {p : Value} {es' : List Value} {syntaxError : JsString → JsString}
    {verifyMessage : JsString → JsString → Option JsString} {getAddress : JsString → Option JsString}
    (hp : IsPacket keccak256 toUtf8Bytes es p) (hs : IsSession keccak256 toUtf8Bytes es) (he : Encodes toUtf8Bytes)
    (hes : p.get "events" = .array es') (hc : Copies keccak256 toUtf8Bytes es es')
    (hn : ∀ e ∈ es', ∀ n : ℕ, (e.get "seq").toInt? = some (n : ℤ) → e.get "seq" = nat n) :
    verifyPacket keccak256 toUtf8Bytes verifyMessage getAddress syntaxError p none = .ok {
      size      := nat es.length
      root      := string <| mth keccak256 <| leafList keccak256 toUtf8Bytes es
      events    := es.length
      full      := es.length - redactedCount es
      redacted  := redactedCount es
      withheld  := (redactedFrom 0 es).map nat
      signed    := false
      signature := none
    } := by
  have hs' := hc.isSession hs
  have hv := validateSession_eq_ok.mpr ⟨rfl, hs'⟩
  have hh := hs'.sessionHead_eq he
  have hlen : es'.length = es.length := hc.length_eq.symm
  have hw := hc.withheld_eq (i := 0) (fun j h => by simpa using hs j h) hn
  have hleaves : (elems? <| p.get "leaves").getD [] = (leafList keccak256 toUtf8Bytes es).map string := by
    rw [hp.leaves]
    rfl
  have hsize : (headOf keccak256 toUtf8Bytes es').get "size" = nat es.length := by
    rw [←hlen]
    rfl
  have hroot : (headOf keccak256 toUtf8Bytes es').get "root" =
      string (mth keccak256 <| leafList keccak256 toUtf8Bytes es) := by
    rw [←hc.leafList_eq he]
    rfl
  have hevents : elems? (array es') = some es' := rfl
  have htext : (string <| mth keccak256 <| leafList keccak256 toUtf8Bytes es).toString? =
      some (mth keccak256 <| leafList keccak256 toUtf8Bytes es) := rfl
  rw [AgentSession.verifyPacket]
  simp only [hes, hv, hh, Except.mapError, ok_bind, hevents, Option.getD_some, hleaves, hc.leafMismatch he, hsize, hroot,
    hp.size, hp.root, hw, hlen, hp.full, hp.redacted, hp.unsigned, toInt?_nat, htext, List.length_map]
  simp [redactedCount, verifyHead, isUndefined]

-- The event as it is sealed, if it is accepted.
def sealed (keccak256 : Bytes → Bytes32) (toUtf8Bytes : JsString → Except JsString Bytes) (e : Value) : Value :=
  (sealEvent keccak256 toUtf8Bytes e).toOption.getD e

theorem Accepts.sealed (a : Accepts keccak256 toUtf8Bytes e c v) (hd : OfDoubles e) :
    sealed keccak256 toUtf8Bytes e = canonOf e v := by
  rw [AgentSession.sealed, a.sealEvent hd]
  rfl

theorem Accepts.ofDoubles_canon (a : Accepts keccak256 toUtf8Bytes e c v) (hd : OfDoubles e) :
    OfDoubles (canonOf e v) := by
  have hm (h : v.metaJson.isSome) : OfDoubles (Json.tidy sortedOrder <| e.get "meta") :=
    plain_ofDoubles <| plain_tidy sortedOrder_perm (a.strict_meta hd <| a.metaJson_isSome.symm.trans h).serializable
  have hb : OfDoubles (bool true) := .bool
  have hs : OfDoubles (string v.payloadHash) := .string
  refine .object ?_
  simp only [List.forall_mem_append, List.forall_mem_cons, List.not_mem_nil, false_imp_iff, implies_true, and_true]
  refine ⟨⟨⟨⟨⟨hd.get _, hd.get _, hd.get _, hd.get _⟩, ?_⟩, hs⟩, ?_⟩, ?_⟩
  · intro f hf
    split_ifs at hf
    · simp at hf
    · obtain rfl := List.mem_singleton.mp hf
      exact hd.get _
  · intro f hf
    split_ifs at hf
    · obtain rfl := List.mem_singleton.mp hf
      exact hb
    · simp at hf
  · intro f hf
    split_ifs at hf with h
    · obtain rfl := List.mem_singleton.mp hf
      exact hm h
    · simp at hf

-- The packet which is built for a session.
def packetOf (keccak256 : Bytes → Bytes32) (toUtf8Bytes : JsString → Except JsString Bytes) (es : List Value) : Value :=
  object [
    (js "kind", string PACKET_KIND),
    (js "schemaVersion", nat 1),
    (js "note", string AGENT_TRUST_NOTE),
    (js "head", object [
      (js "size", nat es.length),
      (js "root", string <| mth keccak256 <| leafList keccak256 toUtf8Bytes es)
    ]),
    (js "counts", object [
      (js "events", nat es.length),
      (js "full", nat <| es.length - redactedCount es),
      (js "redacted", nat <| redactedCount es)
    ]),
    (js "events", array <| es.map <| sealed keccak256 toUtf8Bytes),
    (js "leaves", ofStrings <| leafList keccak256 toUtf8Bytes es)
  ]

namespace IsSession

variable (hs : IsSession keccak256 toUtf8Bytes es) (hd : ∀ e ∈ es, OfDoubles e)

include hs hd

theorem copies_sealed : Copies keccak256 toUtf8Bytes es (es.map <| sealed keccak256 toUtf8Bytes) := by
  rw [Copies, List.forall₂_map_right_iff, List.forall₂_same]
  intro e hm
  obtain ⟨c, v, a⟩ := hs.exists_of_mem hm
  exact ⟨c, v, a, a.sealed (hd e hm) ▸ a.canon (hd e hm)⟩

theorem length_redacted :
    ((es.map <| sealed keccak256 toUtf8Bytes).filter fun c => c.has "redacted").length = redactedCount es := by
  have hr (i : ℕ) : ∀ es : List Value, (∀ e ∈ es, ∃ c v, Accepts keccak256 toUtf8Bytes e c v ∧ OfDoubles e) →
      ((es.map <| sealed keccak256 toUtf8Bytes).filter fun c => c.has "redacted").length = (redactedFrom i es).length := by
    intro es
    induction es generalizing i
    case nil => exact fun _ => rfl
    case cons e es ih =>
      intro h
      have ⟨⟨c, v, a, hd⟩, ht⟩ := List.forall_mem_cons.mp h
      have hh : (sealed keccak256 toUtf8Bytes e).has "redacted" = !e.has "payload" := by
        rw [a.sealed hd, has_redacted_canonOf, a.redacted]
      rw [List.map_cons, List.filter_cons, hh, redactedFrom]
      cases e.has "payload"
      case true  => simpa using ih (i + 1) ht
      case false => simpa using ih (i + 1) ht
  refine hr 0 es fun e hm => ?_
  obtain ⟨c, v, a⟩ := hs.exists_of_mem hm
  exact ⟨c, v, a, hd e hm⟩

theorem buildPacket (he : Encodes toUtf8Bytes) :
    buildPacket keccak256 toUtf8Bytes (.array es) = .ok (packetOf keccak256 toUtf8Bytes es) := by
  have hc := hs.copies_sealed hd
  have hv := validateSession_eq_ok.mpr ⟨rfl, hs⟩
  have hm : es.mapM (sealEvent keccak256 toUtf8Bytes) = .ok (es.map <| sealed keccak256 toUtf8Bytes) := by
    refine mapM_eq_ok fun e h => ?_
    obtain ⟨c, v, a⟩ := hs.exists_of_mem h
    rw [a.sealEvent <| hd e h, a.sealed <| hd e h]
  have hh := (hc.isSession hs).sessionHead_eq he
  have hl : (es.map <| sealed keccak256 toUtf8Bytes).map (fun c => (eventLeaf keccak256 toUtf8Bytes c).elim null string) =
      (leafList keccak256 toUtf8Bytes es).map string := by
    rw [←hc.leafList_eq he, leafList]
    refine (List.map_congr_left fun e h => ?_).trans List.map_map.symm
    obtain ⟨c, v, a⟩ := hc.accepts h
    simp [a.eventLeaf he]
  have hsize : (headOf keccak256 toUtf8Bytes <| es.map <| sealed keccak256 toUtf8Bytes).get "size" = nat es.length := by
    rw [←List.length_map (f := sealed keccak256 toUtf8Bytes)]
    rfl
  have hroot : (headOf keccak256 toUtf8Bytes <| es.map <| sealed keccak256 toUtf8Bytes).get "root" =
      string (mth keccak256 <| leafList keccak256 toUtf8Bytes es) := by
    rw [←hc.leafList_eq he]
    rfl
  have hevents : elems? (array es) = some es := rfl
  rw [AgentSession.buildPacket, hv]
  simp only [Except.mapError, ok_bind, hevents, Option.getD_some, hm, hh, hl, hsize, hroot, List.length_map,
    hs.length_redacted hd]
  rfl

omit hs hd in
theorem isPacket_packetOf : IsPacket keccak256 toUtf8Bytes es (packetOf keccak256 toUtf8Bytes es) where
  isObject := rfl
  closed   := by
    refine subset_keys ?_
    simp only [List.map_cons, List.map_nil]
    decide
  kind     := rfl
  version  := toInt?_nat
  note     := rfl
  head     := ⟨rfl, subset_keys <| by simp only [List.map_cons, List.map_nil]; decide⟩
  size     := toInt?_nat
  root     := rfl
  counts   := ⟨rfl, subset_keys <| by simp only [List.map_cons, List.map_nil]; decide⟩
  events   := toInt?_nat
  full     := toInt?_nat
  redacted := toInt?_nat
  leaves   := rfl
  unsigned := rfl

theorem ofDoubles_packetOf (hl : es.length < 2 ^ 32) : OfDoubles (packetOf keccak256 toUtf8Bytes es) := by
  have hn {n : ℕ} (h : n ≤ es.length) : OfDoubles (nat n) :=
    plain_ofDoubles <| .number <| Double.isDouble_natCast <| by omega
  have h₁ : OfDoubles (nat 1) := plain_ofDoubles <| .number <| Double.isDouble_natCast <| by decide
  have hr : redactedCount es ≤ es.length := redactedFrom_length_le 0 es
  have hevents : OfDoubles (array <| es.map <| sealed keccak256 toUtf8Bytes) := by
    refine .array fun w hw => ?_
    obtain ⟨e, hm, rfl⟩ := List.mem_map.mp hw
    obtain ⟨c, v, a⟩ := hs.exists_of_mem hm
    rw [a.sealed (hd e hm)]
    exact a.ofDoubles_canon (hd e hm)
  have hleaves : OfDoubles (ofStrings <| leafList keccak256 toUtf8Bytes es) := by
    refine .array fun w hw => ?_
    obtain ⟨s, -, rfl⟩ := List.mem_map.mp hw
    exact .string
  have hhead : OfDoubles (object [
      (js "size", nat es.length),
      (js "root", string <| mth keccak256 <| leafList keccak256 toUtf8Bytes es)
    ]) := by
    refine .object ?_
    simp only [List.forall_mem_cons, List.not_mem_nil, false_imp_iff, implies_true, and_true]
    exact ⟨hn le_rfl, .string⟩
  have hcounts : OfDoubles (object [
      (js "events", nat es.length),
      (js "full", nat <| es.length - redactedCount es),
      (js "redacted", nat <| redactedCount es)
    ]) := by
    refine .object ?_
    simp only [List.forall_mem_cons, List.not_mem_nil, false_imp_iff, implies_true, and_true]
    exact ⟨hn le_rfl, hn (by omega), hn hr⟩
  refine .object ?_
  simp only [List.forall_mem_cons, List.not_mem_nil, false_imp_iff, implies_true, and_true]
  exact ⟨.string, h₁, .string, hhead, hcounts, hevents, hleaves⟩

end IsSession

theorem buildPacket_eq_ok (he : Encodes toUtf8Bytes) (hd : ∀ e ∈ es, OfDoubles e) :
    buildPacket keccak256 toUtf8Bytes (.array es) = .ok p ↔
      IsSession keccak256 toUtf8Bytes es ∧ p = packetOf keccak256 toUtf8Bytes es := by
  constructor
  case mp =>
    intro h
    have hs : IsSession keccak256 toUtf8Bytes es := by
      cases hv : validateSession keccak256 toUtf8Bytes (.array es)
      case error => simp [AgentSession.buildPacket, hv, Except.mapError] at h
      case ok n  => exact (validateSession_eq_ok.mp hv).right
    rw [hs.buildPacket hd he] at h
    exact ⟨hs, (Except.ok.inj h).symm⟩
  case mpr =>
    rintro ⟨hs, rfl⟩
    exact hs.buildPacket hd he

-- A packet survives its file form: it is written, read back with a valid shape, accepted with the head of
-- the session and the positions of the redacted events, and written as before. A packet of the session in
-- which events are redacted has the same head and the same leaves.
structure Survives (keccak256 : Bytes → Bytes32) (toUtf8Bytes : JsString → Except JsString Bytes)
    (verifyMessage : JsString → JsString → Option JsString) (getAddress : JsString → Option JsString)
    (syntaxError : JsString → JsString) (es : List Value) (packet : Value) (text : JsString) (parsed : Value)
    (r : Acceptance) : Prop where
  written   : serializePacket syntaxError packet = .ok text
  read      : parse text = some parsed
  shape     : validatePacketShape syntaxError parsed = .ok ()
  accepted  : verifyPacket keccak256 toUtf8Bytes verifyMessage getAddress syntaxError parsed none = .ok r
  head      : ∃ head, sessionHead keccak256 toUtf8Bytes (.array es) = .ok head ∧
    r.size = head.get "size" ∧ r.root = head.get "root"
  withheld  : r.withheld = (redactedFrom 0 es).map nat
  rewritten : serializePacket syntaxError parsed = .ok text
  redacted  : ∀ subset, ∃ packet',
    buildPacket keccak256 toUtf8Bytes (.array <| redactAt keccak256 toUtf8Bytes subset es) = .ok packet' ∧
    packet'.get "head" = packet.get "head" ∧ packet'.get "leaves" = packet.get "leaves"

-- The length of an array is below `2 ^ 32`.
theorem buildPacket_survives (he : Encodes toUtf8Bytes) (hd : ∀ e ∈ es, OfDoubles e) (hl : es.length < 2 ^ 32)
    (verifyMessage : JsString → JsString → Option JsString) (getAddress : JsString → Option JsString)
    (syntaxError : JsString → JsString) (h : buildPacket keccak256 toUtf8Bytes (.array es) = .ok packet) :
    ∃ text parsed r,
      Survives keccak256 toUtf8Bytes verifyMessage getAddress syntaxError es packet text parsed r := by
  obtain ⟨hs, rfl⟩ := buildPacket_eq_ok he hd |>.mp h
  have hp : IsPacket keccak256 toUtf8Bytes es (packetOf keccak256 toUtf8Bytes es) := IsSession.isPacket_packetOf
  have hdp := hs.ofDoubles_packetOf hd hl
  have hc := hs.copies_sealed hd
  let es' := es.map <| sealed keccak256 toUtf8Bytes
  have hes : (packetOf keccak256 toUtf8Bytes es).get "events" = array es' := rfl
  let q := tidy ownOrder <| outOf (packetOf keccak256 toUtf8Bytes es) es'
  have hplain : Plain q := plain_tidy ownOrder_perm <| hp.serializable hdp hes hc
  have hq : IsPacket keccak256 toUtf8Bytes es q := hp.reread
  have hqes : q.get "events" = array (es'.map reread) := by
    rw [get_tidy ownOrder_perm]
    change tidy ownOrder (array <| es'.map written) = _
    rw [tidy, tidyElems_eq, List.map_map]
    rfl
  have hqc : Copies keccak256 toUtf8Bytes es (es'.map reread) :=
    hc.reread <| ofDoubles_elems (hdp.get "events") hes
  have hw : serializePacket syntaxError q = .ok _ := hq.serializePacket (plain_ofDoubles hplain) hqes hqc hs he hl
  rw [IsPacket.outOf_reread hdp hes hc] at hw
  refine ⟨_, q, _, {
    written   := hp.serializePacket hdp hes hc hs he hl
    read      := parse_render_line hplain
    shape     := hq.validatePacketShape hs he hl hqes hqc
    accepted  := hq.verifyPacket hs he hqes hqc seq_reread
    head      := ⟨_, hs.sessionHead_eq he, rfl, rfl⟩
    withheld  := rfl
    rewritten := hw
    redacted subset := ?_
  }⟩
  have hs' := hs.redactAt subset hd
  have hd' := ofDoubles_redactAt subset hs hd
  have hl' : (redactAt keccak256 toUtf8Bytes subset es).length = es.length := by simp [redactAt]
  have hleaf : leafList keccak256 toUtf8Bytes (redactAt keccak256 toUtf8Bytes subset es) =
      leafList keccak256 toUtf8Bytes es := by
    rw [leafList_eq, leafList_eq, eventLeaf_redactAt subset hs hd he]
  refine ⟨_, hs'.buildPacket hd' he, ?_, ?_⟩
  · change object [(js "size", nat (redactAt keccak256 toUtf8Bytes subset es).length), (js "root", _)] =
      object [(js "size", nat es.length), (js "root", _)]
    rw [hl', hleaf]
  · change ofStrings _ = ofStrings _
    rw [hleaf]

-- The packet of the exchange whose prompt is redacted. Nothing is signed in it.
theorem buildPacket_survives_exchange : ∃ text parsed r,
    Survives Keccak.keccak256 strictUtf8 (fun _ _ => none) some id redactedExchange
      (packetOf Keccak.keccak256 strictUtf8 redactedExchange) text parsed r :=
  have hs : IsSession Keccak.keccak256 strictUtf8 exchange :=
    validateSession_eq_ok (n := 2) |>.mp (by decide) |>.right
  have hd := ofDoubles_redactAt (· = 0) hs ofDoubles_exchange
  have hs' : IsSession Keccak.keccak256 strictUtf8 redactedExchange := hs.redactAt _ ofDoubles_exchange
  buildPacket_survives encodes_strictUtf8 hd (by decide) _ _ _ <| buildPacket_eq_ok encodes_strictUtf8 hd |>.mpr ⟨hs', rfl⟩

end AgentSession
