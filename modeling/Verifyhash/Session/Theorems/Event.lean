import Verifyhash.Session.Theorems.Canonical

namespace AgentSession

open Json Value Fallible Hex Unicode

-- The fields of an event which its leaf covers, apart from the payload and `meta`.
structure Core where
  seq   : ℕ
  ts    : JsString
  actor : JsString
  type  : JsString

-- When an event is accepted.
structure Accepts (keccak256 : Bytes → Bytes32) (toUtf8Bytes : JsString → Except JsString Bytes)
    (e : Value) (c : Core) (v : Validation) : Prop where
  isObject  : e.isObject
  known     : ∀ k ∈ ownKeys e, k ∈ EVENT_FIELDS
  seq       : (e.get "seq").toInt? = some (c.seq : ℤ)
  seq_le    : c.seq ≤ MAX_SAFE_INTEGER
  ts        : e.get "ts" = string c.ts
  actor     : e.get "actor" = string c.actor
  actor_ne  : c.actor ≠ []
  type      : e.get "type" = string c.type
  type_mem  : c.type ∈ EVENT_TYPES
  redacted  : v.redacted = !e.has "payload"
  disclosed : e.has "payload" → payloadHash keccak256 toUtf8Bytes (e.get "payload") = some v.payloadHash
  carried   : e.has "payloadHash" → ∃ h, e.get "payloadHash" = string h ∧ isHex32 h ∧
    toLowerCase h = v.payloadHash
  flag      : e.has "redacted" → e.get "redacted" = bool !e.has "payload"
  hidden    : ¬ e.has "payload" → e.has "payloadHash" ∧ e.has "redacted"
  metaJson  : v.metaJson = if e.has "meta" then canonicalMeta (e.get "meta") else none
  hasMeta   : e.has "meta" → (canonicalMeta <| e.get "meta").isSome

section

variable {keccak256 : Bytes → Bytes32} {toUtf8Bytes : JsString → Except JsString Bytes} {e : Value}

theorem has_of_toBool? (h : (e.get key).toBool? = some b) : e.has key :=
  has_of_get <| by
    rw [toBool?_eq_some.mp h]
    nofun

-- The checks of the payload, the hash which is carried and the flag, when the flag is only there if
-- the event has the field.
theorem flag_iff {payload hash redacted text hex : Bool} {flag : Option Bool} (h : flag.isSome → redacted) :
    ((¬ (payload && !text) ∧ ¬ (hash && !hex) ∧ ¬ (redacted && !flag.isSome) ∧ ¬ (!payload && !hash) ∧
      ¬ ((flag == some true) && payload) ∧ ¬ ((flag == some true) && !hash) ∧
      ¬ (!payload && !(flag == some true))) ↔
    (payload → text) ∧ (hash → hex) ∧ (redacted → flag = some !payload) ∧ (¬ payload → hash ∧ redacted)) := by
  cases payload <;> cases hash <;> cases redacted <;> rcases flag with _ | _ | _ <;> simp at h ⊢

-- The conditions under which no check fails.
theorem shapeReject_eq_none : shapeReject e = none ↔ e.isObject ∧ (∀ k ∈ ownKeys e, k ∈ EVENT_FIELDS) ∧
    (e.get "seq").toInt?.any (fun seq => 0 ≤ seq ∧ seq ≤ (MAX_SAFE_INTEGER : ℤ)) ∧ (e.get "ts").toString?.isSome ∧
    (e.get "actor").toString?.any (· ≠ []) ∧ (e.get "type").toString?.any (· ∈ EVENT_TYPES) ∧
    (e.has "payload" → (e.get "payload").toString?.isSome) ∧
    (e.has "payloadHash" → (e.get "payloadHash").hex32?.isSome) ∧
    (e.has "redacted" → (e.get "redacted").toBool? = some !e.has "payload") ∧
    (¬ e.has "payload" → e.has "payloadHash" ∧ e.has "redacted") := by
  have hr (h : (e.get "redacted").toBool?.isSome) : e.has "redacted" :=
    have ⟨_, h⟩ := Option.isSome_iff_exists.mp h
    has_of_toBool? h
  simp only [shapeReject, Option.map_eq_none_iff, List.find?_eq_none, shapeChecks, List.forall_mem_cons,
    List.not_mem_nil, false_imp_iff, implies_true, and_true]
  exact and_congr (by simp) <| and_congr (by simp) <| and_congr (by simp) <|
    and_congr (by rw [Bool.not_eq_true', Bool.not_eq_false]) <| and_congr (by simp) <| and_congr (by simp) <| flag_iff hr

theorem commitment_eq_ok (hx : e.has "payloadHash" → (e.get "payloadHash").hex32?.isSome)
    (hp : ¬ e.has "payload" → e.has "payloadHash") :
    commitment keccak256 toUtf8Bytes e = .ok h ↔
      (e.has "payload" → payloadHash keccak256 toUtf8Bytes (e.get "payload") = some h) ∧
      (e.has "payloadHash" → ∃ s, e.get "payloadHash" = string s ∧ isHex32 s ∧ toLowerCase s = h) := by
  have hc : e.has "payloadHash" → ((∃ s, e.get "payloadHash" = string s ∧ isHex32 s ∧ toLowerCase s = h) ↔
      toLowerCase ((e.get "payloadHash").hex32?.getD []) = h) := by
    intro hh
    obtain ⟨s, hs⟩ := Option.isSome_iff_exists.mp <| hx hh
    have ⟨hg, hi⟩ := hex32?_eq_some.mp hs
    simp [hg, hi, hex32?]
  rw [commitment]
  by_cases h₁ : e.has "payload"
  case neg =>
    have hh := hp h₁
    simp [h₁, hh, hc hh]
  case pos =>
    simp only [h₁, if_true, true_imp_iff]
    cases payloadHash keccak256 toUtf8Bytes (e.get "payload")
    case none => simp
    case some k =>
      by_cases hh : e.has "payloadHash"
      case neg => simp [hh]
      case pos =>
        simp only [hh, true_and, true_imp_iff, hc hh, Option.some.injEq]
        split_ifs with hk
        · simp only [false_iff]
          rintro ⟨rfl, h⟩
          exact hk h.symm
        · simp only [Except.ok.injEq]
          grind

theorem metaJson_eq_ok : metaJson e = .ok m ↔
    m = (if e.has "meta" then canonicalMeta (e.get "meta") else none) ∧
      (e.has "meta" → (canonicalMeta <| e.get "meta").isSome) := by
  rw [metaJson, eq_comm (a := m)]
  split_ifs with h
  case pos => cases canonicalMeta (e.get "meta") <;> simp [h]
  case neg => simp [h]

-- An event is accepted exactly under the conditions of `Accepts`.
theorem validateEvent_eq_ok :
    validateEvent keccak256 toUtf8Bytes e = .ok v ↔ ∃ c, Accepts keccak256 toUtf8Bytes e c v := by
  constructor
  case mp =>
    intro h
    rw [validateEvent] at h
    cases hs : shapeReject e
    case some => simp [hs] at h
    case none =>
      have ⟨ho, hk, hq, ht, ha, hy, hp, hx, hf, hh⟩ := shapeReject_eq_none.mp hs
      simp only [hs, bind_eq_ok] at h
      obtain ⟨_, hc, _, hm, ⟨rfl⟩⟩ := h
      have ⟨hc₁, hc₂⟩ := commitment_eq_ok hx (fun h => hh h |>.left) |>.mp hc
      have ⟨hm₁, hm₂⟩ := metaJson_eq_ok.mp hm
      obtain ⟨q, hq, hq₀, hq₁⟩ : ∃ q, (e.get "seq").toInt? = some q ∧ 0 ≤ q ∧ q ≤ (MAX_SAFE_INTEGER : ℤ) := by
        simpa [Option.any_eq_true] using hq
      obtain ⟨t, ht⟩ := Option.isSome_iff_exists.mp ht
      obtain ⟨a, ha, ha'⟩ : ∃ a, (e.get "actor").toString? = some a ∧ a ≠ [] := by
        simpa [Option.any_eq_true] using ha
      obtain ⟨y, hy, hy'⟩ : ∃ y, (e.get "type").toString? = some y ∧ y ∈ EVENT_TYPES := by
        simpa [Option.any_eq_true] using hy
      obtain ⟨i, rfl⟩ := Int.eq_ofNat_of_zero_le hq₀
      exact ⟨⟨i, t, a, y⟩, {
        isObject  := ho
        known     := hk
        seq       := hq
        seq_le    := by exact_mod_cast hq₁
        ts        := toString?_eq_some.mp ht
        actor     := toString?_eq_some.mp ha
        actor_ne  := ha'
        type      := toString?_eq_some.mp hy
        type_mem  := hy'
        redacted  := by simp
        disclosed := hc₁
        carried   := hc₂
        flag h    := toBool?_eq_some.mp <| hf h
        hidden    := hh
        metaJson  := hm₁
        hasMeta   := hm₂
      }⟩
  case mpr =>
    rintro ⟨c, a⟩
    have hx (h : e.has "payloadHash") : (e.get "payloadHash").hex32?.isSome :=
      have ⟨s, hs, hi, _⟩ := a.carried h
      hex32?_isSome_iff.mpr ⟨s, hs, hi⟩
    have hp (h : e.has "payload") : (e.get "payload").toString?.isSome := by
      have := a.disclosed h
      rw [payloadHash] at this
      cases hs : (e.get "payload").toString?
      case none => simp [hs] at this
      case some => rfl
    have hs : shapeReject e = none := shapeReject_eq_none.mpr ⟨a.isObject, a.known, by simp [a.seq, a.seq_le],
      by simp [a.ts, toString?], by simp [a.actor, toString?, a.actor_ne], by simp [a.type, toString?, a.type_mem],
      hp, hx, fun h => toBool?_eq_some.mpr <| a.flag h, a.hidden⟩
    have hc := commitment_eq_ok hx (fun h => a.hidden h |>.left) |>.mpr ⟨a.disclosed, a.carried⟩
    have hm := metaJson_eq_ok.mpr ⟨a.metaJson, a.hasMeta⟩
    have hr := a.redacted
    cases v
    simp_all [validateEvent]

theorem mem_ownKeys {fields : List (JsString × Value)} :
    k ∈ ownKeys (object fields) ↔ (fields.lookup k).isSome := by
  rw [ownKeys, (ownOrder_perm _).mem_iff, Fields.mem_keys]

theorem known_tidy (ho : ∀ ks, (order ks).Perm ks) (h : ∀ k ∈ ownKeys e, k ∈ EVENT_FIELDS) :
    ∀ k ∈ ownKeys (tidy order e), k ∈ EVENT_FIELDS := by
  cases e
  case number n => cases n <;> simp [tidy, ownKeys]
  case object fields =>
    intro k hk
    rw [tidy, mem_ownKeys, Fields.lookup_arrange ho, tidyFields_eq, Fields.lookup_map] at hk
    refine h k <| mem_ownKeys.mpr ?_
    cases hl : fields.lookup k
    case none => simp [hl] at hk
    case some => rfl
  all_goals simp [tidy, ownKeys]

-- The value whose text is hashed for a leaf.
def leafValue (c : Core) (v : Validation) : Value :=
  .array [
    string LEAF_DOMAIN,
    nat c.seq,
    string c.ts,
    string c.actor,
    string c.type,
    string v.payloadHash,
    v.metaJson.elim null string
  ]

def leafOf (keccak256 : Bytes → Bytes32) (c : Core) (v : Validation) : JsString :=
  hashBytes keccak256 <| bufferFrom <| render <| leafValue c v

-- The twin of an event, with its `meta` as it is read back from the canonical text.
def twinOf (e : Value) (v : Validation) : Value :=
  object <| [
    (js "seq", e.get "seq"),
    (js "ts", e.get "ts"),
    (js "actor", e.get "actor"),
    (js "type", e.get "type"),
    (js "payloadHash", string v.payloadHash),
    (js "redacted", bool true)
  ] ++ if v.metaJson.isSome then [(js "meta", tidy sortedOrder <| e.get "meta")] else []

theorem get_twinOf {v : Validation} (hk : key ∈ ["seq", "ts", "actor", "type"]) :
    (twinOf e v).get key = e.get key := by
  simp only [List.mem_cons, List.not_mem_nil, or_false] at hk
  rcases hk with rfl | rfl | rfl | rfl <;> rfl

theorem get_meta_twinOf {v : Validation} (h : v.metaJson.isSome) :
    (twinOf e v).get "meta" = tidy sortedOrder (e.get "meta") := by
  rw [twinOf, if_pos h]
  rfl

theorem stringify_of_toInt? {n : Value} {i : ℕ} (h : n.toInt? = some (i : ℤ)) :
    stringify n = some (render <| nat i) := by
  cases n
  case number n =>
    rcases n with _ | _ | _ | q
    case negZero =>
      obtain rfl : i = 0 := by simpa [toInt?, Number.toInt?, eq_comm] using h
      rfl
    case finite =>
      simp only [toInt?, Number.toInt?] at h
      split_ifs at h with hq
      have : (i : ℚ) = q := by
        rw [←Rat.num_div_den q, hq, Option.some.inj h]
        simp
      rw [nat, Number.ofNat, this]
      rfl
    all_goals simp [toInt?, Number.toInt?] at h
  all_goals simp [toInt?] at h

theorem serializable_of_toInt? {n : Value} (hd : OfDoubles n) (h : n.toInt? = some i) : Serializable n := by
  cases n
  case number n =>
    obtain _ | _ | _ | hd := hd
    rcases n with _ | _ | _ | q
    case negZero => exact .negZero
    case finite  => exact .number <| hd q rfl
    all_goals simp [toInt?, Number.toInt?] at h
  all_goals simp [toInt?] at h

theorem subset_ownKeys {fields : List (JsString × Value)} (h : ∀ k ∈ fields.map Prod.fst, k ∈ EVENT_FIELDS) :
    ∀ k ∈ ownKeys (object fields), k ∈ EVENT_FIELDS := by
  intro k hk
  obtain ⟨_, hk⟩ := Option.isSome_iff_exists.mp <| mem_ownKeys.mp hk
  exact h k <| List.mem_map_of_mem <| Fields.mem_of_lookup hk

namespace Accepts

variable {c : Core} {v : Validation}

theorem payload (a : Accepts keccak256 toUtf8Bytes e c v) (h : e.has "payload") :
    ∃ p b, e.get "payload" = string p ∧ toUtf8Bytes p = .ok b ∧ v.payloadHash = hashBytes keccak256 b := by
  have hd := a.disclosed h
  simp only [payloadHash, Option.bind_eq_bind, Option.bind_eq_some_iff] at hd
  obtain ⟨p, hp, b, hb, hh⟩ := hd
  refine ⟨p, b, toString?_eq_some.mp hp, ?_, (Option.some.inj hh).symm⟩
  cases hu : toUtf8Bytes p <;> simp_all [Except.toOption]

theorem strict_meta (a : Accepts keccak256 toUtf8Bytes e c v) (hd : OfDoubles e) (h : e.has "meta") :
    Strict (e.get "meta") :=
  have ⟨_, ht⟩ := Option.isSome_iff_exists.mp <| a.hasMeta h
  of_canonicalMeta (hd.get _) ht |>.left

-- The optional fields of an accepted event are there unless they are `undefined`.
theorem get_ne_undefined (a : Accepts keccak256 toUtf8Bytes e c v) (hd : OfDoubles e) :
    ∀ key ∈ ["payload", "payloadHash", "redacted", "meta"], e.has key → e.get key ≠ undefined := by
  simp only [List.forall_mem_cons, List.not_mem_nil, false_imp_iff, implies_true, and_true]
  refine ⟨fun h => ?_, fun h => ?_, fun h => ?_, fun h => ?_⟩
  · obtain ⟨_, _, hp, _⟩ := a.payload h
    simp [hp]
  · obtain ⟨_, hp, _⟩ := a.carried h
    simp [hp]
  · simp [a.flag h]
  · exact (a.strict_meta hd h).serializable.ne_undefined

-- What is left of an event in its text is accepted with the same result.
theorem tidy (a : Accepts keccak256 toUtf8Bytes e c v) (hd : OfDoubles e) (ho : ∀ ks, (order ks).Perm ks) :
    Accepts keccak256 toUtf8Bytes (tidy order e) c v := by
  have hh : ∀ key ∈ ["payload", "payloadHash", "redacted", "meta"], (Json.tidy order e).has key = e.has key :=
    fun key hk => Bool.eq_iff_iff.mpr <| (has_tidy ho key).trans ⟨has_of_get, a.get_ne_undefined hd key hk⟩
  simp only [List.forall_mem_cons, List.not_mem_nil, false_imp_iff, implies_true, and_true] at hh
  obtain ⟨hp, hx, hr, hm⟩ := hh
  have hg {key s} (h : e.get key = string s) : (Json.tidy order e).get key = string s := by
    rw [get_tidy ho, h]
    rfl
  have hc (h : e.has "meta") : canonicalMeta ((Json.tidy order e).get "meta") = canonicalMeta (e.get "meta") := by
    rw [get_tidy ho, canonicalMeta_tidy ho <| a.strict_meta hd h]
  exact {
    isObject  := by rw [isObject_tidy, a.isObject]
    known     := known_tidy ho a.known
    seq       := by rw [get_tidy ho, toInt?_tidy, a.seq]
    seq_le    := a.seq_le
    ts        := hg a.ts
    actor     := hg a.actor
    actor_ne  := a.actor_ne
    type      := hg a.type
    type_mem  := a.type_mem
    redacted  := by rw [hp, a.redacted]
    disclosed h := by
      rw [hp] at h
      obtain ⟨p, _, hp, _⟩ := a.payload h
      rw [hg hp, ←hp, a.disclosed h]
    carried h := by
      rw [hx] at h
      obtain ⟨s, hs, hi, hl⟩ := a.carried h
      exact ⟨s, hg hs, hi, hl⟩
    flag h    := by
      rw [hr] at h
      rw [hp, get_tidy ho, a.flag h]
      rfl
    hidden    := by rw [hp, hx, hr]; exact a.hidden
    metaJson  := by
      rw [hm, a.metaJson]
      split_ifs with h
      · exact (hc h).symm
      · rfl
    hasMeta h := by
      rw [hm] at h
      rw [hc h]
      exact a.hasMeta h
  }

-- An accepted event has a text.
theorem serializable (a : Accepts keccak256 toUtf8Bytes e c v) (hd : OfDoubles e) : Serializable e := by
  obtain ⟨fields, rfl⟩ := isObject_iff.mp a.isObject
  refine .object fun k w hk hu => ?_
  obtain ⟨key, hkey, rfl⟩ : ∃ key ∈ ["seq", "ts", "actor", "type", "payload", "payloadHash", "redacted", "meta"],
      js key = k := List.mem_map.mp <| a.known k <| mem_ownKeys.mpr <| by simp [hk]
  have hw : (object fields).get key = w := by simp [Value.get, hk]
  have hh : (object fields).has key := by simp [Value.has, hk]
  have hs {s} (h : (object fields).get key = string s) : Serializable w := by
    rw [←hw, h]
    exact .string
  simp only [List.mem_cons, List.not_mem_nil, or_false] at hkey
  rcases hkey with rfl | rfl | rfl | rfl | rfl | rfl | rfl | rfl
  · exact hw ▸ serializable_of_toInt? (hd.get _) a.seq
  · exact hs a.ts
  · exact hs a.actor
  · exact hs a.type
  · obtain ⟨_, _, hp, _⟩ := a.payload hh
    exact hs hp
  · obtain ⟨_, hx, _⟩ := a.carried hh
    exact hs hx
  · rw [←hw, a.flag hh]
    exact .bool
  · exact hw ▸ (a.strict_meta hd hh).serializable

theorem payloadHash_hex (a : Accepts keccak256 toUtf8Bytes e c v) :
    isHex32 v.payloadHash ∧ toLowerCase v.payloadHash = v.payloadHash := by
  by_cases h : e.has "payload"
  case pos =>
    obtain ⟨_, b, _, _, hb⟩ := a.payload h
    rw [hb]
    exact ⟨isHex32_hashBytes _, toLowerCase_hexlify _⟩
  case neg =>
    obtain ⟨s, _, hi, hl⟩ := a.carried (a.hidden h).left
    rw [←hl]
    exact ⟨isHex32_toLowerCase hi, toLowerCase_toLowerCase⟩

theorem metaJson_isSome (a : Accepts keccak256 toUtf8Bytes e c v) : v.metaJson.isSome = e.has "meta" := by
  rw [a.metaJson]
  split_ifs with h
  · rw [a.hasMeta h, h]
  · simp [h]

-- The canonical text of `meta` is read back.
theorem parse_metaJson (a : Accepts keccak256 toUtf8Bytes e c v) (hd : OfDoubles e)
    (h : v.metaJson = some t) : parse t = some (Json.tidy sortedOrder <| e.get "meta") := by
  have hm : e.has "meta" := by rw [←a.metaJson_isSome, h]; rfl
  have ht := a.metaJson
  rw [h, if_pos hm] at ht
  obtain ⟨hs, rfl⟩ := of_canonicalMeta (hd.get "meta") ht.symm
  exact parse_render <| plain_tidy sortedOrder_perm hs.serializable

theorem redactEvent (a : Accepts keccak256 toUtf8Bytes e c v) (hd : OfDoubles e) :
    redactEvent keccak256 toUtf8Bytes e = .ok (twinOf e v) := by
  have hv := validateEvent_eq_ok.mpr ⟨c, a⟩
  rw [AgentSession.redactEvent, hv, ok_bind, twinOf]
  cases hm : v.metaJson
  case none => rfl
  case some t => simp [a.parse_metaJson hd hm]

-- The twin is accepted, with the same commitment.
theorem twin (a : Accepts keccak256 toUtf8Bytes e c v) (hd : OfDoubles e) :
    Accepts keccak256 toUtf8Bytes (twinOf e v) c { v with redacted := true } := by
  have hp : (twinOf e v).has "payload" = false := by
    rw [twinOf]
    split_ifs <;> rfl
  have hm : (twinOf e v).has "meta" = e.has "meta" := by
    rw [twinOf, a.metaJson_isSome]
    cases e.has "meta" <;> rfl
  have hc (h : e.has "meta") : canonicalMeta ((twinOf e v).get "meta") = canonicalMeta (e.get "meta") := by
    rw [get_meta_twinOf <| a.metaJson_isSome.trans h, canonicalMeta_tidy sortedOrder_perm <| a.strict_meta hd h]
  exact {
    isObject    := rfl
    known       := by
      rw [twinOf]
      refine subset_ownKeys ?_
      split_ifs <;> simp only [List.map_append, List.map_cons, List.map_nil] <;> decide
    seq         := by rw [get_twinOf (by decide), a.seq]
    seq_le      := a.seq_le
    ts          := by rw [get_twinOf (by decide), a.ts]
    actor       := by rw [get_twinOf (by decide), a.actor]
    actor_ne    := a.actor_ne
    type        := by rw [get_twinOf (by decide), a.type]
    type_mem    := a.type_mem
    redacted    := by rw [hp]; rfl
    disclosed h := by simp [hp] at h
    carried _   := ⟨_, rfl, a.payloadHash_hex⟩
    flag _      := by rw [hp]; rfl
    hidden _    := ⟨rfl, rfl⟩
    metaJson    := by
      rw [hm, a.metaJson]
      split_ifs with h
      · exact (hc h).symm
      · rfl
    hasMeta h   := by
      rw [hm] at h
      rw [hc h]
      exact a.hasMeta h
  }

theorem plain_leafValue (a : Accepts keccak256 toUtf8Bytes e c v) : Plain (leafValue c v) := by
  have hm : Plain (v.metaJson.elim null string) := by
    cases v.metaJson
    · exact .null
    · exact .string
  have hq : c.seq < 2 ^ 53 := Nat.lt_of_le_of_lt a.seq_le (by decide)
  refine .array ?_
  simp only [List.forall_mem_cons, List.not_mem_nil, false_imp_iff, implies_true, and_true]
  exact ⟨.string, .number <| Double.isDouble_natCast hq, .string, .string, .string, .string, hm⟩

theorem stringify_leafArray (a : Accepts keccak256 toUtf8Bytes e c v) :
    stringify (leafArray e v) = some (render <| leafValue c v) := by
  have hm : stringify (v.metaJson.elim null string) = some (render <| v.metaJson.elim null string) := by
    cases v.metaJson <;> rfl
  rw [leafArray, leafValue, stringify, render]
  simp [a.ts, a.actor, a.type, stringify_of_toInt? a.seq, hm, stringify, render]

theorem wellFormed_leafValue (a : Accepts keccak256 toUtf8Bytes e c v) : WellFormed (render <| leafValue c v) :=
  printable_render a.plain_leafValue |>.wellFormed

theorem eventLeaf (a : Accepts keccak256 toUtf8Bytes e c v) (he : Encodes toUtf8Bytes) :
    eventLeaf keccak256 toUtf8Bytes e = some (leafOf keccak256 c v) := by
  simp [AgentSession.eventLeaf, validateEvent_eq_ok.mpr ⟨c, a⟩, Except.toOption, a.stringify_leafArray,
    he.eq_ok a.wellFormed_leafValue, leafOf]

end Accepts

end

end AgentSession
