import Verifyhash.Session.Commit
import Verifyhash.Session.Theorems.Session

namespace AgentCommit

open Json Value AgentSession

-- The claims which are valid
structure Claim.Valid (keccak256 : Bytes → Bytes32) (toUtf8Bytes : JsString → Except JsString Bytes)
    (c : Claim) : Prop where
  commit  : isCommit c.commit
  gitRoot : isGitRoot c.gitRoot
  scope   : ∀ s ∈ c.scope, isValidScope keccak256 toUtf8Bytes s

-- The claim object
def Claim.toValue (c : Claim) : Value :=
  object <| c.fields.map fun f => (f.fst, string f.snd)

section

variable {keccak256 : Bytes → Bytes32} {toUtf8Bytes : JsString → Except JsString Bytes} {c : Claim} {input : Value}
         {extra : List JsString} {s : JsString}

theorem Claim.Valid.of_validateClaimFields (h : validateClaimFields keccak256 toUtf8Bytes input extra = .ok c) :
    c.Valid keccak256 toUtf8Bytes := by
  rw [validateClaimFields] at h
  split at h
  case h_1 => cases h
  case h_2 hn =>
    obtain rfl := Except.ok.inj h
    simp only [claimChecks, List.find?_eq_none, List.forall_mem_cons, Bool.not_eq_true, Bool.not_eq_false',
      Bool.and_eq_false_iff] at hn
    obtain ⟨-, -, -, hc, hg, hs, -⟩ := hn
    refine ⟨?_, ?_, ?_⟩
    · cases hc' : (input.get "commit").toString? <;> simp_all
    · cases hg' : (input.get "gitRoot").toString? <;> simp_all
    · intro t ht
      have hh : input.has "scope" := has_of_get <| by
        rw [toString?_eq_some.mp ht]
        nofun
      rcases hs with hs | hs
      · simp [hh] at hs
      · have ht : (input.get "scope").toString? = some t := ht
        simpa [ht] using hs

theorem get_toValue : c.toValue.get "commit" = string c.commit ∧ c.toValue.get "gitRoot" = string c.gitRoot ∧
    c.toValue.get "kind" = string CLAIM_KIND :=
  ⟨rfl, rfl, rfl⟩

theorem get_toValue_scope : (c.toValue.get "scope").toString? = c.scope := by
  obtain ⟨commit, gitRoot, scope⟩ := c
  cases scope <;> rfl

theorem map_fields : c.fields.map Prod.fst = CLAIM_FIELDS.take (if c.scope.isSome then 4 else 3) := by
  obtain ⟨commit, gitRoot, scope⟩ := c
  cases scope <;> rfl

theorem mem_fields {f : JsString × JsString} (hf : f ∈ c.fields) : f.fst ∈ CLAIM_FIELDS :=
  List.mem_of_mem_take <| map_fields ▸ List.mem_map_of_mem hf

theorem ownKeys_toValue : (ownKeys c.toValue).find? (· ∉ CLAIM_FIELDS ++ []) = none := by
  rw [List.find?_eq_none]
  intro k hk
  rw [Claim.toValue, mem_ownKeys] at hk
  obtain ⟨w, hw⟩ := Option.isSome_iff_exists.mp hk
  obtain ⟨f, hf, he⟩ := List.mem_map.mp <| Fields.mem_of_lookup hw
  obtain ⟨rfl, -⟩ := Prod.mk.inj he
  simpa using mem_fields hf

theorem validateClaimFields_toValue (v : c.Valid keccak256 toUtf8Bytes) :
    validateClaimFields keccak256 toUtf8Bytes c.toValue [] = .ok c := by
  have hk : c.toValue.has "kind" = true := rfl
  have ho : c.toValue.isObject = true := rfl
  have hs : c.scope.all (isValidScope keccak256 toUtf8Bytes) := by
    rw [Option.all_eq_true]
    exact v.scope
  have ⟨gc, gg, gk⟩ := @get_toValue c
  have hn : (claimChecks keccak256 toUtf8Bytes c.toValue []).find? (·.fst) = none := by
    rw [claimChecks, ownKeys_toValue, gc, gg, gk, get_toValue_scope]
    cases hs' : c.scope
    case none =>
      have hh : c.toValue.has "scope" = false := by
        obtain ⟨commit, gitRoot, scope⟩ := c
        subst hs'
        rfl
      simp [hk, ho, hh, toString?, v.commit, v.gitRoot]
    case some scope =>
      rw [hs'] at hs
      simp [hk, ho, toString?, v.commit, v.gitRoot, show isValidScope keccak256 toUtf8Bytes scope = true from hs]
  rw [validateClaimFields, hn, gc, gg, get_toValue_scope]
  rfl

theorem serializeClaim_eq : serializeClaim c = render c.toValue := by
  simp [serializeClaim, Claim.toValue, render, renderField, Function.comp_def]

theorem plain_toValue : Plain c.toValue := by
  refine .object ?_ ?_
  · have hm : (c.fields.map fun f => (f.fst, string f.snd)).map Prod.fst = c.fields.map Prod.fst := by
      rw [List.map_map]
      rfl
    rw [hm, map_fields]
    exact (by decide : CLAIM_FIELDS.Nodup).sublist <| List.take_sublist ..
  · intro f hf
    obtain ⟨_, _, rfl⟩ := List.mem_map.mp hf
    exact .string

theorem parse_serializeClaim : parse (serializeClaim c) = some c.toValue := by
  rw [serializeClaim_eq, parse_render plain_toValue]

theorem length_unitText (u : UInt16) : (unitText u).length ≤ 6 := by
  rw [unitText]
  split_ifs <;> simp [hex4, js]

theorem length_unitTexts (s : JsString) : (unitTexts s).length ≤ 6 * s.length := by
  induction s using unitTexts.induct
  case case1 u v s h ih =>
    rw [unitTexts, if_pos h]
    simp only [List.length_cons]
    omega
  case case2 u v s h ih =>
    have := length_unitText u
    rw [unitTexts, if_neg h, List.length_append]
    simp only [List.length_cons] at ih ⊢
    omega
  case case3 u => exact length_unitText u
  case case4 => exact le_rfl

theorem length_quote (s : JsString) : (quote s).length ≤ 6 * s.length + 2 := by
  have := length_unitTexts s
  simp only [quote, List.length_append]
  have : (js "\"").length = 1 := rfl
  omega

-- The longest text which a scope can have fits.
theorem length_serializeClaim (v : c.Valid keccak256 toUtf8Bytes) :
    (serializeClaim c).length ≤ MAX_PAYLOAD_LENGTH := by
  have hc := length_quote c.commit
  have hg := length_quote c.gitRoot
  have hk : (quote CLAIM_KIND).length = 25 := by decide
  have hc' : c.commit.length = 40 := by
    have := v.commit
    simp only [isCommit, decide_eq_true_eq] at this
    exact this.left
  have hg' : c.gitRoot.length = 66 := by
    have := v.gitRoot
    simp only [isGitRoot, decide_eq_true_eq] at this
    exact this.right.left
  have h₁ : (quote <| js "commit").length = 8 ∧ (quote <| js "gitRoot").length = 9 ∧
    (quote <| js "kind").length = 6 ∧ (quote <| js "scope").length = 7 := by decide
  have h₂ : (js "\x7b").length = 1 ∧ (js "\x7d").length = 1 ∧ (js ":").length = 1 ∧ (js ",").length = 1 := by decide
  have hm : MAX_PAYLOAD_LENGTH = 32768 := rfl
  cases hs : c.scope
  case none =>
    simp only [serializeClaim, Claim.fields, hs, Option.toList_none, List.map_nil, List.append_nil, List.map_cons,
      join_cons_cons, join_singleton, List.length_append]
    omega
  case some scope =>
    have hq := length_quote scope
    have hl : scope.length ≤ 4096 := by
      have := v.scope scope hs
      simp only [isValidScope, decide_eq_true_eq] at this
      exact this.right.left
    simp only [serializeClaim, Claim.fields, hs, Option.toList_some, List.map_nil, List.map_cons, List.cons_append,
      List.nil_append, join_cons_cons, join_singleton, List.length_append]
    omega

theorem parseCommitClaim_eq_ok {v : Value} : parseCommitClaim keccak256 toUtf8Bytes v = .ok c ↔
    c.Valid keccak256 toUtf8Bytes ∧ v = string (serializeClaim c) := by
  constructor
  case mp =>
    intro h
    rw [parseCommitClaim] at h
    cases hs : v.toString?
    case none => simp [hs] at h
    case some s =>
      simp only [hs] at h
      split_ifs at h with hl
      split at h
      case h_1 => cases h
      case h_2 parsed hp =>
        split_ifs at h with ho hk
        split at h
        case h_1 => cases h
        case h_2 claim hv =>
          split_ifs at h with he
          obtain rfl := Except.ok.inj h
          exact ⟨.of_validateClaimFields hv, by rw [toString?_eq_some.mp hs, not_not.mp he]⟩
  case mpr =>
    rintro ⟨hv, rfl⟩
    have hl : ¬ (serializeClaim c).length > MAX_PAYLOAD_LENGTH := not_lt.mpr <| length_serializeClaim hv
    have ho : c.toValue.isObject = true := rfl
    have ⟨_, _, gk⟩ := @get_toValue c
    simp [parseCommitClaim, toString?, hl, parse_serializeClaim, ho, gk, validateClaimFields_toValue hv]

theorem commitClaimPayload_toValue (v : c.Valid keccak256 toUtf8Bytes) :
    commitClaimPayload keccak256 toUtf8Bytes c.toValue = .ok (serializeClaim c, c) := by
  rw [commitClaimPayload, validateClaimFields_toValue v]
  rfl

theorem of_commitClaimPayload (h : commitClaimPayload keccak256 toUtf8Bytes input = .ok (s, c)) :
    c.Valid keccak256 toUtf8Bytes ∧ serializeClaim c = s := by
  obtain ⟨claim, hv, h⟩ := Fallible.bind_eq_ok.mp h
  obtain ⟨rfl, rfl⟩ := Prod.mk.inj <| Fallible.pure_eq_ok.mp h
  exact ⟨.of_validateClaimFields hv, rfl⟩

theorem disclosed_eq_some {e : Value} : disclosed keccak256 toUtf8Bytes e = some (c, s) ↔
    e.get "type" = string CLAIM_EVENT_TYPE ∧ e.get "payload" = string s ∧ c.Valid keccak256 toUtf8Bytes ∧
      serializeClaim c = s := by
  rw [disclosed]
  split_ifs with ht
  case pos =>
    refine ⟨nofun, ?_⟩
    rintro ⟨h, -⟩
    exact absurd (toString?_eq_some.mpr h) ht
  case neg =>
    have ht := toString?_eq_some.mp <| not_not.mp ht
    simp only [ht, true_and, Option.bind_eq_bind, Option.bind_eq_some_iff, Fallible.toOption_eq_some,
      parseCommitClaim_eq_ok, toString?_eq_some, Option.pure_def, Option.some.injEq, Prod.mk.injEq]
    constructor
    · rintro ⟨p, hp, c', ⟨hv, he⟩, rfl, rfl⟩
      exact ⟨hp, hv, (string.inj he).symm⟩
    · rintro ⟨hp, hv, rfl⟩
      exact ⟨_, hp, c, ⟨hv, rfl⟩, rfl, rfl⟩

-- What is found among events which can be copied
theorem findFrom_eq {es : List Value} (h : ∀ e ∈ es, (stringify e).bind parse = some (tidy ownOrder e)) (i : ℕ) :
    findFrom keccak256 toUtf8Bytes i es = .ok ((es.zipIdx i).filterMap fun e =>
      (disclosed keccak256 toUtf8Bytes e.fst).map fun d => {
        index   := e.snd
        seq     := e.fst.get "seq"
        claim   := d.fst
        payload := d.snd
        event   := tidy ownOrder e.fst
      }) := by
  induction es generalizing i
  case nil => rfl
  case cons e es ih =>
    have ⟨he, h⟩ := List.forall_mem_cons.mp h
    rw [findFrom, List.zipIdx_cons, List.filterMap_cons]
    cases disclosed keccak256 toUtf8Bytes e
    case none => exact ih h (i + 1)
    case some d =>
      rw [he, ih h (i + 1)]
      rfl

-- The claims which are found in a session are those which its events disclose, at their positions.
theorem findCommitClaims_of_valid {es : List Value} (hd : ∀ e ∈ es, OfDoubles e)
    (hs : validateSession keccak256 toUtf8Bytes (array es) = .ok n) :
    ∃ fs, findCommitClaims keccak256 toUtf8Bytes (array es) = .ok fs ∧ ∀ i c s,
      (∃ f ∈ fs, f.index = i ∧ f.claim = c ∧ f.payload = s) ↔
        ∃ e, es[i]? = some e ∧ disclosed keccak256 toUtf8Bytes e = some (c, s) := by
  have ⟨_, hv⟩ := validateSession_eq_ok.mp hs
  have hp : ∀ e ∈ es, (stringify e).bind parse = some (tidy ownOrder e) := by
    intro e he
    obtain ⟨i, hi, rfl⟩ := List.mem_iff_getElem.mp he
    obtain ⟨c, v, a, -⟩ := hv i hi
    have hsr := a.serializable <| hd _ he
    rw [stringify_eq hsr, Option.bind_some, parse_render <| plain_tidy ownOrder_perm hsr]
  have hf : findCommitClaims keccak256 toUtf8Bytes (array es) = findFrom keccak256 toUtf8Bytes 0 es := by
    simp only [findCommitClaims, hs]
  refine ⟨_, hf.trans <| findFrom_eq hp 0, fun i c s => ?_⟩
  simp only [List.mem_filterMap, Option.map_eq_some_iff, Prod.exists, List.mem_zipIdx_iff_getElem?]
  constructor
  case mp =>
    rintro ⟨_, ⟨e, j, hm, c', s', hd, rfl⟩, rfl, rfl, rfl⟩
    exact ⟨e, hm, hd⟩
  case mpr =>
    rintro ⟨e, he, hd⟩
    exact ⟨_, ⟨e, i, he, c, s, hd, rfl⟩, rfl, rfl, rfl⟩

theorem of_buildCommitClaimEvent {b : ClaimEvent} (h : buildCommitClaimEvent keccak256 toUtf8Bytes input = .ok b) :
    (∃ v, validateEvent keccak256 toUtf8Bytes b.event = .ok v) ∧
      disclosed keccak256 toUtf8Bytes b.event = some (b.claim, b.payload) := by
  obtain ⟨claim, hv, h⟩ := Fallible.bind_eq_ok.mp h
  cases he : validateEvent keccak256 toUtf8Bytes (claimEvent input claim)
  case error => simp [he] at h
  case ok v =>
    simp only [he] at h
    obtain rfl := Fallible.pure_eq_ok.mp h
    exact ⟨⟨v, he⟩, disclosed_eq_some.mpr ⟨rfl, rfl, .of_validateClaimFields hv, rfl⟩⟩

end

-- The facts which are expected
def expectedOf (commit gitRoot : JsString) : Value :=
  object [(js "commit", string commit), (js "gitRoot", string gitRoot)]

-- The arguments of a verification
def argsOf (field : JsString) (v : Value) (commit gitRoot : JsString) : Value :=
  object [
    (field, v),
    (js "expected", expectedOf commit gitRoot)
  ]

section

variable {keccak256 : Bytes → Bytes32} {toUtf8Bytes : JsString → Except JsString Bytes} {c : Claim} {v : Value}
         {field commit gitRoot s : JsString}

theorem argsChecks_argsOf (hf : field ∈ ["event", "payloadString"].map js) :
    (argsChecks (argsOf field v commit gitRoot)).find? (·.fst) = none := by
  simp only [List.map_cons, List.map_nil, List.mem_cons, List.not_mem_nil, or_false] at hf
  rcases hf with rfl | rfl <;> rfl

theorem get_expectedOf : (expectedOf commit gitRoot).get "commit" = string commit ∧
    (expectedOf commit gitRoot).get "gitRoot" = string gitRoot :=
  ⟨rfl, rfl⟩

theorem expectedChecks_expectedOf (hc : isCommit commit) (hg : isGitRoot gitRoot) :
    (expectedChecks <| expectedOf commit gitRoot).find? (·.fst) = none := by
  have hk : (ownKeys <| expectedOf commit gitRoot).find? (· ∉ ["commit", "gitRoot"].map js) = none := rfl
  have ho : (expectedOf commit gitRoot).isObject = true := rfl
  have ⟨gc, gg⟩ := @get_expectedOf commit gitRoot
  rw [expectedChecks, hk, gc, gg]
  simp [ho, toString?, hc, hg]

theorem get_expected (hf : field ∈ ["event", "payloadString"].map js) :
    (argsOf field v commit gitRoot).get "expected" = expectedOf commit gitRoot := by
  simp only [List.map_cons, List.map_nil, List.mem_cons, List.not_mem_nil, or_false] at hf
  rcases hf with rfl | rfl <;> rfl

-- A claim is accepted for its own commit and root only.
theorem verifyCommitClaim_isOk (hf : field ∈ ["event", "payloadString"].map js) (hv : c.Valid keccak256 toUtf8Bytes)
    (hp : payloadOf keccak256 toUtf8Bytes (argsOf field v commit gitRoot) = .ok (string <| serializeClaim c, seq)) :
    (∃ r, verifyCommitClaim keccak256 toUtf8Bytes (argsOf field v commit gitRoot) = .ok r) ↔
      c.commit = commit ∧ c.gitRoot = gitRoot := by
  have hpc := parseCommitClaim_eq_ok.mpr ⟨hv, rfl⟩
  have ⟨gc, gg⟩ := @get_expectedOf commit gitRoot
  rw [verifyCommitClaim, List.find?_append, argsChecks_argsOf hf, Option.none_or, get_expected hf, gc, gg]
  constructor
  case mp =>
    rintro ⟨r, h⟩
    split at h
    case h_1 => cases h
    case h_2 =>
      rw [hp, Fallible.ok_bind] at h
      simp only [hpc, toString?, Option.getD_some] at h
      by_cases hc : c.commit = commit
      case neg => simp [hc] at h
      by_cases hg : c.gitRoot = gitRoot
      case neg => simp [hc, hg] at h
      exact ⟨hc, hg⟩
  case mpr =>
    rintro ⟨rfl, rfl⟩
    rw [expectedChecks_expectedOf hv.commit hv.gitRoot, hp]
    exact ⟨_, by simp only [Fallible.ok_bind, hpc, toString?, Option.getD_some, ne_eq, not_true, if_false]; rfl⟩

theorem payloadOf_payloadString :
    payloadOf keccak256 toUtf8Bytes (argsOf (js "payloadString") v commit gitRoot) = .ok (v, none) := by
  have he : (argsOf (js "payloadString") v commit gitRoot).has "event" = false := rfl
  rw [payloadOf, he]
  rfl

theorem payloadOf_event (hv : validateEvent keccak256 toUtf8Bytes v = .ok w)
    (hd : disclosed keccak256 toUtf8Bytes v = some (c, s)) :
    payloadOf keccak256 toUtf8Bytes (argsOf (js "event") v commit gitRoot) =
      .ok (string <| serializeClaim c, some <| v.get "seq") := by
  have ⟨ht, hp, _, hs⟩ := disclosed_eq_some.mp hd
  have ⟨_, a⟩ := validateEvent_eq_ok.mp hv
  have hh : v.has "payload" := has_of_get <| by
    rw [hp]
    nofun
  have he : (argsOf (js "event") v commit gitRoot).has "event" = true := rfl
  have hg : (argsOf (js "event") v commit gitRoot).get "event" = v := rfl
  have hr : w.redacted = false := by rw [a.redacted, hh]; rfl
  rw [payloadOf, if_pos he, hg]
  simp [hv, hr, ht, hp, hs, toString?]

end

end AgentCommit
