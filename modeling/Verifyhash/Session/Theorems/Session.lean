import Verifyhash.Journal.Theorems.Consistency
import Verifyhash.Session.Theorems.Event

namespace AgentSession

open Json Value Fallible Hex Unicode JournalLog

variable {keccak256 : Bytes → Bytes32} {toUtf8Bytes : JsString → Except JsString Bytes} {es : List Value}

theorem validateFrom_eq_ok : validateFrom keccak256 toUtf8Bytes i es = .ok n ↔
    i + es.length = n ∧ ∀ (j : ℕ) (h : j < es.length),
      ∃ c v, Accepts keccak256 toUtf8Bytes es[j] c v ∧ c.seq = i + j := by
  induction es generalizing i
  case nil => simp [validateFrom]
  case cons e es ih =>
    rw [validateFrom]
    cases hv : validateEvent keccak256 toUtf8Bytes e
    case error =>
      simp only [reduceCtorEq, false_iff, not_and]
      intro _ h
      obtain ⟨c, v, a, _⟩ := h 0 (by simp)
      rw [List.getElem_cons_zero] at a
      simp [validateEvent_eq_ok.mpr ⟨c, a⟩] at hv
    case ok v =>
      obtain ⟨c, a⟩ := validateEvent_eq_ok.mp hv
      have hl : i + (e :: es).length = i + 1 + es.length := by
        rw [List.length_cons]
        omega
      simp only [a.seq]
      split_ifs with hi
      case pos =>
        simp only [false_iff, not_and]
        intro _ h
        obtain ⟨c', v', a', hs⟩ := h 0 (by simp)
        have := a'.seq
        rw [List.getElem_cons_zero, a.seq, hs, Nat.add_zero] at this
        exact hi this
      case neg =>
        have hi : c.seq = i := by simpa using hi
        rw [ih, hl]
        refine and_congr_right fun _ => ⟨fun h j hj => ?_, fun h j hj => ?_⟩
        · rcases j with _ | j
          · exact ⟨c, v, a, hi⟩
          · obtain ⟨c, v, a, hs⟩ := h j (by simpa using hj)
            exact ⟨c, v, a, by omega⟩
        · obtain ⟨c, v, a, hs⟩ := h (j + 1) (by simpa using hj)
          exact ⟨c, v, a, by omega⟩

-- The sessions which are accepted: the sequence numbers are the positions.
def IsSession (keccak256 : Bytes → Bytes32) (toUtf8Bytes : JsString → Except JsString Bytes)
    (es : List Value) : Prop :=
  ∀ (i : ℕ) (h : i < es.length), ∃ c v, Accepts keccak256 toUtf8Bytes es[i] c v ∧ c.seq = i

theorem validateSession_eq_ok : validateSession keccak256 toUtf8Bytes (.array es) = .ok n ↔
    es.length = n ∧ IsSession keccak256 toUtf8Bytes es := by
  simp only [validateSession, validateFrom_eq_ok, Nat.zero_add, IsSession]

section

variable (keccak256 toUtf8Bytes)

-- The leaves of the events of a session.
def leafList (es : List Value) : List JsString :=
  es.map fun e => (eventLeaf keccak256 toUtf8Bytes e).getD []

-- What `sessionHead` returns for a session.
def headOf (es : List Value) : Value :=
  object [(js "ok", bool true), (js "size", nat es.length),
    (js "root", string <| mth keccak256 <| leafList keccak256 toUtf8Bytes es)]

variable {keccak256 toUtf8Bytes} in
theorem isHead_headOf : IsHead (headOf keccak256 toUtf8Bytes es) es.length
    (string <| mth keccak256 <| leafList keccak256 toUtf8Bytes es) :=
  ⟨rfl, rfl, rfl⟩

end

namespace IsSession

theorem exists_of_mem (hs : IsSession keccak256 toUtf8Bytes es) (h : e ∈ es) :
    ∃ c v, Accepts keccak256 toUtf8Bytes e c v := by
  obtain ⟨i, hi, rfl⟩ := List.getElem_of_mem h
  obtain ⟨c, v, a, _⟩ := hs i hi
  exact ⟨c, v, a⟩

theorem take (hs : IsSession keccak256 toUtf8Bytes es) : IsSession keccak256 toUtf8Bytes (es.take n) := by
  intro i h
  rw [List.length_take] at h
  rw [List.getElem_take]
  exact hs i (by omega)

variable (hs : IsSession keccak256 toUtf8Bytes es) (he : Encodes toUtf8Bytes)

include hs he

theorem leaves_eq : leaves keccak256 toUtf8Bytes (.array es) = ofStrings (leafList keccak256 toUtf8Bytes es) := by
  rw [leaves, ofStrings, leafList, List.map_map]
  congr 1
  refine List.map_congr_left fun e h => ?_
  obtain ⟨c, v, a⟩ := hs.exists_of_mem h
  simp [a.eventLeaf he]

theorem isHex32_leafList : ∀ leaf ∈ leafList keccak256 toUtf8Bytes es, isHex32 leaf := by
  intro leaf hl
  obtain ⟨e, h, rfl⟩ := List.mem_map.mp hl
  obtain ⟨c, v, a⟩ := hs.exists_of_mem h
  rw [a.eventLeaf he]
  exact isHex32_hashBytes _

theorem sessionHead_eq :
    sessionHead keccak256 toUtf8Bytes (.array es) = .ok (headOf keccak256 toUtf8Bytes es) := by
  have hv := validateSession_eq_ok.mpr ⟨rfl, hs⟩
  have hl : (leafList keccak256 toUtf8Bytes es).length = es.length := List.length_map ..
  rw [sessionHead, hv, ok_bind, hs.leaves_eq he, treeHead_ofStrings <| hs.isHex32_leafList he, hl]
  rfl

omit hs in
theorem getElem_leafList {i : ℕ} (hi : i < es.length) (hl : i < (leafList keccak256 toUtf8Bytes es).length)
    (a : Accepts keccak256 toUtf8Bytes es[i] c v) :
    (leafList keccak256 toUtf8Bytes es)[i] = leafOf keccak256 c v := by
  simp [leafList, a.eventLeaf he]

end IsSession

-- The proof for the event at a position.
def proofOf (keccak256 : Bytes → Bytes32) (toUtf8Bytes : JsString → Except JsString Bytes)
    (es : List Value) (index : Value) (i : ℕ) : Value :=
  object [
    (js "event", tidy ownOrder <| es.getD i undefined),
    (js "inclusion", object [
      (js "leafIndex", index),
      (js "treeSize", nat es.length),
      (js "path", ofStrings <| path keccak256 i <| leafList keccak256 toUtf8Bytes es)
    ])
  ]

-- The object in which an event is checked against the log.
def included (leaf : JsString) (inc : Value) : Value :=
  object [
    (js "leaf", string leaf),
    (js "leafIndex", inc.get "leafIndex"),
    (js "treeSize", inc.get "treeSize"),
    (js "path", inc.get "path")
  ]

theorem verifyEvent_eq_ok (he : Encodes toUtf8Bytes) : verifyEvent keccak256 toUtf8Bytes proof head = .ok r ↔
    proof.isObject ∧ (proof.get "inclusion").isObject ∧
    ∃ c v, Accepts keccak256 toUtf8Bytes (proof.get "event") c v ∧
      ((proof.get "inclusion").get "leafIndex").toInt? = some (c.seq : ℤ) ∧
      verifyInclusion keccak256 (included (leafOf keccak256 c v) <| proof.get "inclusion") head ∧
      r = ((proof.get "event").get "seq", v.redacted) := by
  constructor
  case mp =>
    intro h
    rw [verifyEvent] at h
    by_cases ho : proof.isObject
    case neg => simp [ho] at h
    case pos =>
      cases hv : validateEvent keccak256 toUtf8Bytes (proof.get "event")
      case error => simp [ho, hv] at h
      case ok v =>
        obtain ⟨c, a⟩ := validateEvent_eq_ok.mp hv
        by_cases hi : (proof.get "inclusion").isObject
        case neg => simp [ho, hv, hi] at h
        case pos =>
          by_cases hq : ((proof.get "inclusion").get "leafIndex").toInt? = some (c.seq : ℤ)
          case neg => simp [ho, hv, hi, a.seq, Ne.symm hq] at h
          case pos =>
            by_cases hc : verifyInclusion keccak256 (included (leafOf keccak256 c v) <| proof.get "inclusion") head
            case neg =>
              rw [included] at hc
              simp [ho, hv, hi, a.seq, hq, a.eventLeaf he, hc] at h
            case pos =>
              have hc' := hc
              rw [included] at hc'
              simp only [ho, hv, hi, a.seq, hq, a.eventLeaf he, hc', not_true_eq_false, ne_eq, if_false, ok_bind,
                pure_eq, Except.ok.injEq] at h
              exact ⟨ho, hi, c, v, a, hq, hc, h.symm⟩
  case mpr =>
    rintro ⟨ho, hi, c, v, a, hq, hc, rfl⟩
    rw [included] at hc
    simp [verifyEvent, ho, hi, validateEvent_eq_ok.mpr ⟨c, a⟩, a.seq, hq, a.eventLeaf he, hc]

theorem eventAt_eq_some :
    eventAt (.array es) index = some e ↔ ∃ i : ℕ, index.toInt? = some (i : ℤ) ∧ es[i]? = some e := by
  unfold eventAt
  split
  case h_1 h hi =>
    obtain ⟨rfl⟩ := h
    simp [hi]
  case h_2 h =>
    simp only [reduceCtorEq, false_iff, not_exists, not_and]
    exact fun i hi => absurd hi <| h es i rfl

-- The size up to which a growth proof goes.
def lastSize (es : List Value) (second : Value) : Value :=
  if second.isUndefined then nat es.length else second

namespace IsSession

variable (hs : IsSession keccak256 toUtf8Bytes es) (he : Encodes toUtf8Bytes)

include hs he

-- A proof is returned exactly for the positions of the session.
theorem proveEvent_eq_ok (hd : ∀ e ∈ es, OfDoubles e) :
    proveEvent keccak256 toUtf8Bytes (.array es) index = .ok proof ↔
      ∃ i : ℕ, index.toInt? = some (i : ℤ) ∧ i < es.length ∧ proof = proofOf keccak256 toUtf8Bytes es index i := by
  have hv := validateSession_eq_ok.mpr ⟨rfl, hs⟩
  rw [proveEvent, hv, ok_bind]
  cases ha : eventAt (.array es) index
  case none =>
    simp only [throw_eq, reduceCtorEq, false_iff]
    rintro ⟨i, hi, hl, -⟩
    simp [eventAt_eq_some.mpr ⟨i, hi, List.getElem?_eq_getElem hl⟩] at ha
  case some e =>
    obtain ⟨i, hi, he'⟩ := eventAt_eq_some.mp ha
    obtain ⟨hl, rfl⟩ := List.getElem?_eq_some_iff.mp he'
    obtain ⟨c, v, a, _⟩ := hs i hl
    have hsr := a.serializable <| hd _ <| List.getElem_mem hl
    have hp : (stringify es[i]).bind parse = some (tidy ownOrder es[i]) := by
      rw [stringify_eq hsr, Option.bind_some, parse_render <| plain_tidy ownOrder_perm hsr]
    have hi' : i < (leafList keccak256 toUtf8Bytes es).length := by simpa [leafList] using hl
    have hlen : (leafList keccak256 toUtf8Bytes es).length = es.length := List.length_map ..
    simp only [hs.leaves_eq he, inclusionProof_eq (hs.isHex32_leafList he) hi hi', hp, isNull, hlen, pure_eq,
      Except.ok.injEq]
    constructor
    case mp =>
      rintro rfl
      refine ⟨i, hi, hl, ?_⟩
      rw [proofOf, List.getD_eq_getElem _ _ hl]
      rfl
    case mpr =>
      rintro ⟨j, hj, -, rfl⟩
      obtain rfl : i = j := by
        rw [hi] at hj
        exact_mod_cast Option.some.inj hj
      rw [proofOf, List.getD_eq_getElem _ _ hl]
      rfl

-- The proof for an event is accepted.
theorem verifyEvent_proofOf (hd : ∀ e ∈ es, OfDoubles e) {i : ℕ} (hi : index.toInt? = some (i : ℤ))
    (hl : i < es.length) :
    ∃ r, verifyEvent keccak256 toUtf8Bytes (proofOf keccak256 toUtf8Bytes es index i)
      (headOf keccak256 toUtf8Bytes es) = .ok r := by
  obtain ⟨c, v, a, hq⟩ := hs i hl
  have hh := hs.isHex32_leafList he
  have hi' : i < (leafList keccak256 toUtf8Bytes es).length := by simpa [leafList] using hl
  have hlen : (leafList keccak256 toUtf8Bytes es).length = es.length := List.length_map ..
  have hp := inclusionProof_accepted keccak256 hh hi hi' |>.right
  rw [inclusionProof_eq hh hi hi', getElem_leafList he hl hi' a, treeHead_ofStrings hh, hlen] at hp
  refine ⟨_, verifyEvent_eq_ok he |>.mpr ⟨rfl, rfl, c, v, ?_, hq ▸ hi, ?_, rfl⟩⟩
  · have := a.tidy (hd _ <| List.getElem_mem hl) ownOrder_perm
    rwa [←List.getD_eq_getElem es undefined hl] at this
  · rw [verifyInclusion_head isHead_headOf]
    exact hp

theorem proveGrowth_eq_ok : proveGrowth keccak256 toUtf8Bytes (.array es) first second = .ok proof ↔
    ∃ m n : ℕ, first.toInt? = some (m : ℤ) ∧ (lastSize es second).toInt? = some (n : ℤ) ∧ 1 ≤ m ∧ m ≤ n ∧
      n ≤ es.length ∧ proof = JournalLog.consistencyProof keccak256
        (ofStrings <| leafList keccak256 toUtf8Bytes es) first (lastSize es second) := by
  have hv := validateSession_eq_ok.mpr ⟨rfl, hs⟩
  have hlast : (if second.isUndefined then nat es.length else second) = lastSize es second := rfl
  have hlen : (leafList keccak256 toUtf8Bytes es).length = es.length := List.length_map ..
  rw [proveGrowth, hv, ok_bind]
  simp only [hs.leaves_eq he, hlast]
  cases hm : first.toInt?
  case none => simp
  case some p =>
    cases hn : (lastSize es second).toInt?
    case none => simp
    case some q =>
      by_cases hr : p < 1 ∨ q < p ∨ es.length < q
      case pos =>
        simp only [hr, if_true, throw_eq, error_bind, reduceCtorEq, false_iff, not_exists, Option.some.injEq]
        omega
      case neg =>
        lift p to ℕ using by omega
        lift q to ℕ using by omega
        have ⟨hc, _⟩ := consistencyProof_accepted keccak256 (hs.isHex32_leafList he) hm hn
          (by omega) (by omega) (by omega)
        simp only [hr, Bool.false_eq_true, if_false, mt isNull_iff.mp hc, pure_eq, Except.ok.injEq,
          Option.some.injEq, Nat.cast_inj]
        constructor
        · rintro rfl
          exact ⟨p, q, rfl, rfl, by omega, by omega, by omega, rfl⟩
        · rintro ⟨_, _, -, -, -, -, -, rfl⟩
          rfl

-- A growth proof is accepted for the heads of the two parts.
theorem verifyGrowth_accepted {m n : ℕ} (hm : first.toInt? = some (m : ℤ))
    (hn : last.toInt? = some (n : ℤ)) (h₁ : 1 ≤ m) (h : m ≤ n) (hl : n ≤ es.length) :
    verifyGrowth keccak256 (headOf keccak256 toUtf8Bytes <| es.take m) (headOf keccak256 toUtf8Bytes <| es.take n)
      (JournalLog.consistencyProof keccak256 (ofStrings <| leafList keccak256 toUtf8Bytes es) first last) = .ok () := by
  have hh := hs.isHex32_leafList he
  have hlen : (leafList keccak256 toUtf8Bytes es).length = es.length := List.length_map ..
  have ht (k) : ∀ leaf ∈ (leafList keccak256 toUtf8Bytes es).take k, isHex32 leaf :=
    fun _ hl => hh _ <| List.mem_of_mem_take hl
  have hk (k) : leafList keccak256 toUtf8Bytes (es.take k) = (leafList keccak256 toUtf8Bytes es).take k :=
    List.map_take
  have hc := consistencyProof_accepted keccak256 hh hm hn h₁ h (hlen ▸ hl) |>.right
  rw [treeHead_ofStrings (ht m), treeHead_ofStrings (ht n), List.length_take_of_le (by omega),
    List.length_take_of_le (by omega)] at hc
  have hho (k) (hk' : k ≤ es.length) : IsHead (headOf keccak256 toUtf8Bytes <| es.take k) k
      (string <| mth keccak256 <| (leafList keccak256 toUtf8Bytes es).take k) := by
    have := @isHead_headOf keccak256 toUtf8Bytes (es.take k)
    rwa [List.length_take_of_le hk', hk] at this
  have ho : (JournalLog.consistencyProof keccak256 (ofStrings <| leafList keccak256 toUtf8Bytes es) first last).isObject := by
    rw [consistencyProof_eq hh hm hn h₁ h (hlen ▸ hl)]
    rfl
  simp [verifyGrowth, ho, verifyConsistency_head (hho m <| h.trans hl) (hho n hl), hc]

end IsSession

end AgentSession
