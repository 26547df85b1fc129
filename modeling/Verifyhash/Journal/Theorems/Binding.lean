import Verifyhash.Journal.Theorems.Chain
import Verifyhash.Library.HashChain

namespace Journal

open Json Value Fallible Hex Unicode HashChain

section

variable (keccak256 : Bytes → Bytes32) (toUtf8Bytes : JsString → Except JsString Bytes)

def Accepted (entries : List Value) : Prop :=
  ∃ count head, verifyJournal keccak256 toUtf8Bytes (.array entries) = .ok (.ok count head)

-- What is hashed for the genesis constant and in a walk over a journal.
def verifyJournalInputs (entries : List Value) : List Bytes :=
  .ofAscii GENESIS_DOMAIN :: entries.filterMap fun e => do
    let bytes ← (canonicalize (preimage e) >>= toUtf8Bytes).toOption
    return bytes

-- The hash of a preimage with sorted keys, and the hash which it names.
def digest (v : Value) : Value :=
  string <| hashBytes keccak256 <| bufferFrom <| render v

def previous (v : Value) : Value :=
  v.get "prevHash"

end

section

variable {keccak256 : Bytes → Bytes32} {toUtf8Bytes : JsString → Except JsString Bytes}

theorem input_mem (he : Encodes toUtf8Bytes) (hs : ∀ e ∈ es, Serializable e)
    (hv : v ∈ es.map fun e => tidy sortedOrder (preimage e)) :
    Plain v ∧ bufferFrom (render v) ∈ verifyJournalInputs toUtf8Bytes es ∧ v.isObject := by
  obtain ⟨e, hm, rfl⟩ := List.mem_map.mp hv
  have hp := serializable_preimage fun key _ hu => (hs e hm).get hu
  have hw := printable_render (plain_tidy sortedOrder_perm hp) |>.wellFormed
  refine ⟨plain_tidy sortedOrder_perm hp, List.mem_cons_of_mem _ ?_, rfl⟩
  refine List.mem_filterMap.mpr ⟨e, hm, ?_⟩
  rw [canonicalize_eq hp, ok_bind, he.eq_ok hw]
  rfl

theorem linked_of_accepted (he : Encodes toUtf8Bytes) (hs : ∀ e ∈ es, Serializable e)
    (h : verifyFrom keccak256 toUtf8Bytes prev i es = .ok (.ok n head)) :
    Linked (digest keccak256) previous (string prev) (es.map fun e => tidy sortedOrder (preimage e))
      (string head) := by
  induction es generalizing prev i
  case nil =>
    obtain ⟨rfl, rfl⟩ : i = n ∧ prev = head := by simpa [verifyFrom] using h
    rfl
  case cons e es ih =>
    obtain ⟨hse, hs⟩ := List.forall_mem_cons.mp hs
    obtain ⟨hash, f, h⟩ := verifyFrom_cons.mp h
    have hd : digest keccak256 (tidy sortedOrder <| preimage e) = string hash := by
      have := computeEntryHash_eq keccak256 he <|
        serializable_preimage fun key _ hu => hse.get hu
      rw [f.computed] at this
      rw [Except.ok.inj this]
      rfl
    refine ⟨?_, hd ▸ ih hs h⟩
    have : (preimage e).get "prevHash" = string prev := f.prevHash
    rw [previous, get_tidy sortedOrder_perm, this]
    rfl

theorem digest_inj (c : CollisionFree keccak256 is) (hv : Plain v ∧ bufferFrom (render v) ∈ is)
    (hw : Plain w ∧ bufferFrom (render w) ∈ is) (h : digest keccak256 v = digest keccak256 w) : v = w := by
  have hi := c _ hv.right _ hw.right <| hexlify_inj <| string.inj h
  have := bufferFrom_inj (printable_render hv.left).wellFormed (printable_render hw.left).wellFormed hi
  exact render_inj hv.left hw.left this

-- The genesis constant is not the hash of an entry.
theorem digest_ne_genesis (c : CollisionFree keccak256 is) (hg : .ofAscii GENESIS_DOMAIN ∈ is)
    (hv : Plain v ∧ bufferFrom (render v) ∈ is) (ho : v.isObject) :
    digest keccak256 v ≠ string (GENESIS_PREV_HASH keccak256) := by
  intro h
  have hi := c _ hv.right _ hg <| hexlify_inj <| string.inj h
  have ht : Bytes.ofAscii GENESIS_DOMAIN = bufferFrom (js GENESIS_DOMAIN) := by decide
  have hp : Printable (js GENESIS_DOMAIN) := .ascii <| by decide
  have := bufferFrom_inj (printable_render hv.left).wellFormed hp.wellFormed <| hi.trans ht
  obtain ⟨fields, rfl⟩ := isObject_iff.mp ho
  have hh : (render <| object fields).head? = some 123 := rfl
  rw [this] at hh
  exact absurd hh (by decide)

theorem verifyJournal_inj (he : Encodes toUtf8Bytes) (hs : ∀ e ∈ es₁ ++ es₂, Serializable e)
    (c : CollisionFree keccak256 (verifyJournalInputs toUtf8Bytes es₁ ++ verifyJournalInputs toUtf8Bytes es₂))
    (h₁ : verifyJournal keccak256 toUtf8Bytes (.array es₁) = .ok (.ok n₁ head))
    (h₂ : verifyJournal keccak256 toUtf8Bytes (.array es₂) = .ok (.ok n₂ head)) :
    es₁.map (fun e => tidy sortedOrder (preimage e)) = es₂.map fun e => tidy sortedOrder (preimage e) := by
  obtain ⟨hs₁, hs₂⟩ := List.forall_mem_append.mp hs
  have hm : ∀ v ∈ es₁.map (fun e => tidy sortedOrder (preimage e)) ++
      es₂.map (fun e => tidy sortedOrder (preimage e)), Plain v ∧ bufferFrom (render v) ∈
        verifyJournalInputs toUtf8Bytes es₁ ++ verifyJournalInputs toUtf8Bytes es₂ ∧ v.isObject := by
    intro v hv
    rcases List.mem_append.mp hv with hv | hv
    · obtain ⟨hp, hi, ho⟩ := input_mem he hs₁ hv
      exact ⟨hp, List.mem_append_left _ hi, ho⟩
    · obtain ⟨hp, hi, ho⟩ := input_mem he hs₂ hv
      exact ⟨hp, List.mem_append_right _ hi, ho⟩
  refine Linked.inj (fun v hv => ?_) (fun v hv w hw h => ?_) (linked_of_accepted he hs₁ h₁)
    (linked_of_accepted he hs₂ h₂)
  · obtain ⟨hp, hi, ho⟩ := hm v hv
    exact digest_ne_genesis c (by simp [verifyJournalInputs]) ⟨hp, hi⟩ ho
  · obtain ⟨hp, hi, _⟩ := hm v hv
    obtain ⟨hq, hj, _⟩ := hm w hw
    exact digest_inj c ⟨hp, hi⟩ ⟨hq, hj⟩ h

-- A journal is rejected for its first entry which does not follow the ones before it.
theorem verifyFrom_eq_broken (h : verifyFrom keccak256 toUtf8Bytes prev i es = .ok (.broken k reason)) :
    ∃ pre e post head, es = pre ++ e :: post ∧ k = i + pre.length ∧
      verifyFrom keccak256 toUtf8Bytes prev i pre = .ok (.ok k head) ∧
      checkEntry keccak256 toUtf8Bytes head k e = .ok (.broken reason) := by
  induction es generalizing prev i
  case nil => simp [verifyFrom] at h
  case cons e es ih =>
    rw [verifyFrom] at h
    rcases hc : checkEntry keccak256 toUtf8Bytes prev i e with _ | hash | r
    case error => simp [hc, bind, Except.bind] at h
    case ok.sound =>
      simp only [hc, ok_bind] at h
      obtain ⟨pre, d, post, head, rfl, rfl, hp, hd⟩ := ih h
      refine ⟨e :: pre, d, post, head, rfl, ?_, ?_, hd⟩
      · rw [List.length_cons]
        omega
      · exact verifyFrom_cons.mpr ⟨hash, checkEntry_eq_sound.mp hc, hp⟩
    case ok.broken =>
      obtain ⟨rfl, rfl⟩ : i = k ∧ r = reason := by simpa [hc] using h
      exact ⟨[], e, es, prev, rfl, rfl, rfl, hc⟩

theorem verifyFrom_left (h : verifyFrom keccak256 toUtf8Bytes prev i (es₁ ++ es₂) = .ok (.ok n head)) :
    ∃ n head, verifyFrom keccak256 toUtf8Bytes prev i es₁ = .ok (.ok n head) := by
  rw [verifyFrom_append] at h
  rcases hv : verifyFrom keccak256 toUtf8Bytes prev i es₁ with _ | m | _
  case ok.ok => exact ⟨m, _, rfl⟩
  all_goals simp [hv, Except.bind] at h

theorem isLeast_brokenAt (h : verifyJournal keccak256 toUtf8Bytes (.array es) = .ok (.broken k reason)) :
    IsLeast {k | ¬ Accepted keccak256 toUtf8Bytes (es.take <| k + 1)} k := by
  obtain ⟨pre, e, post, head, rfl, rfl, hp, hc⟩ := verifyFrom_eq_broken h
  rw [Nat.zero_add] at *
  refine ⟨?_, fun j hj => ?_⟩
  · have ht : (pre ++ e :: post).take (pre.length + 1) = pre ++ [e] := by
      rw [List.take_append, List.take_of_length_le (by omega), Nat.add_sub_cancel_left]
      rfl
    rintro ⟨n, hash, ha⟩
    rw [ht, verifyJournal, verifyFrom_append, hp] at ha
    simp [Except.bind, verifyFrom, hc] at ha
  · by_contra! hlt
    refine hj ?_
    have ht : (pre ++ e :: post).take (j + 1) = pre.take (j + 1) := List.take_append_of_le_length (by omega)
    rw [ht]
    exact verifyFrom_left <| (List.take_append_drop (j + 1) pre).symm ▸ hp

-- The head of a journal fixes what the entries hash, and a rejected journal is sound up to the entry
-- which is reported.
theorem verifyJournal_binds (he : Encodes toUtf8Bytes) :
    (∀ es₁ es₂ n₁ n₂ head, (∀ e ∈ es₁ ++ es₂, Serializable e) →
      CollisionFree keccak256 (verifyJournalInputs toUtf8Bytes es₁ ++ verifyJournalInputs toUtf8Bytes es₂) →
      verifyJournal keccak256 toUtf8Bytes (.array es₁) = .ok (.ok n₁ head) →
      verifyJournal keccak256 toUtf8Bytes (.array es₂) = .ok (.ok n₂ head) →
      es₁.length = es₂.length ∧ ∀ (i : ℕ) (h₁ : i < es₁.length) (h₂ : i < es₂.length), ∀ key ∈ covered,
        tidy sortedOrder (es₁[i].get key) = tidy sortedOrder (es₂[i].get key)) ∧
    (∀ es k reason, verifyJournal keccak256 toUtf8Bytes (.array es) = .ok (.broken k reason) →
      IsLeast {k | ¬ Accepted keccak256 toUtf8Bytes (es.take <| k + 1)} k) := by
  refine ⟨fun es₁ es₂ n₁ n₂ head hs c h₁ h₂ => ?_, fun es k reason => isLeast_brokenAt⟩
  have hm := verifyJournal_inj he hs c h₁ h₂
  refine ⟨by simpa using congrArg List.length hm, fun i hi₁ hi₂ => ?_⟩
  have : (es₁.map fun e => tidy sortedOrder (preimage e))[i]? =
      (es₂.map fun e => tidy sortedOrder (preimage e))[i]? := by rw [hm]
  rw [List.getElem?_map, List.getElem?_map, List.getElem?_eq_getElem hi₁, List.getElem?_eq_getElem hi₂] at this
  exact tidy_preimage_iff.mp <| Option.some.inj this

end

-- The first entry of a journal, without and with its hash.
def firstFields (verdict : Value) : List (JsString × Value) :=
  [(js "verdict", verdict), (js "seq", nat 0), (js "prevHash", string <| GENESIS_PREV_HASH Keccak.keccak256)]

def firstHash (verdict : Value) : JsString :=
  hashBytes Keccak.keccak256 <| entryInput <| object <| firstFields verdict

def firstEntry (verdict : Value) : Value :=
  object <| (js "entryHash", string <| firstHash verdict) :: firstFields verdict

theorem serializable_firstEntry (h : Serializable v) : Serializable (firstEntry v) := by
  refine .of_fields ?_
  simp only [firstFields, List.forall_mem_cons, List.not_mem_nil, false_imp_iff, implies_true, and_true]
  exact ⟨fun _ => .string, fun _ => h, fun _ => serializable_nat (by decide), fun _ => .string⟩

theorem verifyJournal_binds_firstEntry :
    (∀ key ∈ covered, tidy sortedOrder ((firstEntry <| number .negZero).get key) =
      tidy sortedOrder ((firstEntry <| nat 0).get key)) ∧
    IsLeast {k | ¬ Accepted Keccak.keccak256 strictUtf8 ([firstEntry null, null].take <| k + 1)} 1 :=
  have b := @verifyJournal_binds Keccak.keccak256 strictUtf8 encodes_strictUtf8
  have h : CollisionFree Keccak.keccak256 (verifyJournalInputs strictUtf8 [firstEntry <| number .negZero] ++
        verifyJournalInputs strictUtf8 [firstEntry <| nat 0]) ∧
      verifyJournal Keccak.keccak256 strictUtf8 (.array [firstEntry <| number .negZero]) =
        .ok (.ok 1 <| firstHash <| nat 0) ∧
      verifyJournal Keccak.keccak256 strictUtf8 (.array [firstEntry <| nat 0]) = .ok (.ok 1 <| firstHash <| nat 0) := by
    decide +kernel
  have hs : ∀ e ∈ [firstEntry <| number .negZero] ++ [firstEntry <| nat 0], Serializable e := by
    have := serializable_firstEntry <| serializable_nat (n := 0) (by decide)
    simp [this, serializable_firstEntry .negZero]
  ⟨(b.left [firstEntry <| number .negZero] [firstEntry <| nat 0] 1 1 (firstHash <| nat 0) hs h.left h.right.left
    h.right.right).right 0 (by decide) (by decide),
   b.right [firstEntry null, null] 1 (js "entry 1: not an object") (by decide +kernel)⟩

end Journal
