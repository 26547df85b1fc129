import Verifyhash.Hash.Keccak
import Verifyhash.Journal.Theorems.Canonicalize

namespace Journal

open Json Value Fallible Hex Unicode

-- The fields of an entry which its hash covers.
def covered : List String :=
  ["seq", "prevHash", "ts", "artifact", "verdict"]

-- The bytes which are hashed for an entry whose covered fields have a text.
def entryInput (e : Value) : Bytes :=
  bufferFrom <| render <| tidy sortedOrder <| preimage e

section

variable {keccak256 : Bytes → Bytes32} {toUtf8Bytes : JsString → Except JsString Bytes} {e : Value}

theorem serializable_preimage (h : ∀ key ∈ covered, e.get key ≠ undefined → Serializable (e.get key)) :
    Serializable (preimage e) := by
  simp only [covered, List.forall_mem_cons] at h
  refine .of_fields ?_
  simp only [List.forall_mem_cons, List.not_mem_nil, false_imp_iff, implies_true, and_true]
  exact ⟨fun _ => .string, h.1, h.2.1, h.2.2.1, h.2.2.2.1, h.2.2.2.2.1⟩

-- The text covers exactly the covered fields.
theorem tidy_preimage_iff : tidy sortedOrder (preimage d) = tidy sortedOrder (preimage e) ↔
    ∀ key ∈ covered, tidy sortedOrder (d.get key) = tidy sortedOrder (e.get key) := by
  constructor
  case mp =>
    intro h key hk
    have hp (e : Value) : (preimage e).get key = e.get key := by
      simp only [covered, List.mem_cons, List.not_mem_nil, or_false] at hk
      rcases hk with rfl | rfl | rfl | rfl | rfl <;> rfl
    rw [←hp d, ←hp e, ←get_tidy sortedOrder_perm, h, get_tidy sortedOrder_perm]
  case mpr =>
    intro h
    simp only [covered, List.forall_mem_cons] at h
    simp only [preimage, tidy, tidyFields_eq, List.map_cons, List.map_nil, tidyField_congr h.1,
      tidyField_congr h.2.1, tidyField_congr h.2.2.1, tidyField_congr h.2.2.2.1, tidyField_congr h.2.2.2.2.1]

theorem tidy_preimage_tidy (ho : ∀ ks, (order ks).Perm ks) :
    tidy sortedOrder (preimage <| tidy order e) = tidy sortedOrder (preimage e) :=
  tidy_preimage_iff.mpr fun key _ => by rw [get_tidy ho, tidy_tidy ho]

variable (keccak256) in
theorem computeEntryHash_eq (he : Encodes toUtf8Bytes) (h : Serializable (preimage e)) :
    computeEntryHash keccak256 toUtf8Bytes e = .ok (hashBytes keccak256 <| entryInput e) := by
  have hw := printable_render (plain_tidy sortedOrder_perm h) |>.wellFormed
  rw [computeEntryHash, canonicalize_eq h, ok_bind, he.eq_ok hw]
  rfl

-- The conditions under which an entry is the next one.
structure Follows (keccak256 : Bytes → Bytes32) (toUtf8Bytes : JsString → Except JsString Bytes)
    (prev : JsString) (i : ℕ) (e : Value) (hash : JsString) : Prop where
  isObject  : e.isObject
  seq       : (e.get "seq").toInt? = some (i : ℤ)
  prevHash  : e.get "prevHash" = string prev
  prevHex   : isHex32 prev
  entryHash : e.get "entryHash" = string hash
  entryHex  : isHex32 hash
  verdict   : e.has "verdict"
  computed  : computeEntryHash keccak256 toUtf8Bytes e = .ok hash

theorem entryShapeError_eq_none : entryShapeError e = none ↔ e.isObject ∧
    (e.get "seq").toInt?.any (0 ≤ ·) ∧ (e.get "prevHash").hex32?.isSome ∧
    (e.get "entryHash").hex32?.isSome ∧ e.has "verdict" := by
  rw [entryShapeError]
  split_ifs <;> simp_all

theorem checkEntry_eq_sound : checkEntry keccak256 toUtf8Bytes prev i e = .ok (.sound h) ↔
    Follows keccak256 toUtf8Bytes prev i e h := by
  constructor
  case mp =>
    intro hc
    rw [checkEntry] at hc
    split at hc
    case h_1 => simp at hc
    case h_2 hs =>
      have ⟨ho, _, hp, hh, hv⟩ := entryShapeError_eq_none.mp hs
      split_ifs at hc with hi hq hz
      · simp at hc
      · simp at hc
      · simp at hc
      · obtain ⟨r, hr, hc⟩ := bind_eq_ok.mp hc
        split_ifs at hc with ht
        · simp at hc
        · have hq := toString?_eq_some.mp <| not_not.mp hq
          have ht := toString?_eq_some.mp <| not_not.mp ht
          obtain rfl : r = h := by simpa using hc
          rw [hex32?_isSome_iff] at hp hh
          obtain ⟨_, hp, hpx⟩ := hp
          obtain ⟨_, hh, hhx⟩ := hh
          obtain rfl := string.inj <| hq.symm.trans hp
          obtain rfl := string.inj <| ht.symm.trans hh
          exact ⟨ho, not_not.mp hi, hq, hpx, ht, hhx, hv, hr⟩
  case mpr =>
    intro f
    have hs : entryShapeError e = none := by
      refine entryShapeError_eq_none.mpr ⟨f.isObject, ?_, ?_, ?_, f.verdict⟩
      · simp [f.seq]
      · exact hex32?_isSome_iff.mpr ⟨_, f.prevHash, f.prevHex⟩
      · exact hex32?_isSome_iff.mpr ⟨_, f.entryHash, f.entryHex⟩
    rw [checkEntry, hs]
    simp [f.seq, f.prevHash, f.computed, f.entryHash, toString?]

-- The checks of a journal are those of its first part, and then those of the rest.
theorem verifyFrom_append : verifyFrom keccak256 toUtf8Bytes prev i (es₁ ++ es₂) =
    (verifyFrom keccak256 toUtf8Bytes prev i es₁).bind fun
      | .ok count head   => verifyFrom keccak256 toUtf8Bytes head count es₂
      | .broken k reason => .ok <| .broken k reason := by
  induction es₁ generalizing prev i
  case nil => rfl
  case cons e es ih =>
    simp only [List.cons_append, verifyFrom]
    rcases checkEntry keccak256 toUtf8Bytes prev i e with _ | _ | _
    case ok.sound => exact ih
    all_goals rfl

theorem verifyFrom_concat (hv : verifyFrom keccak256 toUtf8Bytes prev i es = .ok (.ok n h))
    (f : Follows keccak256 toUtf8Bytes h n e h') :
    verifyFrom keccak256 toUtf8Bytes prev i (es ++ [e]) = .ok (.ok (n + 1) h') := by
  rw [verifyFrom_append, hv]
  simp [Except.bind, verifyFrom, checkEntry_eq_sound.mpr f]

-- An entry which follows another one.
theorem Follows.nextLink (f : Follows keccak256 toUtf8Bytes prev i e h) (hi : i + 1 < 2 ^ 53) :
    nextLink keccak256 e = .ok (nat (i + 1), string h) := by
  have hs : succ (e.get "seq") = nat (i + 1) := by
    have := Double.round_eq <| Double.isDouble_natCast hi
    simp only [Nat.cast_add, Nat.cast_one] at this
    simp [succ, f.seq, nat, Number.ofNat, ofRational_of_some this]
  have he : entryShapeError e = none := by
    refine entryShapeError_eq_none.mpr ⟨f.isObject, ?_, ?_, ?_, f.verdict⟩
    · simp [f.seq]
    · exact hex32?_isSome_iff.mpr ⟨_, f.prevHash, f.prevHex⟩
    · exact hex32?_isSome_iff.mpr ⟨_, f.entryHash, f.entryHex⟩
  obtain ⟨fields, rfl⟩ := isObject_iff.mp f.isObject
  simp only [Journal.nextLink, he, hs, f.entryHash]

-- The observations which have a text.
structure IsObservation (o : Value) : Prop where
  isObject : o.isObject
  verdict  : Serializable (o.get "verdict")
  artifact : o.get "artifact" ≠ undefined → Serializable (o.get "artifact")
  ts       : o.get "ts" ≠ undefined → Serializable (o.get "ts")

-- `v === undefined ? null : v`
def orNull (v : Value) : Value :=
  if v.isUndefined then null else v

theorem serializable_orNull (h : v ≠ undefined → Serializable v) : Serializable (orNull v) := by
  rw [orNull]
  split_ifs with hu
  · exact .null
  · exact h fun hv => hu <| isUndefined_iff.mpr hv

-- The entry for an observation, without its hash.
def linkFields (n : ℕ) (prev : JsString) (o : Value) : List (JsString × Value) :=
  [(js "seq", nat n), (js "prevHash", string prev), (js "ts", orNull <| o.get "ts"),
    (js "artifact", orNull <| o.get "artifact"), (js "verdict", tidy sortedOrder <| o.get "verdict")]

def entryOf (keccak256 : Bytes → Bytes32) (n : ℕ) (prev : JsString) (o : Value) : Value :=
  object <| linkFields n prev o ++
    [(js "entryHash", string <| hashBytes keccak256 <| entryInput <| object <| linkFields n prev o)]

theorem plain_serializable (h : Plain v) : Serializable v := by
  induction v using Value.ind
  case undefined => cases h
  case null   => exact .null
  case bool   => exact .bool
  case number =>
    rcases h with _ | _ | hq
    exact .number hq
  case string => exact .string
  case array ih =>
    rcases h with _ | _ | _ | _ | h
    exact .array fun v hv => ih v hv <| h v hv
  case object ih =>
    rcases h with _ | _ | _ | _ | _ | ⟨_, h⟩
    exact .of_fields fun f hf _ => ih f hf <| h f hf

theorem serializable_nat (h : n < 2 ^ 53) : Serializable (nat n) :=
  .number <| Double.isDouble_natCast h

theorem serializable_linkFields (ho : IsObservation o) (hn : n < 2 ^ 53) :
    ∀ f ∈ linkFields n prev o, Serializable f.snd := by
  simp only [linkFields, List.forall_mem_cons, List.not_mem_nil, false_imp_iff, implies_true, and_true]
  exact ⟨serializable_nat hn, .string, serializable_orNull ho.ts, serializable_orNull ho.artifact,
    plain_serializable <| plain_tidy sortedOrder_perm ho.verdict⟩

theorem deepCloneJson_eq (h : Serializable v) : deepCloneJson v = .ok (tidy sortedOrder v) := by
  have hu : ¬ v.isUndefined := fun hu => h.ne_undefined <| isUndefined_iff.mp hu
  simp [deepCloneJson, hu, canonicalize_eq h, parse_render <| plain_tidy sortedOrder_perm h]

-- What an append returns.
theorem appendEntry_eq (he : Encodes toUtf8Bytes) (ho : IsObservation o) (hn : n < 2 ^ 53)
    (hl : nextLink keccak256 prior = .ok (nat n, string prev)) :
    appendEntry keccak256 toUtf8Bytes prior o = .ok (entryOf keccak256 n prev o) := by
  have hu := ho.verdict.ne_undefined
  have hu' : (o.get "verdict").isUndefined = false := by rwa [←Bool.not_eq_true, isUndefined_iff]
  have hs : ∀ f ∈ linkFields n prev o, Serializable f.snd := serializable_linkFields ho hn
  have hc := computeEntryHash_eq keccak256 he <|
    serializable_preimage (e := object <| linkFields n prev o)
    fun key _ hu => (Serializable.of_fields fun f hf _ => hs f hf).get hu
  simp only [appendEntry, ho.isObject, not_true_eq_false, ↓reduceIte, has_of_get hu, hu', Bool.false_eq_true, hl,
    deepCloneJson_eq ho.verdict, List.cons_append, List.nil_append, pure_eq, ok_bind]
  change (computeEntryHash keccak256 toUtf8Bytes (object <| linkFields n prev o) >>= _) = _
  rw [hc]
  rfl

variable (keccak256) in
theorem entryOf_follows (he : Encodes toUtf8Bytes) (ho : IsObservation o) (hn : n < 2 ^ 53)
    (hp : isHex32 prev) : ∃ hash, Follows keccak256 toUtf8Bytes prev n (entryOf keccak256 n prev o) hash := by
  have hs : ∀ f ∈ linkFields n prev o, Serializable f.snd := serializable_linkFields ho hn
  have hc := computeEntryHash_eq keccak256 he <|
    serializable_preimage (e := object <| linkFields n prev o)
    fun key _ hu => (Serializable.of_fields fun f hf _ => hs f hf).get hu
  exact ⟨_, rfl, toInt?_nat, rfl, hp, rfl, isHex32_hashBytes _, rfl, hc⟩

-- What a journal which is only appended to is like.
structure Grown (keccak256 : Bytes → Bytes32) (toUtf8Bytes : JsString → Except JsString Bytes)
    (entries : List Value) (head : JsString) : Prop where
  verified     : verifyFrom keccak256 toUtf8Bytes (GENESIS_PREV_HASH keccak256) 0 entries =
    .ok (.ok entries.length head)
  next         : entries.length < 2 ^ 53 →
    nextLink keccak256 (lastEntry entries) = .ok (nat entries.length, string head)
  isHex32      : isHex32 head
  last         : entries ≠ [] → (lastEntry entries).get "entryHash" = string head
  serializable : ∀ e ∈ entries, Serializable e
  verdict      : ∀ e ∈ entries, e.get "verdict" ≠ undefined

variable (keccak256) in
theorem Grown.nil : Grown keccak256 toUtf8Bytes [] (GENESIS_PREV_HASH keccak256) where
  verified     := rfl
  next _       := rfl
  isHex32      := isHex32_hashBytes _
  last h       := absurd rfl h
  serializable := by simp
  verdict      := by simp

-- An append keeps the journal sound.
theorem Grown.append (g : Grown keccak256 toUtf8Bytes entries head) (he : Encodes toUtf8Bytes)
    (ho : IsObservation o) (hl : entries.length < 2 ^ 53) :
    ∃ e head', appendEntry keccak256 toUtf8Bytes (lastEntry entries) o = .ok e ∧
      Grown keccak256 toUtf8Bytes (entries ++ [e]) head' := by
  obtain ⟨head', f⟩ := entryOf_follows keccak256 he ho hl g.isHex32
  have hlast {e} : lastEntry (entries ++ [e]) = e := by simp [lastEntry]
  refine ⟨_, head', appendEntry_eq he ho hl (g.next hl), ?_, ?_, f.entryHex, ?_, ?_, ?_⟩
  · rw [List.length_append]
    exact verifyFrom_concat g.verified f
  · intro hn
    rw [hlast, List.length_append] at *
    exact f.nextLink hn
  · intro _
    rw [hlast]
    exact f.entryHash
  · refine List.forall_mem_append.mpr ⟨g.serializable, ?_⟩
    simp only [List.mem_singleton, forall_eq]
    refine .of_fields fun f hf _ => ?_
    rcases List.mem_append.mp hf with hf | hf
    · exact serializable_linkFields ho hl f hf
    · rw [List.mem_singleton.mp hf]
      exact .string
  · refine List.forall_mem_append.mpr ⟨g.verdict, ?_⟩
    simp only [List.mem_singleton, forall_eq]
    exact plain_serializable (plain_tidy sortedOrder_perm ho.verdict) |>.ne_undefined

theorem Grown.appendAll {os : List Value} (g : Grown keccak256 toUtf8Bytes entries head)
    (he : Encodes toUtf8Bytes) (ho : ∀ o ∈ os, IsObservation o) (hl : entries.length + os.length ≤ 2 ^ 53) :
    ∃ entries' head', os.foldlM (appendTo keccak256 toUtf8Bytes) entries = .ok entries' ∧
      entries'.length = entries.length + os.length ∧ Grown keccak256 toUtf8Bytes entries' head' := by
  induction os generalizing entries head
  case nil => exact ⟨entries, head, rfl, rfl, g⟩
  case cons o os ih =>
    have ⟨ho, hos⟩ := List.forall_mem_cons.mp ho
    rw [List.length_cons] at hl
    obtain ⟨e, head', ha, g'⟩ := g.append he ho (by omega)
    have hl' : (entries ++ [e]).length = entries.length + 1 := by simp
    obtain ⟨entries', head'', hf, hn, g''⟩ := ih g' hos (by omega)
    refine ⟨entries', head'', ?_, ?_, g''⟩
    · simpa [List.foldlM_cons, appendTo, ha] using hf
    · rw [hn, hl', List.length_cons]
      omega

-- What is left of an entry in its text is as good as the entry.
theorem Follows.tidy (f : Follows keccak256 toUtf8Bytes prev i e h) (he : Encodes toUtf8Bytes)
    (hs : Serializable e) (hv : e.get "verdict" ≠ undefined) :
    Follows keccak256 toUtf8Bytes prev i (tidy sortedOrder e) h where
  isObject  := by rw [isObject_tidy, f.isObject]
  seq       := by rw [get_tidy sortedOrder_perm, toInt?_tidy, f.seq]
  prevHash  := by rw [get_tidy sortedOrder_perm, f.prevHash]; rfl
  prevHex   := f.prevHex
  entryHash := by rw [get_tidy sortedOrder_perm, f.entryHash]; rfl
  entryHex  := f.entryHex
  verdict   := by
    apply has_of_get
    rw [get_tidy sortedOrder_perm]
    exact plain_serializable (plain_tidy sortedOrder_perm <| hs.get hv) |>.ne_undefined
  computed  := by
    have hp := plain_serializable <| plain_tidy sortedOrder_perm hs
    rw [computeEntryHash_eq keccak256 he <| serializable_preimage fun _ _ hu => hp.get hu, entryInput,
      tidy_preimage_tidy sortedOrder_perm, ←entryInput,
      ←computeEntryHash_eq keccak256 he <| serializable_preimage fun _ _ hu => hs.get hu, f.computed]

theorem verifyFrom_cons : verifyFrom keccak256 toUtf8Bytes prev i (e :: es) = .ok (.ok n head) ↔
    ∃ h, Follows keccak256 toUtf8Bytes prev i e h ∧
      verifyFrom keccak256 toUtf8Bytes h (i + 1) es = .ok (.ok n head) := by
  simp only [←checkEntry_eq_sound, verifyFrom]
  rcases checkEntry keccak256 toUtf8Bytes prev i e with _ | _ | _
  all_goals simp [bind, Except.bind]

theorem verifyFrom_tidy (he : Encodes toUtf8Bytes) (hs : ∀ e ∈ es, Serializable e)
    (hv : ∀ e ∈ es, e.get "verdict" ≠ undefined)
    (h : verifyFrom keccak256 toUtf8Bytes prev i es = .ok (.ok n head)) :
    verifyFrom keccak256 toUtf8Bytes prev i (es.map <| tidy sortedOrder) = .ok (.ok n head) := by
  induction es generalizing prev i
  case nil => exact h
  case cons e es ih =>
    have ⟨hse, hs⟩ := List.forall_mem_cons.mp hs
    have ⟨hve, hv⟩ := List.forall_mem_cons.mp hv
    obtain ⟨_, f, h⟩ := verifyFrom_cons.mp h
    exact verifyFrom_cons.mpr ⟨_, f.tidy he hse hve, ih hs hv h⟩

theorem Follows.of_mem (h : verifyFrom keccak256 toUtf8Bytes prev i es = .ok (.ok n head)) (he : e ∈ es) :
    ∃ prev i hash, Follows keccak256 toUtf8Bytes prev i e hash := by
  induction es generalizing prev i
  case nil => simp at he
  case cons d es ih =>
    obtain ⟨_, f, h⟩ := verifyFrom_cons.mp h
    rcases List.mem_cons.mp he with rfl | he
    · exact ⟨_, _, _, f⟩
    · exact ih h he

end

section

variable {syntaxError : JsString → JsString} {journalPath : JsString}

theorem readLine_render (hp : Plain v) (ho : v.isObject) :
    readLine syntaxError journalPath (render v) i = .ok (some v) := by
  obtain ⟨fields, rfl⟩ := isObject_iff.mp ho
  have hb : (render <| object fields).all isBlank = false := rfl
  rw [readLine, hb, parse_render hp]
  rfl

-- A file of texts, one in each line, is read back.
theorem readJournalFile_lines (h : ∀ v ∈ vs, Plain v ∧ v.isObject) :
    readJournalFile syntaxError journalPath (vs.map fun v => render v ++ js "\n").flatten = .ok vs := by
  have hl (f : JsString × ℕ → Except JsString (Option Value))
      (hf : ∀ p, f p = readLine syntaxError journalPath p.fst p.snd) (i : ℕ) :
      (((vs.map fun v => render v ++ js "\n").flatten.splitOn 10).zipIdx i).mapM f =
        .ok (vs.map some ++ [none]) := by
    induction vs generalizing i
    case nil =>
      change [(([] : JsString), i)].mapM f = _
      rw [List.mapM_cons, hf]
      rfl
    case cons v vs ih =>
      obtain ⟨⟨hp, ho⟩, h⟩ := List.forall_mem_cons.mp h
      have hn : 10 ∉ render v := fun hm => absurd (printable_render hp |>.le _ hm) (by decide)
      have ht : ((v :: vs).map fun v => render v ++ js "\n").flatten =
          render v ++ 10 :: (vs.map fun v => render v ++ js "\n").flatten := by
        simp [js]
      rw [ht, List.splitOn_append_cons_self_of_not_mem hn, List.zipIdx_cons, List.mapM_cons, ih h, hf]
      simp [readLine_render hp ho]
  rw [readJournalFile, hl _ (fun _ => rfl) 0]
  simp [List.reduceOption, List.filterMap_append, List.filterMap_map]

end

-- Every journal which is only appended to is accepted, as is what is read back from its file.
theorem appendAll_verified {observations : List Value} (he : Encodes toUtf8Bytes)
    (ho : ∀ o ∈ observations, IsObservation o) (hl : observations.length ≤ 2 ^ 53) :
    ∃ entries head, appendAll keccak256 toUtf8Bytes observations = .ok entries ∧
      verifyJournal keccak256 toUtf8Bytes (.array entries) = .ok (.ok observations.length head) ∧
      (entries ≠ [] → (lastEntry entries).get "entryHash" = string head) ∧
      ∃ lines parsed, entries.mapM journalLine = .ok lines ∧
        readJournalFile syntaxError journalPath lines.flatten = .ok parsed ∧
        verifyJournal keccak256 toUtf8Bytes (.array parsed) = .ok (.ok observations.length head) := by
  obtain ⟨entries, head, ha, hn, g⟩ := (Grown.nil keccak256).appendAll he ho (by simpa using hl)
  rw [List.length_nil, Nat.zero_add] at hn
  have hv := hn ▸ g.verified
  have hj : entries.mapM journalLine =
      .ok ((entries.map <| tidy sortedOrder).map fun v => render v ++ js "\n") := by
    rw [List.map_map]
    exact mapM_eq_ok fun e he => by rw [journalLine, canonicalize_eq <| g.serializable e he]; rfl
  have hr : ∀ v ∈ entries.map (tidy sortedOrder), Plain v ∧ v.isObject := by
    simp only [List.forall_mem_map]
    intro e he
    obtain ⟨_, _, _, f⟩ := Follows.of_mem g.verified he
    exact ⟨plain_tidy sortedOrder_perm <| g.serializable e he, by rw [isObject_tidy, f.isObject]⟩
  exact ⟨entries, head, ha, hv, g.last, _, _, hj, readJournalFile_lines hr,
    verifyFrom_tidy he g.serializable g.verdict hv⟩

-- An observation whose text differs from the value in the order of keys, in a field and in a sign.
def observation : Value :=
  object [
    (js "verdict", object [(js "b", array [number .negZero, null]), (js "a", nat 3), (js "c", undefined)]),
    (js "ts", string <| js "12:00\n")
  ]

theorem isObservation_observation : IsObservation observation where
  isObject   := rfl
  verdict    := by
    refine .of_fields ?_
    simp only [List.forall_mem_cons, List.not_mem_nil, false_imp_iff, implies_true, and_true]
    refine ⟨fun _ => .array ?_, fun _ => serializable_nat (by decide), fun h => absurd rfl h⟩
    simp only [List.forall_mem_cons, List.not_mem_nil, false_imp_iff, implies_true, and_true]
    exact ⟨.negZero, .null⟩
  artifact h := absurd rfl h
  ts _       := .string

theorem appendAll_verified_observation :
    ∃ entries head, appendAll Keccak.keccak256 strictUtf8 [observation, observation] = .ok entries ∧
      verifyJournal Keccak.keccak256 strictUtf8 (.array entries) = .ok (.ok 2 head) ∧
      (entries ≠ [] → (lastEntry entries).get "entryHash" = string head) ∧
      ∃ lines parsed, entries.mapM journalLine = .ok lines ∧
        readJournalFile id (js "journal") lines.flatten = .ok parsed ∧
        verifyJournal Keccak.keccak256 strictUtf8 (.array parsed) = .ok (.ok 2 head) :=
  appendAll_verified encodes_strictUtf8 (by simp [isObservation_observation]) (by decide)

end Journal
