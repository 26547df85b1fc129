import Verifyhash.Cli.Dataset
import Verifyhash.Cli.Theorems.SealRoundTrip

namespace ItemManifest

open Hex Value Json Checks Fallible
open Cli (ManifestCfg inherited pathLeaf)

variable {keccak256 : Bytes → Bytes32} {toUtf8Bytes : JsString → Except JsString Bytes} {sep : UInt16}

section

-- The hints which the validator accepts.
def SoundHints : HintsField → Prop
  | .function => False
  | .value v  => v.isNullish ∨ v.isObject ∧
    ((v.get "source").isUndefined ∨ (v.get "source").toString?.isSome) ∧
    ((v.get "license").isUndefined ∨ (v.get "license").toString?.isSome)

theorem checkHints_eq_ok {h : HintsField} : checkHints file h = .ok () ↔ SoundHints h := by
  cases h
  case function => simp [checkHints, SoundHints]
  case value v =>
    rw [checkHints, SoundHints]
    split_ifs with hn
    · exact ⟨fun _ => .inl hn, fun _ => rfl⟩
    · simp only [bind_eq_ok, require_eq_ok, hn, Bool.false_eq_true, false_or]
      exact ⟨fun ⟨_, ho, _, hs, hl⟩ => ⟨ho, hs, hl⟩, fun ⟨ho, hs, hl⟩ => ⟨(), ho, (), hs, hl⟩⟩

-- The entries which the validator accepts.
structure IsItem (keccak256 : Bytes → Bytes32) (toUtf8Bytes : JsString → Except JsString Bytes) (sep : UInt16)
    (item : Item) (relPath contentHash leaf : JsString) : Prop where
  relPath_eq     : item.relPath = .string relPath
  nonempty       : relPath ≠ []
  contentHash_eq : item.contentHash = .string contentHash
  isContentHash  : isHex32 contentHash
  leaf_eq        : item.leaf = .string leaf
  isLeaf         : isHex32 leaf
  consistent     : ∃ expected, pathLeaf keccak256 toUtf8Bytes sep relPath contentHash = .ok expected ∧
    toLowerCase leaf = toLowerCase expected
  hints          : SoundHints item.hints

def IsEntry (keccak256 : Bytes → Bytes32) (toUtf8Bytes : JsString → Except JsString Bytes) (sep : UInt16)
    (entry : Option Item) : Prop :=
  ∃ item relPath contentHash leaf, entry = some item ∧
    IsItem keccak256 toUtf8Bytes sep item relPath contentHash leaf

theorem checkItem_eq_ok {label : JsString} (seen : List JsString) (entry : Option Item) :
    checkItem keccak256 toUtf8Bytes sep label seen entry = .ok () ↔
      IsEntry keccak256 toUtf8Bytes sep entry ∧ itemPath entry ∉ seen := by
  simp only [checkItem, bind_eq_ok, require_eq_ok, demand_eq_ok, checkHints_eq_ok, hex32?_eq_some,
    Option.filter_eq_some_iff, toString?_eq_some, decide_eq_true_eq]
  constructor
  case mp =>
    rintro ⟨item, rfl, relPath, ⟨hr, hn⟩, _, hs, contentHash, ⟨hc, hc'⟩, leaf, ⟨hl, hl'⟩, expected, hp, _, he, hh⟩
    refine ⟨⟨item, relPath, contentHash, leaf, rfl, hr, hn, hc, hc', hl, hl', ⟨expected, hp, he⟩, hh⟩, ?_⟩
    rwa [itemPath, Option.bind_some, hr]
  case mpr =>
    rintro ⟨⟨item, relPath, contentHash, leaf, rfl, hr, hn, hc, hc', hl, hl', ⟨expected, hp, he⟩, hh⟩, hs⟩
    rw [itemPath, Option.bind_some, hr] at hs
    exact ⟨item, rfl, relPath, ⟨hr, hn⟩, (), hs, contentHash, ⟨hc, hc'⟩, leaf, ⟨hl, hl'⟩, expected, hp, (), he, hh⟩

-- The manifests which the validator accepts.
structure Accepts (keccak256 : Bytes → Bytes32) (toUtf8Bytes : JsString → Except JsString Bytes) (sep : UInt16)
    (cfg : ManifestCfg) (obj : View) (files : List (Option Item)) : Prop where
  kind          : obj.kind = .string cfg.kind
  schemaVersion : ∃ n ∈ cfg.supportedSchemaVersions, obj.schemaVersion.toInt? = some (n : ℤ)
  root          : ∃ root, obj.root = .string root ∧ isHex32 root
  files_eq      : obj.files = some files
  nonempty      : files ≠ []
  fileCount     : obj.fileCount.isUndefined ∨ obj.fileCount.toInt? = some (files.length : ℤ)
  entries       : ∀ entry ∈ files, IsEntry keccak256 toUtf8Bytes sep entry
  distinct      : (files.map itemPath).Nodup

theorem checkView_eq_ok {cfg : ManifestCfg} {obj : View} {u : Unit} :
    checkView keccak256 toUtf8Bytes sep obj cfg = .ok u ↔
      ∃ files, Accepts keccak256 toUtf8Bytes sep cfg obj files := by
  cases u
  simp only [checkView, bind_eq_ok, require_eq_ok, demand_eq_ok, toString?_eq_some, List.any_eq_true,
    decide_eq_true_eq, hex32?_isSome_iff, Keyed.each_eq_ok checkItem_eq_ok]
  constructor
  case mp =>
    rintro ⟨_, hk, _, hv, _, hr, files, hf, _, hn, _, hc, he, hd, -⟩
    exact ⟨files, hk, hv, hr, hf, hn, hc, he, hd⟩
  case mpr =>
    rintro ⟨files, hk, hv, hr, hf, hn, hc, he, hd⟩
    exact ⟨(), hk, (), hv, (), hr, files, hf, (), hn, (), hc, he, hd, by simp⟩

-- A framing which the validator takes, and whose version has a text.
structure IsCfg (cfg : ManifestCfg) : Prop where
  kind      : cfg.kind ≠ []
  supported : cfg.schemaVersion ∈ cfg.supportedSchemaVersions
  isDouble  : Double.IsDouble cfg.schemaVersion

theorem requireCfg_eq {cfg : ManifestCfg} (h : IsCfg cfg) : requireCfg cfg = .ok () := by
  have hs : cfg.supportedSchemaVersions ≠ [] := List.ne_nil_of_mem h.supported
  simp only [requireCfg, bind_eq_ok, require_eq_ok]
  exact ⟨(), h.kind, hs⟩

theorem validateItemManifest_eq_ok {cfg : ManifestCfg} {obj obj' : Value} (hc : requireCfg cfg = .ok ()) :
    validateItemManifest keccak256 toUtf8Bytes sep obj cfg = .ok obj' ↔
      obj' = obj ∧ obj.isObject ∧ ∃ files, Accepts keccak256 toUtf8Bytes sep cfg (.ofValue obj) files := by
  simp only [validateItemManifest, hc, ok_bind, bind_eq_ok, require_eq_ok, checkView_eq_ok, pure_eq_ok]
  constructor
  · rintro ⟨_, ho, _, hf, he⟩
    exact ⟨he.symm, ho, hf⟩
  · rintro ⟨he, ho, hf⟩
    exact ⟨(), ho, (), hf, he.symm⟩

end

section

-- The hint which an object holds, if it is not empty.
def hintOf (h : Value) : Option Hint :=
  let hint : Hint := ⟨(h.get "source").toString?, (h.get "license").toString?⟩
  if hint.source.isSome ∨ hint.license.isSome then some hint else none

-- The hint which is given for exactly a path.
def givenHint (rawHints : Value) (path : JsString) : Option Hint :=
  match rawHints with
  | .object fields => (fields.lookup path).bind hintOf
  | _              => none

variable {knownPaths : List JsString} {hints hints' : HintMap} {rawHints : Value}

theorem hintField_eq_ok (h : hintField rel v k = .ok s) : s = (v.get k).toString? := by
  rw [hintField] at h
  split_ifs at h with hn
  · obtain rfl := pure_eq_ok.mp h
    cases hv : v.get k <;> simp_all [isNullish, toString?]
  · simp only [bind_eq_ok, demand_eq_ok, pure_eq_ok] at h
    obtain ⟨_, hs, rfl⟩ := h
    exact hs.symm

theorem addHint_eq_ok {raw : JsString × Value} (h : addHint knownPaths hints raw = .ok hints') :
    hints' = ((hintOf raw.snd).map <| hints.assign raw.fst).getD hints := by
  simp only [addHint, bind_eq_ok, pure_eq_ok] at h
  obtain ⟨_, -, _, -, source, hs, license, hl, rfl⟩ := h
  obtain rfl := hintField_eq_ok hs
  obtain rfl := hintField_eq_ok hl
  rw [hintOf]
  split_ifs <;> rfl

-- What is found in the map after an entry is added.
theorem lookup_added {rel : JsString} {o : Option Hint} (p : JsString) :
    ((o.map <| hints.assign rel).getD hints).own.lookup p =
      (hints.own.lookup p).or (if p = js "__proto__" then none else if p = rel then o else none) := by
  cases o
  case none => simp
  case some hint =>
    rw [Option.map_some, Option.getD_some, HintMap.assign]
    by_cases hr : rel = js "__proto__"
    case pos =>
      subst hr
      simp only [if_true]
      split_ifs <;> simp
    case neg =>
      rw [if_neg hr, List.lookup_append]
      congr 1
      by_cases hp : p = rel
      case pos => simp [hp, hr]
      case neg => simp [List.lookup_cons, beq_false_of_ne hp, hp]

theorem prototype_added {rel : JsString} {o : Option Hint} : ((o.map <| hints.assign rel).getD hints).prototype =
    if rel = js "__proto__" then o.or hints.prototype else hints.prototype := by
  cases o
  case none => simp
  case some hint =>
    rw [Option.map_some, Option.getD_some, HintMap.assign]
    split_ifs <;> simp

-- What is found in the map after the entries of an object are added.
theorem foldlM_addHint {es : List (JsString × Value)} (hn : (es.map Prod.fst).Nodup)
    (h : es.foldlM (addHint knownPaths) hints = .ok hints') :
    (∀ p, hints'.own.lookup p =
      (hints.own.lookup p).or (if p = js "__proto__" then none else (es.lookup p).bind hintOf)) ∧
    hints'.prototype = ((es.lookup <| js "__proto__").bind hintOf).or hints.prototype := by
  induction es generalizing hints
  case nil =>
    obtain rfl := pure_eq_ok.mp h
    simp
  case cons e es ih =>
    rw [List.foldlM_cons, bind_eq_ok] at h
    obtain ⟨out, ha, h⟩ := h
    rw [List.map_cons, List.nodup_cons] at hn
    have ⟨ho, hp⟩ := ih hn.right h
    have hl : es.lookup e.fst = none := by simpa using Keyed.lookup_isNone_iff.mpr hn.left
    obtain rfl := addHint_eq_ok ha
    constructor
    case left =>
      intro p
      rw [ho, lookup_added, List.lookup_cons]
      by_cases hk : p = e.fst
      case pos =>
        subst hk
        split_ifs with h₁ h₂
        · simp
        · simp [hl]
        · exact absurd rfl h₂
      case neg => simp [beq_false_of_ne hk, hk]
    case right =>
      rw [hp, prototype_added, List.lookup_cons]
      by_cases hk : js "__proto__" = e.fst
      case pos => simp [hk, hl]
      case neg => simp [beq_false_of_ne hk, Ne.symm hk]

variable (h : normalizeHints rawHints knownPaths = .ok hints)

include h

-- The map holds what is given, and the hint for `__proto__` as its prototype.
theorem of_normalizeHints :
    (∀ p, hints.own.lookup p = if p = js "__proto__" then none else givenHint rawHints p) ∧
    hints.prototype = givenHint rawHints (js "__proto__") := by
  cases rawHints
  case undefined =>
    obtain rfl := pure_eq_ok.mp h
    exact ⟨fun p => by split_ifs <;> rfl, rfl⟩
  case null =>
    obtain rfl := pure_eq_ok.mp h
    exact ⟨fun p => by split_ifs <;> rfl, rfl⟩
  case object fields =>
    have ⟨ho, hp⟩ := foldlM_addHint (Fields.nodup_arrange _ ownOrder_perm) h
    have hl (p : JsString) : (entries fields).lookup p = fields.lookup p := by
      rw [entries, Fields.lookup_arrange ownOrder_perm, Fields.lookup_map]
      cases fields.lookup p <;> rfl
    refine ⟨fun p => ?_, ?_⟩
    · have := ho p
      rwa [← entries, hl] at this
    · rw [← entries, hl] at hp
      rw [hp, HintMap.empty, Option.or_none]
      rfl
  all_goals simp [normalizeHints] at h

-- The hints which are given for exactly a path are attached to the file.
theorem attached_of_given {p : JsString} (hg : givenHint rawHints p = some hint) :
    attached (hints.read p) = some (.value hint.toValue) := by
  have ⟨ho, hp⟩ := of_normalizeHints h
  rw [HintMap.read]
  by_cases hk : p = js "__proto__"
  case pos =>
    subst hk
    have hn : hints.prototype.bind (·.property <| js "__proto__") = none := by
      have hn (hint : Hint) : hint.property (js "__proto__") = none := rfl
      cases hints.prototype <;> simp [hn]
    rw [ho, if_pos rfl, hn, hp, hg]
    rfl
  case neg =>
    rw [ho, if_neg hk, hg]
    rfl

-- The properties of a hint for `__proto__`, which paths without a hint inherit. An empty text is not attached.
def NotInherited (rawHints : Value) (p : JsString) : Prop :=
  inherited p = .undefined ∧
    ∀ hint, givenHint rawHints (js "__proto__") = some hint → (hint.property p).getD [] = []

omit h in
theorem inherited_of_property {hint : Hint} {p : JsString} (hs : hint.property p = some s) :
    inherited p = .undefined := by
  rw [Hint.property] at hs
  split_ifs at hs with h₁ h₂
  · subst h₁
    decide
  · subst h₂
    decide

theorem attached_of_not_given {p : JsString} (hg : givenHint rawHints p = none) :
    attached (hints.read p) = none ↔ NotInherited rawHints p := by
  have ⟨ho, hp⟩ := of_normalizeHints h
  have hl : hints.own.lookup p = none := by
    rw [ho, hg]
    split_ifs <;> rfl
  rw [NotInherited, ← hp, HintMap.read, hl]
  cases hb : hints.prototype.bind (·.property p)
  case none =>
    cases hi : inherited p
    case function => simp [attached]
    case object => cases hints.prototype <;> simp [attached, Hint.toValue, isFalsy]
    case undefined =>
      have he (hint : Hint) (hh : hints.prototype = some hint) : (hint.property p).getD [] = [] := by
        rw [hh, Option.bind_some] at hb
        rw [hb, Option.getD_none]
      simpa [attached, isFalsy] using he
  case some s =>
    obtain ⟨hint, hh, hs⟩ := Option.bind_eq_some_iff.mp hb
    simp [attached, isFalsy, inherited_of_property hs, hh, hs]

end

-- What a directory is read to: its files have distinct paths, and leaves which bind these.
structure IsDirResult (keccak256 : Bytes → Bytes32) (toUtf8Bytes : JsString → Except JsString Bytes) (sep : UInt16)
    (built : Built) : Prop where
  root        : isHex32 built.root
  nonempty    : built.leaves ≠ []
  distinct    : (built.leaves.map Leaf.path).Nodup
  contentHash : ∀ l ∈ built.leaves, isHex32 l.contentHash
  leaf        : ∀ l ∈ built.leaves, pathLeaf keccak256 toUtf8Bytes sep l.path l.contentHash = .ok l.leaf
  -- the length of an array
  length_lt   : built.leaves.length < 2 ^ 32

-- The manifest keeps the files and attaches exactly the given hints, and its text is accepted.
def KeepsFiles (keccak256 : Bytes → Bytes32) (toUtf8Bytes : JsString → Except JsString Bytes) (sep : UInt16)
    (cfg : ManifestCfg) (built : Built) (rawHints : Value) : Prop :=
  ∃ m, buildItemManifest keccak256 toUtf8Bytes sep built cfg rawHints = .ok m ∧
    m.root = built.root ∧
    m.files.map (fun f => (f.relPath, f.contentHash, f.leaf)) =
      built.leaves.map (fun l => (l.path, l.contentHash, l.leaf)) ∧
    (∀ f ∈ m.files, f.hints = (givenHint rawHints f.relPath).map fun hint => .value hint.toValue) ∧
    ∃ text v, stringify m.toValue = some text ∧ parse text = some v ∧
      validateItemManifest keccak256 toUtf8Bytes sep v cfg = .ok v

section

variable {cfg : ManifestCfg} {built : Built} {rawHints : Value} {hints : HintMap}

theorem isHex32_of_pathLeaf (h : pathLeaf keccak256 toUtf8Bytes sep p c = .ok leaf) : isHex32 leaf := by
  simp only [pathLeaf, bind_eq_ok, pure_eq_ok] at h
  obtain ⟨_, -, rfl⟩ := h
  exact isHex32_hashBytes _

theorem get_source (hint : Hint) : hint.toValue.get "source" = (hint.source.map string).getD .undefined := by
  rcases hint with ⟨_ | s, _ | l⟩ <;> rfl

theorem get_license (hint : Hint) : hint.toValue.get "license" = (hint.license.map string).getD .undefined := by
  rcases hint with ⟨_ | s, _ | l⟩ <;> rfl

theorem soundHints_given (o : Option Hint) :
    SoundHints ((o.map fun hint => HintsField.value hint.toValue).getD <| .value .undefined) := by
  cases o
  case none => exact .inl rfl
  case some hint =>
    refine .inr ⟨rfl, ?_, ?_⟩
    · rw [get_source]
      cases hint.source <;> simp [isUndefined, toString?]
    · rw [get_license]
      cases hint.license <;> simp [isUndefined, toString?]

theorem serializable_hint (hint : Hint) : Serializable hint.toValue := by
  refine .of_fields fun e he _ => ?_
  simp only [List.mem_append, List.mem_map] at he
  obtain ⟨s, -, rfl⟩ | ⟨s, -, rfl⟩ := he
  · exact .string
  · exact .string

-- Hints which are sound stay so in the text.
theorem soundHints_tidy (h : SoundHints (.value v)) : SoundHints (.value <| tidy ownOrder v) := by
  have hn : (tidy ownOrder v).isNullish = v.isNullish := by
    cases v
    case number n => cases n <;> simp [tidy, isNullish]
    all_goals simp [tidy, isNullish]
  simpa only [SoundHints, hn, isObject_tidy, get_tidy ownOrder_perm, isUndefined_tidy, toString?_tidy] using h

section

variable (hc : IsCfg cfg) (hb : IsDirResult keccak256 toUtf8Bytes sep built)

include hc hb

variable (hints) in
-- The manifest is accepted if every path can be listed, and its hints are sound.
theorem accepts_itemManifest :
    (∃ files, Accepts keccak256 toUtf8Bytes sep cfg (itemManifest built cfg hints).toView files) ↔
    ∀ l ∈ built.leaves, l.path ≠ [] ∧
      SoundHints ((attached <| hints.read l.path).getD <| .value .undefined) := by
  constructor
  case mp =>
    rintro ⟨files, ha⟩ l hl
    obtain rfl := Option.some_inj.mp ha.files_eq
    obtain ⟨item, relPath, contentHash, leaf, he, hi⟩ := ha.entries _ <|
      List.mem_map_of_mem <| List.mem_map_of_mem hl
    obtain rfl := Option.some_inj.mp he
    obtain rfl := string.inj hi.relPath_eq
    exact ⟨hi.nonempty, hi.hints⟩
  case mpr =>
    intro h
    refine ⟨_, rfl, ⟨_, hc.supported, toInt?_nat⟩, ⟨_, rfl, hb.root⟩, rfl, ?_, ?_, ?_, ?_⟩
    · simpa [itemManifest] using hb.nonempty
    · exact .inr <| by simp [Manifest.toView, itemManifest]
    · intro entry he
      obtain ⟨f, hf, rfl⟩ := List.mem_map.mp he
      obtain ⟨l, hl, rfl⟩ := List.mem_map.mp hf
      have ⟨hn, hs⟩ := h l hl
      have hp := hb.leaf l hl
      exact ⟨_, _, _, _, rfl, rfl, hn, rfl, hb.contentHash l hl, rfl, isHex32_of_pathLeaf hp, ⟨_, hp, rfl⟩, hs⟩
    · have hm : ((itemManifest built cfg hints).files.map fun f => some f.toItem).map itemPath =
          built.leaves.map Leaf.path := by
        simp [itemManifest, Function.comp_def, itemPath, File.toItem, toString?]
      exact hm ▸ hb.distinct

theorem serializable_toValue {m : Manifest} (hm : m = itemManifest built cfg hints)
    (hg : ∀ f ∈ m.files, ∀ v, f.hints = some (.value v) → Serializable v) : Serializable m.toValue := by
  have hl : Double.IsDouble ((built.leaves.length : ℕ) : ℚ) := Double.isDouble_natCast <| by
    have := hb.length_lt
    omega
  refine .of_fields fun f hf _ => ?_
  simp only [List.mem_cons, List.not_mem_nil, or_false] at hf
  subst hm
  obtain rfl | rfl | rfl | rfl | rfl | rfl := hf
  · exact .string
  · exact .number hc.isDouble
  · exact .string
  · exact .string
  · exact .number hl
  · refine .array fun v hv => ?_
    obtain ⟨f, hf, rfl⟩ := List.mem_map.mp hv
    refine .of_fields fun e he _ => ?_
    rw [List.mem_append] at he
    obtain he | he := he
    · simp only [List.mem_cons, List.not_mem_nil, or_false] at he
      obtain rfl | rfl | rfl := he <;> exact .string
    · cases hh : f.hints
      case none => simp [hh] at he
      case some h =>
        cases h
        case function => simp [hh] at he
        case value v =>
          obtain rfl : e = (js "hints", v) := by simpa [hh] using he
          exact hg f hf v hh

end

-- The entry of a file in the text.
theorem isEntry_tidy {f : File} (h : IsEntry keccak256 toUtf8Bytes sep (some f.toItem)) :
    IsEntry keccak256 toUtf8Bytes sep (Item.ofValue <| tidy ownOrder f.toValue) ∧
      itemPath (Item.ofValue <| tidy ownOrder f.toValue) = f.relPath := by
  obtain ⟨item, relPath, contentHash, leaf, he, hi⟩ := h
  obtain rfl := Option.some_inj.mp he
  obtain rfl := string.inj hi.relPath_eq
  obtain rfl := string.inj hi.contentHash_eq
  obtain rfl := string.inj hi.leaf_eq
  have ht (s : JsString) : tidy ownOrder (.string s) = .string s := by simp [tidy]
  have hs : SoundHints (.value <| tidy ownOrder <| f.toValue.get "hints") := by
    refine soundHints_tidy ?_
    have hh := hi.hints
    cases hf : f.hints
    case none =>
      have : f.toValue.get "hints" = .undefined := by rw [File.toValue, hf]; rfl
      exact .inl <| by rw [this]; rfl
    case some h =>
      rw [File.toItem, hf, Option.getD_some] at hh
      cases h
      case function => exact hh.elim
      case value v =>
        have : f.toValue.get "hints" = v := by rw [File.toValue, hf]; rfl
        rwa [this]
  have hv : Item.ofValue (tidy ownOrder f.toValue) =
      some ⟨.string f.relPath, .string f.contentHash, .string f.leaf,
        .value <| tidy ownOrder <| f.toValue.get "hints"⟩ := by
    have hr : f.toValue.get "relPath" = .string f.relPath := rfl
    have hc : f.toValue.get "contentHash" = .string f.contentHash := rfl
    have hl : f.toValue.get "leaf" = .string f.leaf := rfl
    have ho : (tidy ownOrder f.toValue).isObject := by rw [isObject_tidy]; rfl
    rw [Item.ofValue, if_pos ho]
    simp only [get_tidy ownOrder_perm, hr, hc, hl, ht]
  rw [hv]
  exact ⟨⟨_, _, _, _, rfl, rfl, hi.nonempty, rfl, hi.isContentHash, rfl, hi.isLeaf, hi.consistent, hs⟩, rfl⟩

-- The text of a manifest which is accepted is accepted.
theorem accepts_tidy {m : Manifest} (ha : Accepts keccak256 toUtf8Bytes sep cfg m.toView files) :
    ∃ files, Accepts keccak256 toUtf8Bytes sep cfg (.ofValue <| tidy ownOrder m.toValue) files := by
  obtain rfl := Option.some_inj.mp ha.files_eq
  have ht (s : JsString) : tidy ownOrder (.string s) = .string s := by simp [tidy]
  have hk : m.toValue.get "kind" = .string m.kind := rfl
  have hv : m.toValue.get "schemaVersion" = .nat m.schemaVersion := rfl
  have hr : m.toValue.get "root" = .string m.root := rfl
  have hn : m.toValue.get "fileCount" = .nat m.fileCount := rfl
  have hf : m.toValue.get "files" = .array (m.files.map File.toValue) := rfl
  have hview : View.ofValue (tidy ownOrder m.toValue) = {
      kind          := .string m.kind
      schemaVersion := tidy ownOrder (.nat m.schemaVersion)
      root          := .string m.root
      fileCount     := tidy ownOrder (.nat m.fileCount)
      files         := some <| ((m.files.map File.toValue).map <| tidy ownOrder).map Item.ofValue
    } := by
    have htf : tidy ownOrder (.array <| m.files.map File.toValue) =
        .array ((m.files.map File.toValue).map <| tidy ownOrder) := by
      rw [tidy, tidyElems_eq]
    simp only [View.ofValue, get_tidy ownOrder_perm, hk, hv, hr, hn, hf, ht, htf]
  have he : ∀ f ∈ m.files, IsEntry keccak256 toUtf8Bytes sep (some f.toItem) := fun f hf =>
    ha.entries _ <| List.mem_map_of_mem hf
  rw [hview]
  refine ⟨((m.files.map File.toValue).map <| tidy ownOrder).map Item.ofValue, ?_, ?_, ?_, ?_, ?_, ?_, ?_, ?_⟩
  · exact ha.kind
  · simpa only [toInt?_tidy, Manifest.toView] using ha.schemaVersion
  · exact ha.root
  · rfl
  · simpa using ha.nonempty
  · simpa [Manifest.toView] using ha.fileCount
  · intro entry hm
    simp only [List.map_map, List.mem_map, Function.comp_apply] at hm
    obtain ⟨f, hf, rfl⟩ := hm
    exact (isEntry_tidy <| he f hf).left
  · have hm : (((m.files.map File.toValue).map <| tidy ownOrder).map Item.ofValue).map itemPath =
        (m.files.map fun f => some f.toItem).map itemPath := by
      simp only [List.map_map]
      refine List.map_congr_left fun f hf => ?_
      simp only [Function.comp_apply]
      exact (isEntry_tidy <| he f hf).right
    rw [hm]
    exact ha.distinct

section

variable (hc : IsCfg cfg) (hb : IsDirResult keccak256 toUtf8Bytes sep built)
variable (h : normalizeHints rawHints (built.leaves.map Leaf.path) = .ok hints)

include hc h

theorem buildItemManifest_eq_ok {m : Manifest} :
    buildItemManifest keccak256 toUtf8Bytes sep built cfg rawHints = .ok m ↔ m = itemManifest built cfg hints ∧
      ∃ files, Accepts keccak256 toUtf8Bytes sep cfg (itemManifest built cfg hints).toView files := by
  simp only [buildItemManifest, requireCfg_eq hc, h, ok_bind, bind_eq_ok, checkView_eq_ok, pure_eq_ok]
  exact ⟨fun ⟨_, ha, he⟩ => ⟨he.symm, ha⟩, fun ⟨he, ha⟩ => ⟨(), ha, he.symm⟩⟩

include hb

-- The files are kept exactly if no path is empty, and if no path without a hint is the name of a property which
-- the map of the hints inherits.
theorem keepsFiles_iff : KeepsFiles keccak256 toUtf8Bytes sep cfg built rawHints ↔
    ∀ l ∈ built.leaves, l.path ≠ [] ∧ (givenHint rawHints l.path = none → NotInherited rawHints l.path) := by
  have hg (p : JsString) : attached (hints.read p) = (givenHint rawHints p).map (fun hint => .value hint.toValue) ↔
      (givenHint rawHints p = none → NotInherited rawHints p) := by
    cases hp : givenHint rawHints p
    case none => simpa using attached_of_not_given h hp
    case some hint => simpa using attached_of_given h hp
  constructor
  case mp =>
    rintro ⟨m, hm, -, -, hf, -⟩ l hl
    obtain ⟨rfl, ha⟩ := (buildItemManifest_eq_ok hc h).mp hm
    obtain ⟨hn, -⟩ := (accepts_itemManifest hints hc hb).mp ha l hl
    have hf := hf _ <| List.mem_map_of_mem hl
    exact ⟨hn, (hg l.path).mp hf⟩
  case mpr =>
    intro hp
    have hf : ∀ f ∈ (itemManifest built cfg hints).files,
        f.hints = (givenHint rawHints f.relPath).map fun hint => .value hint.toValue := by
      intro f hf
      obtain ⟨l, hl, rfl⟩ := List.mem_map.mp hf
      exact (hg l.path).mpr (hp l hl).right
    have ha := (accepts_itemManifest hints hc hb).mpr fun l hl => by
      rw [(hg l.path).mpr (hp l hl).right]
      exact ⟨(hp l hl).left, soundHints_given _⟩
    have hs : Serializable (itemManifest built cfg hints).toValue := by
      refine serializable_toValue hc hb rfl fun f hm v hv => ?_
      rw [hf f hm] at hv
      obtain ⟨hint, -, rfl⟩ : ∃ hint, givenHint rawHints f.relPath = some hint ∧ hint.toValue = v := by
        simpa [Option.map_eq_some_iff] using hv
      exact serializable_hint hint
    obtain ⟨files, ha'⟩ := ha
    have hv := (validateItemManifest_eq_ok <| requireCfg_eq hc).mpr ⟨rfl, by rw [isObject_tidy]; rfl, accepts_tidy ha'⟩
    exact ⟨_, (buildItemManifest_eq_ok hc h).mpr ⟨rfl, files, ha'⟩, rfl, by simp [itemManifest], hf, _, _,
      stringify_eq hs, parse_render <| plain_tidy ownOrder_perm hs, hv⟩

end

end

-- What is read from a directory with a single file, whose content is one byte.
def singleLeaf (path : JsString) : Leaf where
  path        := path
  contentHash := hashBytes Keccak.keccak256 [1]
  leaf        := hashBytes Keccak.keccak256 <|
    Cli.pathInput Keccak.keccak256 (Unicode.bufferFrom path) <| hashBytes Keccak.keccak256 [1]

def singleFile (path : JsString) : Built where
  root   := Cli.leafHash Keccak.keccak256 (singleLeaf path).leaf
  leaves := [singleLeaf path]

theorem isDirResult_singleFile (path : JsString)
    (h : Unicode.strictUtf8 (Cli.toPosixRel Cli.slash path) = .ok (Unicode.bufferFrom path)) :
    IsDirResult Keccak.keccak256 Unicode.strictUtf8 Cli.slash (singleFile path) where
  root        := isHex32_hashBytes _
  nonempty    := by simp [singleFile]
  distinct    := by simp [singleFile]
  contentHash := fun l hl => by
    obtain rfl := List.mem_singleton.mp hl
    exact isHex32_hashBytes _
  leaf        := fun l hl => by
    obtain rfl := List.mem_singleton.mp hl
    rw [pathLeaf, singleLeaf, h]
    rfl
  length_lt   := by simp [singleFile]

theorem isCfg_dataset : IsCfg Dataset.MANIFEST_CFG where
  kind      := by decide
  supported := by decide
  isDouble  := Double.isDouble_natCast (by decide)

def mitHint : Value :=
  .object [(js "a", .object [(js "license", .string <| js "MIT")])]

theorem keepsFiles_iff_mit : KeepsFiles Keccak.keccak256 Unicode.strictUtf8 Cli.slash Dataset.MANIFEST_CFG
    (singleFile <| js "a") mitHint := by
  have hd := isDirResult_singleFile (js "a") (by decide +kernel)
  have hn : normalizeHints mitHint ((singleFile <| js "a").leaves.map Leaf.path) = .ok _ := rfl
  refine (keepsFiles_iff isCfg_dataset hd hn).mpr fun l hl => ?_
  obtain rfl := List.mem_singleton.mp hl
  refine ⟨by decide, fun hg => ?_⟩
  have : givenHint mitHint (js "a") = some ⟨none, some <| js "MIT"⟩ := by decide
  simp [singleLeaf, this] at hg

-- The manifest of a file whose name is that of a method of every object is rejected, although no hints are given.
theorem not_keepsFiles :
    IsDirResult Keccak.keccak256 Unicode.strictUtf8 Cli.slash (singleFile <| js "constructor") ∧
    normalizeHints .undefined ((singleFile <| js "constructor").leaves.map Leaf.path) = .ok .empty ∧
    ¬ KeepsFiles Keccak.keccak256 Unicode.strictUtf8 Cli.slash Dataset.MANIFEST_CFG
      (singleFile <| js "constructor") .undefined := by
  have hd := isDirResult_singleFile (js "constructor") (by decide +kernel)
  have hn : normalizeHints .undefined ((singleFile <| js "constructor").leaves.map Leaf.path) = .ok .empty := rfl
  refine ⟨hd, hn, fun hk => ?_⟩
  obtain ⟨m, hm, -⟩ := hk
  obtain ⟨rfl, ha⟩ := (buildItemManifest_eq_ok isCfg_dataset hn).mp hm
  obtain ⟨-, hs⟩ := (accepts_itemManifest .empty isCfg_dataset hd).mp ha _ List.mem_cons_self
  exact hs

end ItemManifest
