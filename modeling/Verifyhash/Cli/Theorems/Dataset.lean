import Verifyhash.Cli.Theorems.ItemManifest

namespace Dataset

open Value
open Cli (inherited)

namespace Histogram

variable {h : Histogram} {k k' : JsString} {t : Tally}

-- What is read under a key of which `n` occurrences are counted.
def tallied (n : ℕ) : Option Tally :=
  if n = 0 then none else some (.number n)

theorem lookup_set : (h.set k t).lookup k' = if k' = k then some t else h.lookup k' := by
  induction h
  case nil =>
    by_cases hk : k' = k
    case pos => simp [set, hk]
    case neg => simp [set, List.lookup_cons, beq_false_of_ne hk, hk]
  case cons e h ih =>
    rw [set]
    split_ifs with he hk hk
    · subst he hk
      simp
    · subst he
      rw [List.lookup_cons, List.lookup_cons, beq_false_of_ne hk]
    · subst hk
      rw [List.lookup_cons, beq_false_of_ne <| Ne.symm he]
      simpa using ih
    · rw [List.lookup_cons, List.lookup_cons, ih, if_neg hk]

theorem lookup_bump : (h.bump k).lookup k' =
    if k' = k ∧ k ≠ js "__proto__" then some (h.incremented k) else h.lookup k' := by
  rw [bump]
  by_cases hp : k = js "__proto__"
  case pos => simp [hp]
  case neg => simp [hp, lookup_set]

theorem mem_set (h' : e ∈ h.set k t) : e ∈ h ∨ e = (k, t) := by
  induction h
  case nil => exact .inr <| by simpa [set] using h'
  case cons f h ih =>
    rw [set] at h'
    split_ifs at h' with hf
    · subst hf
      obtain rfl | h' := List.mem_cons.mp h'
      · exact .inr rfl
      · exact .inl <| List.mem_cons_of_mem _ h'
    · obtain rfl | h' := List.mem_cons.mp h'
      · exact .inl List.mem_cons_self
      · exact (ih h').imp_left <| List.mem_cons_of_mem _

-- Setting a key exchanges the value which was read under it.
theorem total_set : (h.set k t).total + ((h.lookup k).map Tally.value).getD 0 = h.total + t.value := by
  induction h
  case nil => simp [set, total]
  case cons e h ih =>
    rw [set]
    split_ifs with he
    · subst he
      rw [List.lookup_cons_self]
      simp only [total, List.map_cons, List.sum_cons, Option.map_some, Option.getD_some]
      omega
    · rw [List.lookup_cons, beq_false_of_ne <| Ne.symm he]
      simp only [total, List.map_cons, List.sum_cons] at ih ⊢
      omega

theorem inherited_proto : inherited (js "__proto__") = .object := by
  decide

theorem ne_proto (hk : inherited k = .undefined) : k ≠ js "__proto__" := by
  rintro rfl
  simp [inherited_proto] at hk

theorem incremented_eq (hk : inherited k = .undefined) (hn : h.lookup k = tallied n) :
    h.incremented k = .number (n + 1) := by
  rw [incremented, hn, hk]
  cases n <;> simp [tallied]

-- Every occurrence of a key which is not inherited adds one to its count, and changes no other one.
theorem lookup_foldl_bump (hk : inherited k = .undefined) (ks : List JsString) (hn : h.lookup k = tallied n) :
    (ks.foldl bump h).lookup k = tallied (n + ks.count k) := by
  induction ks generalizing h n
  case nil => exact hn
  case cons k' ks ih =>
    rw [List.foldl_cons]
    by_cases hk' : k' = k
    case pos =>
      subst hk'
      have hb : (h.bump k').lookup k' = tallied (n + 1) := by
        rw [lookup_bump, if_pos ⟨rfl, ne_proto hk⟩, incremented_eq hk hn, tallied, if_neg n.succ_ne_zero]
      rw [ih hb, List.count_cons_self]
      congr 1
      omega
    case neg =>
      have hb : (h.bump k').lookup k = tallied n := by
        rw [lookup_bump, if_neg fun h => hk' h.left.symm, hn]
      rw [ih hb, List.count_cons_of_ne hk']

-- Where only keys which are not inherited are counted, all counts are numbers, and they sum up.
structure Sound (h : Histogram) (n : ℕ) : Prop where
  numbers : ∀ e ∈ h, e.snd.isNumber
  total   : h.total = n

theorem sound_bump (hk : inherited k = .undefined) (hs : Sound h n) : Sound (h.bump k) (n + 1) := by
  have hb : h.bump k = h.set k (h.incremented k) := if_neg <| ne_proto hk
  have ht := @total_set h k (h.incremented k)
  -- What was read is replaced by the next number.
  have hi : ∃ m, h.incremented k = .number (m + 1) ∧ ((h.lookup k).map Tally.value).getD 0 = m := by
    cases hl : h.lookup k
    case none => exact ⟨0, by simp [incremented, hl, hk], rfl⟩
    case some t =>
      have ht := hs.numbers _ <| Fields.mem_of_lookup hl
      cases t
      case text => simp [Tally.isNumber] at ht
      case number m => exact ⟨m, by simp [incremented, hl], rfl⟩
  obtain ⟨m, hi, hm⟩ := hi
  rw [hb]
  constructor
  case numbers =>
    intro e he
    obtain he | rfl := mem_set he
    · exact hs.numbers e he
    · simp [hi, Tally.isNumber]
  case total =>
    rw [hm, hi, hs.total] at ht
    rw [hi]
    simp only [Tally.value] at ht
    omega

theorem sound_foldl_bump {ks : List JsString} (hk : ∀ k ∈ ks, inherited k = .undefined) (hs : Sound h n) :
    Sound (ks.foldl bump h) (n + ks.length) := by
  induction ks generalizing h n
  case nil => exact hs
  case cons k ks ih =>
    have ⟨hk, hks⟩ := List.forall_mem_cons.mp hk
    have := ih hks <| sound_bump hk hs
    rwa [List.foldl_cons, List.length_cons, add_comm ks.length, ← add_assoc]

-- The count of a key which is a method becomes a text with its first occurrence, and stays one.
theorem isText_foldl_bump (hk : inherited k = .function) {ks : List JsString}
    (h' : k ∈ ks ∧ h.lookup k = none ∨ ∃ s, h.lookup k = some (.text s)) :
    ∃ s, (ks.foldl bump h).lookup k = some (.text s) := by
  have hp : k ≠ js "__proto__" := by
    rintro rfl
    simp [inherited_proto] at hk
  induction ks generalizing h
  case nil => exact h'.resolve_left (by simp)
  case cons k' ks ih =>
    rw [List.foldl_cons]
    refine ih ?_
    by_cases hk' : k' = k
    case pos =>
      subst hk'
      have hi : ∃ s, h.incremented k' = .text s := by
        obtain ⟨-, hl⟩ | ⟨s, hl⟩ := h'
        · exact ⟨_, by rw [incremented, hl, hk]⟩
        · exact ⟨_, by rw [incremented, hl]⟩
      obtain ⟨s, hi⟩ := hi
      exact .inr ⟨s, by rw [lookup_bump, if_pos ⟨rfl, hp⟩, hi]⟩
    case neg =>
      rw [lookup_bump, if_neg fun h => hk' h.left.symm]
      exact h'.imp_left fun ⟨hm, hl⟩ => ⟨(List.mem_cons.mp hm).resolve_left <| Ne.symm hk', hl⟩

-- Under `__proto__`, nothing is counted.
theorem lookup_proto (ks : List JsString) (hn : h.lookup (js "__proto__") = none) :
    (ks.foldl bump h).lookup (js "__proto__") = none := by
  induction ks generalizing h
  case nil => exact hn
  case cons k ks ih =>
    refine ih ?_
    rw [lookup_bump, if_neg fun h => h.right h.left.symm, hn]

-- The histogram counts each hint and the files without a hint, by numbers which sum up to that of the files.
structure Exact (h : Histogram) (hints : List (Option JsString)) (bucket : JsString) : Prop where
  hint   : ∀ s, some s ∈ hints → h.lookup s = some (.number <| hints.count <| some s)
  noHint : (h.lookup bucket).getD (.number 0) = .number (hints.count none)
  sound  : Sound h hints.length

section

variable {hints : List (Option JsString)} {bucket s : JsString}

theorem count_key (hs : s ≠ bucket) : (hints.map (·.getD bucket)).count s = hints.count (some s) := by
  induction hints
  case nil => rfl
  case cons o hints ih => cases o <;> simp [List.count_cons, ih, Ne.symm hs]

theorem count_bucket : (hints.map (·.getD bucket)).count bucket = hints.count (some bucket) + hints.count none := by
  induction hints
  case nil => rfl
  case cons o hints ih =>
    cases o <;> simp [List.count_cons, ih]
    · omega
    · split_ifs <;> omega

theorem inherited_cases (s : JsString) :
    inherited s = .undefined ∨ inherited s = .function ∨ s = js "__proto__" := by
  rw [inherited]
  split_ifs with hm hp
  · exact .inr <| .inl rfl
  · exact .inr <| .inr hp
  · exact .inl rfl

-- The histogram is exact if no hint is the label of the files without one, or the name of an inherited
-- property.
theorem exact_iff (hb : inherited bucket = .undefined) :
    Exact ((hints.map (·.getD bucket)).foldl bump []) hints bucket ↔
      ∀ s, some s ∈ hints → s ≠ bucket ∧ inherited s = .undefined := by
  have hl {k} (hk : inherited k = .undefined) : ((hints.map (·.getD bucket)).foldl bump []).lookup k =
      tallied ((hints.map (·.getD bucket)).count k) := by
    have := lookup_foldl_bump (n := 0) (h := []) hk (hints.map (·.getD bucket)) rfl
    rwa [Nat.zero_add] at this
  constructor
  case mp =>
    intro he s hs
    have hc : 0 < hints.count (some s) := List.count_pos_iff.mpr hs
    constructor
    case left =>
      rintro rfl
      have h₁ := he.hint s hs
      have h₂ := he.noHint
      rw [h₁, Option.getD_some, Tally.number.injEq] at h₂
      rw [hl hb, count_bucket, tallied, if_neg (by omega), Option.some_inj, Tally.number.injEq] at h₁
      omega
    case right =>
      obtain hi | hi | rfl := inherited_cases s
      · exact hi
      · have hm : s ∈ hints.map (·.getD bucket) := List.mem_map.mpr ⟨some s, hs, rfl⟩
        obtain ⟨t, ht⟩ := isText_foldl_bump (h := []) hi (.inl ⟨hm, rfl⟩)
        simp [he.hint s hs] at ht
      · have := lookup_proto (h := []) (hints.map (·.getD bucket)) rfl
        simp [he.hint _ hs] at this
  case mpr =>
    intro hp
    have hn : hints.count (some bucket) = 0 := List.count_eq_zero_of_not_mem fun hm => (hp bucket hm).left rfl
    constructor
    case hint =>
      intro s hs
      have hc : 0 < hints.count (some s) := List.count_pos_iff.mpr hs
      rw [hl (hp s hs).right, count_key (hp s hs).left, tallied, if_neg hc.ne']
    case noHint =>
      rw [hl hb, count_bucket, hn, Nat.zero_add, tallied]
      split_ifs with h0 <;> simp [h0]
    case sound =>
      have hk : ∀ k ∈ hints.map (·.getD bucket), inherited k = .undefined := by
        intro k hk
        obtain ⟨_ | s, hs, rfl⟩ := List.mem_map.mp hk
        · exact hb
        · exact (hp s hs).right
      have := sound_foldl_bump (h := []) (n := 0) hk ⟨by simp, rfl⟩
      rwa [Nat.zero_add, List.length_map] at this

end

end Histogram

theorem foldl_add (c : Counts) (fs : List Value) :
    (fs.foldl Counts.add c).licenses =
      ((fs.map licenseHint).map (·.getD NO_LICENSE_BUCKET)).foldl Histogram.bump c.licenses ∧
    (fs.foldl Counts.add c).sources =
      ((fs.map sourceHint).map (·.getD NO_SOURCE_BUCKET)).foldl Histogram.bump c.sources := by
  induction fs generalizing c
  case nil => exact ⟨rfl, rfl⟩
  case cons f fs ih => exact ih <| c.add f

-- A roll-up which counts every file of a manifest.
def CountsEveryFile (manifest : Value) : Prop :=
  let rollUp := aggregateManifest manifest
  rollUp.licenses.Exact ((manifestFiles manifest).map licenseHint) NO_LICENSE_BUCKET ∧
    rollUp.sources.Exact ((manifestFiles manifest).map sourceHint) NO_SOURCE_BUCKET

-- The roll-up counts every file exactly if no hint is the label of the files without one, or the name of a
-- property which every object inherits.
theorem countsEveryFile_iff (manifest : Value) : CountsEveryFile manifest ↔
    ∀ f ∈ manifestFiles manifest,
      (∀ license, licenseHint f = some license → license ≠ NO_LICENSE_BUCKET ∧ inherited license = .undefined) ∧
      (∀ source, sourceHint f = some source → source ≠ NO_SOURCE_BUCKET ∧ inherited source = .undefined) := by
  have ⟨hl, hs⟩ := foldl_add ⟨[], [], 0, 0⟩ (manifestFiles manifest)
  have hm (hint : Value → Option JsString) (P : JsString → Prop) :
      (∀ s, some s ∈ (manifestFiles manifest).map hint → P s) ↔
        ∀ f ∈ manifestFiles manifest, ∀ s, hint f = some s → P s := by
    simp only [List.mem_map]
    exact ⟨fun h f hf s hs => h s ⟨f, hf, hs⟩, fun h s ⟨f, hf, hs⟩ => h f hf s hs⟩
  have hb : inherited NO_LICENSE_BUCKET = .undefined ∧ inherited NO_SOURCE_BUCKET = .undefined := by decide
  rw [CountsEveryFile]
  simp only [aggregateManifest, hl, hs]
  rw [Histogram.exact_iff hb.left, Histogram.exact_iff hb.right, hm, hm]
  exact ⟨fun ⟨h₁, h₂⟩ f hf => ⟨h₁ f hf, h₂ f hf⟩, fun h => ⟨fun f hf => (h f hf).left, fun f hf => (h f hf).right⟩⟩

section

open ItemManifest Json

-- The manifest of one file, with a hint which is the name of a method of every object.
def constructorHinted : ItemManifest.Manifest :=
  itemManifest (singleFile <| js "a") MANIFEST_CFG ⟨[(js "a", ⟨none, some <| js "constructor"⟩)], none⟩

-- It is read from its text. The count of the license is a text.
theorem not_countsEveryFile :
    let manifest := tidy ownOrder constructorHinted.toValue
    validateManifest Keccak.keccak256 Unicode.strictUtf8 Cli.slash manifest = .ok manifest ∧
      ¬ CountsEveryFile manifest := by
  intro manifest
  constructor
  case left =>
    have hd := isDirResult_singleFile (js "a") (by decide +kernel)
    obtain ⟨files, ha⟩ := (accepts_itemManifest ⟨[(js "a", ⟨none, some <| js "constructor"⟩)], none⟩
      isCfg_dataset hd).mpr fun l hl => by
        obtain rfl := List.mem_singleton.mp hl
        exact ⟨by decide, soundHints_given <| some ⟨none, some <| js "constructor"⟩⟩
    exact (validateItemManifest_eq_ok <| requireCfg_eq isCfg_dataset).mpr
      ⟨rfl, by rw [isObject_tidy]; rfl, accepts_tidy ha⟩
  case right =>
    intro h
    have hf : manifestFiles manifest = constructorHinted.files.map fun f => tidy ownOrder f.toValue := by
      have hg : constructorHinted.toValue.get "files" = .array (constructorHinted.files.map File.toValue) := rfl
      rw [manifestFiles, get_tidy ownOrder_perm, hg, tidy, tidyElems_eq, List.map_map]
      rfl
    have hl : (manifestFiles manifest).map licenseHint = [some <| js "constructor"] := by
      rw [hf, List.map_map]
      have hl (v : Value) : licenseHint (tidy ownOrder v) = licenseHint v := by
        simp only [licenseHint, get_tidy ownOrder_perm, toString?_tidy]
      simp only [Function.comp_def, hl]
      rfl
    have ht := h.left.hint (js "constructor") (by rw [hl]; simp)
    rw [aggregateManifest, (foldl_add _ _).left, hl] at ht
    exact absurd ht <| by decide

end

end Dataset
