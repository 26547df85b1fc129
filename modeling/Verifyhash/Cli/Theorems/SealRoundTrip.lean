import Verifyhash.Cli.Theorems.PacketSeal
import Verifyhash.Library.Keyed

namespace Cli

open Hex Fallible Checks

section

variable (keccak256 : Bytes → Bytes32) (toUtf8Bytes : JsString → Except JsString Bytes) (sep : UInt16)

-- The content of the files by their paths.
def contentMap (files : List FileEntry) : List (JsString × JsString) :=
  files.map fun e => (e.relPath, hashBytes keccak256 e.bytes)

-- A file whose path can be sealed: it is canonical, it can be encoded, and it is not the name of a method
-- of every object.
structure Sealable (e : FileEntry) : Prop where
  canonical : toPosixRel sep e.relPath = e.relPath
  encodes   : ∃ relBytes, toUtf8Bytes e.relPath = .ok relBytes
  own       : e.relPath ∉ inheritedMethods

-- The path of a file can be encoded after its normalizations.
def Encodable (e : FileEntry) : Prop :=
  ∃ relBytes, toUtf8Bytes (e.toEntry.renormalized sep).fst = .ok relBytes

def entryLeaf (e : FileEntry) : JsString :=
  e.toEntry.leaf keccak256 toUtf8Bytes sep

-- A file as the seal lists it.
def FileEntry.toSealed (e : FileEntry) : SealedFile where
  relPath     := e.relPath
  contentHash := hashBytes keccak256 e.bytes
  leaf        := entryLeaf keccak256 toUtf8Bytes sep e

-- The root of the tree over the leaves of the files.
def rootOver (files : List FileEntry) : Option JsString :=
  (PairTree.top <| PairTree.layers (tagged keccak256).pair <|
    (sortedBytes <| files.map <| entryLeaf keccak256 toUtf8Bytes sep).map (tagged keccak256).leaf).map hexlify

-- The seal of files which can be sealed.
def sealOver (files : List FileEntry) (cfg : SealCfg) : BuiltSeal where
  kind          := cfg.kind
  schemaVersion := cfg.schemaVersion
  note          := cfg.note
  root          := rootOver keccak256 toUtf8Bytes sep files
  fileCount     := files.length
  files         := sortByRel SealedFile.relPath <| files.map <| FileEntry.toSealed keccak256 toUtf8Bytes sep
  header        := none

end

variable {keccak256 : Bytes → Bytes32} {toUtf8Bytes : JsString → Except JsString Bytes} {sep : UInt16}
variable {cfg : SealCfg} {S S' : List FileEntry} {e : FileEntry}

-- What `_normalizeEntries` accepts.
structure Normalized (cfg : SealCfg) (files : List FileEntry) : Prop where
  nonempty   : ∀ e ∈ files, e.relPath ≠ []
  unreserved : ∀ e ∈ files, ∀ header ∈ cfg.header, e.relPath ≠ header.headerRelPath
  distinct   : (files.map FileEntry.relPath).Nodup

theorem normalizeEntries_eq_ok : normalizeEntries S cfg strict = .ok S' ↔
    S' = S ∧ (strict → S ≠ []) ∧ Normalized cfg S := by
  have hc (seen : List JsString) (e : FileEntry) : normalizeEntry cfg seen e = .ok () ↔
      (e.relPath ≠ [] ∧ ∀ header ∈ cfg.header, e.relPath ≠ header.headerRelPath) ∧ e.relPath ∉ seen := by
    simp only [normalizeEntry, bind_eq_ok, require_eq_ok]
    constructor
    · rintro ⟨_, hn, _, hr, hs⟩
      exact ⟨⟨hn, hr⟩, hs⟩
    · rintro ⟨⟨hn, hr⟩, hs⟩
      exact ⟨(), hn, (), hr, hs⟩
  simp only [normalizeEntries, bind_eq_ok, require_eq_ok, Keyed.each_eq_ok hc, pure_eq_ok]
  constructor
  case mp =>
    rintro ⟨_, hn, _, ⟨h, hd, -⟩, rfl⟩
    exact ⟨rfl, hn, fun e he => (h e he).left, fun e he => (h e he).right, hd⟩
  case mpr =>
    rintro ⟨rfl, hn, h⟩
    exact ⟨(), hn, (), ⟨fun e he => ⟨h.nonempty e he, h.unreserved e he⟩, h.distinct, by simp⟩, rfl⟩

-- What the loop over the files of a manifest accepts.
structure IsManifestFile (keccak256 : Bytes → Bytes32) (toUtf8Bytes : JsString → Except JsString Bytes)
    (sep : UInt16) (f : ManifestFile) : Prop where
  nonempty    : f.relPath ≠ []
  contentHash : isHex32 f.contentHash
  leaf        : isHex32 f.leaf
  consistent  : ∃ expected, pathLeaf keccak256 toUtf8Bytes sep f.relPath f.contentHash = .ok expected ∧
    toLowerCase f.leaf = toLowerCase expected
  own         : f.hints ≠ .function

theorem checkManifestFile_eq_ok (seen : List JsString) (f : ManifestFile) :
    checkManifestFile keccak256 toUtf8Bytes sep label seen f = .ok () ↔
      IsManifestFile keccak256 toUtf8Bytes sep f ∧ f.relPath ∉ seen := by
  simp only [checkManifestFile, bind_eq_ok, require_eq_ok]
  constructor
  case mp =>
    rintro ⟨_, hn, _, hs, _, hc, _, hl, expected, hp, _, he, hf⟩
    exact ⟨⟨hn, hc, hl, ⟨expected, hp, he⟩, hf⟩, hs⟩
  case mpr =>
    rintro ⟨⟨hn, hc, hl, ⟨expected, hp, he⟩, hf⟩, hs⟩
    exact ⟨(), hn, (), hs, (), hc, (), hl, expected, hp, (), he, hf⟩

section

variable {E : List Entry} {t : DirTree}

-- The file of a manifest which an entry becomes.
def Entry.toManifestFile (keccak256 : Bytes → Bytes32) (toUtf8Bytes : JsString → Except JsString Bytes)
    (sep : UInt16) (e : Entry) : ManifestFile where
  relPath     := toPosixRel sep e.path
  contentHash := hashBytes keccak256 e.content
  leaf        := e.leaf keccak256 toUtf8Bytes sep
  hints       := inherited <| toPosixRel sep e.path

theorem manifestFiles_perm (h : hashEntries keccak256 toUtf8Bytes sep E = .ok t) :
    (manifestFiles t).Perm (E.map <| Entry.toManifestFile keccak256 toUtf8Bytes sep) := by
  have hb := exists_relBytes h
  rw [hashEntries, if_neg <| mt List.eq_nil_of_length_eq_zero <| ne_nil_of_hashEntries h] at h
  simp only [bind_eq_ok, pure_eq_ok] at h
  obtain ⟨pairs, hp, tree, -, rfl⟩ := h
  have hm := mapM_eq_ok (f := fun e => Entry.toPair keccak256 toUtf8Bytes sep e) (l := E) (g := fun e => {
    path        := toPosixRel sep e.path
    abs         := e.abs
    contentHash := hashBytes keccak256 e.content
    leaf        := e.leaf keccak256 toUtf8Bytes sep
  }) fun e he => by
    obtain ⟨_, h⟩ := hb e he
    rw [toPair_eq h, ←leaf_eq h]
  obtain rfl := Except.ok.inj <| hm.symm.trans hp
  rw [manifestFiles, DirTree.leaves, List.map_map]
  refine (sortBy_perm.map _).trans ?_
  rw [List.map_map]
  exact .refl _

variable (keccak256) in
-- The leaf of an entry is the path leaf of what the manifest lists.
theorem pathLeaf_toManifestFile {e : Entry} (h : toUtf8Bytes (e.renormalized sep).fst = .ok relBytes) :
    pathLeaf keccak256 toUtf8Bytes sep (toPosixRel sep e.path) (hashBytes keccak256 e.content) =
      .ok (e.leaf keccak256 toUtf8Bytes sep) := by
  rw [leaf_eq h, pathLeaf]
  change (toUtf8Bytes (e.renormalized sep).fst >>= _) = _
  rw [h]
  rfl

theorem isManifestFile_iff {e : Entry} (h : ∃ relBytes, toUtf8Bytes (e.renormalized sep).fst = .ok relBytes) :
    IsManifestFile keccak256 toUtf8Bytes sep (e.toManifestFile keccak256 toUtf8Bytes sep) ↔
      toPosixRel sep e.path ≠ [] ∧ toPosixRel sep e.path ∉ inheritedMethods := by
  obtain ⟨_, h⟩ := h
  have hi (path : JsString) : inherited path ≠ .function ↔ path ∉ inheritedMethods := by
    rw [inherited]
    split_ifs with hm <;> simp [hm]
  constructor
  case mp => exact fun hf => ⟨hf.nonempty, hi _ |>.mp hf.own⟩
  case mpr =>
    rintro ⟨hn, ho⟩
    have hl : isHex32 (e.leaf keccak256 toUtf8Bytes sep) := leaf_eq h ▸ isHex32_hashBytes _
    exact ⟨hn, isHex32_hashBytes _, hl, ⟨_, pathLeaf_toManifestFile keccak256 h, rfl⟩, hi _ |>.mpr ho⟩

section

variable (h : hashEntries keccak256 toUtf8Bytes sep E = .ok t)

include h

theorem exists_root_of_hashEntries : ∃ x, t.root = some (hexlify x) := by
  have hn : (sortedBytes <| E.map <| Entry.leaf keccak256 toUtf8Bytes sep) ≠ [] := fun hs =>
    ne_nil_of_hashEntries h <| by simpa [hs] using @sortedBytes_perm <| E.map <| Entry.leaf keccak256 toUtf8Bytes sep
  obtain ⟨_, x, hx, _⟩ := PairTree.exists_root (S := tagged keccak256) hn <| List.Subset.refl _
  exact ⟨x, by rw [root_eq h, hx]; rfl⟩

theorem of_buildItemManifest {m : Manifest}
    (hm : buildItemManifest keccak256 toUtf8Bytes sep t (manifestCfg cfg) = .ok m) :
    m = itemManifest t (manifestCfg cfg) ∧ ∀ e ∈ E, toPosixRel sep e.path ∉ inheritedMethods := by
  simp only [buildItemManifest, validateItemManifest, bind_eq_ok, pure_eq_ok, Keyed.each_eq_ok checkManifestFile_eq_ok] at hm
  obtain ⟨_, -, _, -, _, -, _, -, _, -, _, ⟨hf, -⟩, rfl⟩ := hm
  refine ⟨rfl, fun e he => ?_⟩
  have hf := hf _ <| (manifestFiles_perm h).mem_iff.mpr <| List.mem_map_of_mem he
  exact isManifestFile_iff (exists_relBytes h e he) |>.mp hf |>.right

variable (cfg) in
theorem buildItemManifest_eq (hf : ∀ e ∈ E, toPosixRel sep e.path ≠ [] ∧ toPosixRel sep e.path ∉ inheritedMethods)
    (hd : (E.map fun e => toPosixRel sep e.path).Nodup) :
    buildItemManifest keccak256 toUtf8Bytes sep t (manifestCfg cfg) = .ok (itemManifest t <| manifestCfg cfg) := by
  obtain ⟨x, hx⟩ := exists_root_of_hashEntries h
  have hp := manifestFiles_perm h
  have hn : manifestFiles t ≠ [] := fun hn => by
    rw [hn] at hp
    exact ne_nil_of_hashEntries h <| by simpa using hp
  have hl : t.leaves.length = (manifestFiles t).length := by simp [manifestFiles]
  simp only [buildItemManifest, validateItemManifest, bind_eq_ok, require_eq_ok, pure_eq_ok,
    Keyed.each_eq_ok checkManifestFile_eq_ok]
  refine ⟨(), rfl, (), List.mem_singleton_self _, (), ⟨_, hx, isHex32_hexlify x⟩, (), hn, (), hl, (), ⟨?_, ?_, ?_⟩,
    trivial⟩
  · intro f hm
    obtain ⟨e, he, rfl⟩ := List.mem_map.mp <| hp.mem_iff.mp hm
    exact isManifestFile_iff (exists_relBytes h e he) |>.mpr <| hf e he
  · refine (hp.map ManifestFile.relPath).nodup_iff.mpr ?_
    rwa [List.map_map]
  · simp

end

end

section

variable (sep) in
theorem length_toPosixRel_le (s : JsString) : (toPosixRel sep s).length ≤ s.length := by
  rw [toPosixRel]
  split_ifs <;> simp

-- A normalization which does not shorten a path leaves no prefix for another one.
theorem toPosixRel_of_length (h : (toPosixRel sep s).length = s.length) :
    toPosixRel sep (toPosixRel sep s) = toPosixRel sep s := by
  by_cases hs : (s.map fun u => if u = sep then 47 else u).take 2 = js "./"
  case pos =>
    have hl := congrArg List.length hs
    have hj : (js "./").length = 2 := by decide
    rw [toPosixRel, if_pos hs, List.length_drop, List.length_map] at h
    rw [List.length_take, List.length_map, hj] at hl
    omega
  case neg =>
    have hp : toPosixRel sep s = s.map fun u => if u = sep then 47 else u := if_neg hs
    have hm := @map_sep_toPosixRel sep s
    rw [hp] at hm ⊢
    rw [toPosixRel, hm, if_neg hs]

-- Where every path is the normalization of one of the paths, all of them are canonical: the longest path
-- which is not could only come from a longer one.
theorem canonical_of_covers {paths : List JsString} (h : ∀ p ∈ paths, ∃ q ∈ paths, toPosixRel sep q = p) :
    ∀ p ∈ paths, toPosixRel sep p = p :=
  Keyed.fixed_of_covers (length_toPosixRel_le sep) (fun _ => toPosixRel_of_length) h

end

section

theorem committedEntries_eq : committedEntries S none cfg = S := by
  cases hc : cfg.header <;> simp [committedEntries, hc]

theorem validateHeaderArg_eq (hc : cfg.header = none) : validateHeaderArg none cfg = .ok none := by
  simp [validateHeaderArg, hc]

-- Only files which can be sealed are sealed.
theorem sealable_of_buildSeal (hc : cfg.header = none)
    (hb : buildSeal keccak256 toUtf8Bytes sep S none cfg = .ok s) : ∀ e ∈ S, Sealable toUtf8Bytes sep e := by
  simp only [buildSeal, bind_eq_ok, normalizeEntries_eq_ok] at hb
  obtain ⟨entries, ⟨hs, -, -⟩, headerContent, hh, m, hm, files, hf, -⟩ := hb
  subst entries
  obtain rfl := Except.ok.inj <| (validateHeaderArg_eq hc).symm.trans hh
  simp only [manifestOver, committedEntries_eq, bind_eq_ok] at hm
  obtain ⟨t, ht, hm⟩ := hm
  obtain ⟨rfl, ho⟩ := of_buildItemManifest ht hm
  have hp := manifestFiles_perm ht
  have hcanon : ∀ p ∈ S.map FileEntry.relPath, toPosixRel sep p = p := canonical_of_covers fun p hp' => by
    obtain ⟨e, he, rfl⟩ := List.mem_map.mp hp'
    obtain ⟨_, hs⟩ := exists_of_mapM_eq_ok hf e he
    simp only [sealedFile, bind_eq_ok, demand_eq_ok] at hs
    obtain ⟨f, hf, -⟩ := hs
    have hr : f.relPath = e.relPath := by simpa using List.find?_some hf
    obtain ⟨e', he', rfl⟩ := List.mem_map.mp <| hp.mem_iff.mp <| List.mem_of_find?_eq_some hf
    obtain ⟨e'', he'', rfl⟩ := List.mem_map.mp he'
    exact ⟨_, List.mem_map_of_mem he'', hr⟩
  intro e he
  have hce : toPosixRel sep e.relPath = e.relPath := hcanon _ <| List.mem_map_of_mem he
  have hoe := ho _ <| List.mem_map_of_mem he
  obtain ⟨relBytes, hr⟩ := exists_relBytes ht _ <| List.mem_map_of_mem he
  rw [Entry.renormalized, FileEntry.toEntry, hce, hce] at hr
  rw [FileEntry.toEntry, hce] at hoe
  exact ⟨hce, ⟨relBytes, hr⟩, hoe⟩

theorem Sealable.encodable (h : Sealable toUtf8Bytes sep e) : Encodable toUtf8Bytes sep e := by
  obtain ⟨relBytes, hr⟩ := h.encodes
  refine ⟨relBytes, ?_⟩
  rwa [Entry.renormalized, FileEntry.toEntry, h.canonical, h.canonical]

variable (keccak256) in
theorem exists_hashEntries_of_encodable (hn : S ≠ []) (he : ∀ e ∈ S, Encodable toUtf8Bytes sep e) :
    ∃ t, hashEntries keccak256 toUtf8Bytes sep (S.map FileEntry.toEntry) = .ok t ∧
      t.root = rootOver keccak256 toUtf8Bytes sep S := by
  have he : ∀ e ∈ S.map FileEntry.toEntry, ∃ relBytes, toUtf8Bytes (e.renormalized sep).fst = .ok relBytes :=
    List.forall_mem_map.mpr he
  obtain ⟨t, ht, hr⟩ := exists_hashEntries keccak256 (mt List.map_eq_nil_iff.mp hn) he
  refine ⟨t, ht, ?_⟩
  rw [hr, List.map_map]
  rfl

-- Files which can be sealed are sealed.
theorem buildSeal_eq (hc : cfg.header = none) (hn : S ≠ []) (h : Normalized cfg S)
    (hs : ∀ e ∈ S, Sealable toUtf8Bytes sep e) :
    buildSeal keccak256 toUtf8Bytes sep S none cfg = .ok (sealOver keccak256 toUtf8Bytes sep S cfg) := by
  obtain ⟨t, ht, hr⟩ := exists_hashEntries_of_encodable keccak256 hn fun e he => (hs e he).encodable
  have hpath : ∀ e ∈ S, toPosixRel sep e.toEntry.path = e.relPath := fun e he => (hs e he).canonical
  have hd : (S.map fun e => toPosixRel sep e.toEntry.path).Nodup := by
    rw [List.map_congr_left hpath]
    exact h.distinct
  have hm := buildItemManifest_eq cfg ht
    (List.forall_mem_map.mpr fun e he => by
      rw [hpath e he]
      exact ⟨h.nonempty e he, (hs e he).own⟩)
    (by rwa [List.map_map])
  have hp := manifestFiles_perm ht
  have hnd : ((manifestFiles t).map ManifestFile.relPath).Nodup := by
    refine (hp.map ManifestFile.relPath).nodup_iff.mpr ?_
    rwa [List.map_map, List.map_map]
  have hf : S.mapM (sealedFile <| itemManifest t <| manifestCfg cfg) =
      .ok (S.map <| FileEntry.toSealed keccak256 toUtf8Bytes sep) := by
    refine mapM_eq_ok fun e he => ?_
    have hm : e.toEntry.toManifestFile keccak256 toUtf8Bytes sep ∈ manifestFiles t :=
      hp.mem_iff.mpr <| List.mem_map_of_mem <| List.mem_map_of_mem he
    have hl := Keyed.find?_eq_some hnd hm
    have hrel : (e.toEntry.toManifestFile keccak256 toUtf8Bytes sep).relPath = e.relPath := hpath e he
    rw [hrel] at hl
    rw [sealedFile]
    change (demand ((manifestFiles t).find? _) _ >>= _) = _
    rw [hl]
    change Except.ok _ = Except.ok _
    rw [FileEntry.toSealed, hrel]
    rfl
  simp only [buildSeal, bind_eq_ok, normalizeEntries_eq_ok]
  refine ⟨S, ⟨rfl, fun _ => hn, h⟩, none, validateHeaderArg_eq hc, itemManifest t (manifestCfg cfg), ?_, _, hf, ?_⟩
  · rw [committedEntries_eq, manifestOver, ht]
    exact hm
  · rw [hc, sealOver, ←hr]
    rfl

end

section

-- A file which a seal may list.
structure IsSealedFile (keccak256 : Bytes → Bytes32) (toUtf8Bytes : JsString → Except JsString Bytes)
    (sep : UInt16) (f : SealedFile) : Prop where
  nonempty    : f.relPath ≠ []
  contentHash : isHex32 f.contentHash
  leaf        : isHex32 f.leaf
  consistent  : pathLeaf keccak256 toUtf8Bytes sep f.relPath f.contentHash = .ok f.leaf

variable {f : SealedFile} {fs : List SealedFile}

theorem IsSealedFile.checkEntry_eq (h : IsSealedFile keccak256 toUtf8Bytes sep f) (hc : cfg.header = none)
    {seen : List JsString} (hs : f.relPath ∉ seen) :
    checkEntry keccak256 toUtf8Bytes sep cfg i seen f.toValue = .ok (f.relPath, f.contentHash) := by
  have hr : ((f.toValue.get "relPath").toString?.filter fun s => decide (s ≠ [])) = some f.relPath := by
    change Option.filter _ (some f.relPath) = _
    rw [Option.filter_some, if_pos <| decide_eq_true h.nonempty]
  have hh : (f.toValue.get "contentHash").hex32? = some f.contentHash := if_pos h.contentHash
  have hl : (f.toValue.get "leaf").hex32? = some f.leaf := if_pos h.leaf
  simp only [checkEntry, bind_eq_ok, require_eq_ok, demand_eq_ok, hc]
  exact ⟨(), rfl, _, hr, (), by simp, (), hs, _, hh, _, hl, _, h.consistent, (), rfl, rfl⟩

theorem checkEntries_eq (h : ∀ f ∈ fs, IsSealedFile keccak256 toUtf8Bytes sep f) (hc : cfg.header = none)
    {seen : List JsString} (hs : ∀ f ∈ fs, f.relPath ∉ seen) (hd : (fs.map SealedFile.relPath).Nodup) :
    checkEntries keccak256 toUtf8Bytes sep cfg i seen (fs.map SealedFile.toValue) =
      .ok (fs.map fun f => (f.relPath, f.contentHash)) := by
  induction fs generalizing i seen
  case nil => rfl
  case cons f fs ih =>
    have ⟨hf, h⟩ := List.forall_mem_cons.mp h
    have ⟨hs, hs'⟩ := List.forall_mem_cons.mp hs
    have ⟨hn, hd⟩ := List.nodup_cons.mp hd
    have hs' : ∀ f' ∈ fs, f'.relPath ∉ f.relPath :: seen := fun f' hf' hm => by
      rcases List.mem_cons.mp hm with hp | hp
      · exact hn <| hp ▸ List.mem_map_of_mem hf'
      · exact hs' f' hf' hp
    rw [List.map_cons, checkEntries, hf.checkEntry_eq hc hs]
    change (checkEntries _ _ _ _ _ _ _ >>= _) = _
    rw [ih h hs' hd]
    rfl

theorem sortedBytes_congr {l l' : List JsString} (hp : l.Perm l') (hl : ∀ c ∈ l, isHex32 c) :
    sortedBytes l = sortedBytes l' := by
  have hp' := sortedBytes_perm.trans <| (hp.map toBytes32).trans sortedBytes_perm.symm
  exact hp'.eq_of_pairwise (fun _ _ _ _ => le_antisymm) (sortedBytes_pairwise hl) <|
    sortedBytes_pairwise fun c hc => hl c <| hp.mem_iff.mpr hc

theorem isHex32_entryLeaf (h : Encodable toUtf8Bytes sep e) : isHex32 (entryLeaf keccak256 toUtf8Bytes sep e) := by
  obtain ⟨_, h⟩ := h
  rw [entryLeaf, leaf_eq h]
  exact isHex32_hashBytes _

theorem isSealedFile_toSealed (hn : e.relPath ≠ []) (h : Sealable toUtf8Bytes sep e) :
    IsSealedFile keccak256 toUtf8Bytes sep (e.toSealed keccak256 toUtf8Bytes sep) := by
  obtain ⟨_, hr⟩ := h.encodable
  have hp := pathLeaf_toManifestFile keccak256 hr
  rw [FileEntry.toEntry, h.canonical] at hp
  exact ⟨hn, isHex32_hashBytes _, isHex32_entryLeaf h.encodable, hp⟩

variable (keccak256 toUtf8Bytes sep) in
-- What is read from the seal of files.
def sealedMap (files : List FileEntry) : List (JsString × JsString) :=
  (sortByRel SealedFile.relPath <| files.map <| FileEntry.toSealed keccak256 toUtf8Bytes sep).map
    fun f => (f.relPath, f.contentHash)

theorem sortByRel_perm {relPath : α → JsString} {l : List α} : (sortByRel relPath l).Perm l :=
  List.perm_insertionSort ..

theorem sortByRel_eq_nil {relPath : α → JsString} {l : List α} : sortByRel relPath l = [] ↔ l = [] := by
  rw [←List.length_eq_zero_iff, sortByRel_perm.length_eq, List.length_eq_zero_iff]

theorem sealedMap_perm : (sealedMap keccak256 toUtf8Bytes sep S).Perm (contentMap keccak256 S) := by
  refine (sortByRel_perm.map _).trans ?_
  rw [List.map_map]
  exact .refl _

variable (keccak256) in
theorem exists_rootOver (hn : S ≠ []) (he : ∀ e ∈ S, Encodable toUtf8Bytes sep e) :
    ∃ x, rootOver keccak256 toUtf8Bytes sep S = some (hexlify x) := by
  obtain ⟨t, ht, hr⟩ := exists_hashEntries_of_encodable keccak256 hn he
  obtain ⟨x, hx⟩ := exists_root_of_hashEntries ht
  exact ⟨x, hr ▸ hx⟩

-- The root of a seal is the root of its entries.
theorem rootFromLeafEntries_sealedMap (hn : S ≠ []) (hs : ∀ e ∈ S, Sealable toUtf8Bytes sep e) :
    rootFromLeafEntries keccak256 toUtf8Bytes sep (sealedMap keccak256 toUtf8Bytes sep S) =
      .ok (rootOver keccak256 toUtf8Bytes sep S) := by
  have hp := @sealedMap_perm keccak256 toUtf8Bytes sep S
  have hf : ∀ file ∈ sealedMap keccak256 toUtf8Bytes sep S, IsFile toUtf8Bytes sep file := fun file hf => by
    obtain ⟨e, he, rfl⟩ := List.mem_map.mp <| hp.mem_iff.mp hf
    obtain ⟨relBytes, hr⟩ := (hs e he).encodes
    exact ⟨isHex32_hashBytes _, relBytes, by rwa [(hs e he).canonical]⟩
  have hn' : sealedMap keccak256 toUtf8Bytes sep S ≠ [] := fun h => by
    rw [h] at hp
    exact hn <| by simpa [contentMap] using hp
  have hleaf : (contentMap keccak256 S).map (fileLeaf keccak256 toUtf8Bytes sep) =
      S.map (entryLeaf keccak256 toUtf8Bytes sep) := by
    rw [contentMap, List.map_map]
    refine List.map_congr_left fun e he => ?_
    obtain ⟨_, hr⟩ := (hs e he).encodable
    have hl := pathLeaf_toManifestFile keccak256 hr
    rw [FileEntry.toEntry, (hs e he).canonical] at hl
    rw [Function.comp_apply, fileLeaf, hl]
    rfl
  rw [rootFromLeafEntries_eq hn' hf, rootOver, sortedBytes_congr ((hp.map _).trans <| .of_eq hleaf)]
  exact fun c hc => by
    obtain ⟨file, hm, rfl⟩ := List.mem_map.mp hc
    exact (hf file hm).isHex32_fileLeaf

-- What the strict validation accepts has a supported version.
theorem supported_of_validateSeal
    (h : validateSeal keccak256 toUtf8Bytes sep (sealOver keccak256 toUtf8Bytes sep S cfg).toValue cfg = .ok s) :
    cfg.schemaVersion ∈ cfg.supportedSchemaVersions := by
  simp only [validateSeal, checkCommonSeal, bind_eq_ok, require_eq_ok] at h
  obtain ⟨_, ⟨_, -, _, -, _, hv, -⟩, -⟩ := h
  obtain ⟨n, hn, he⟩ := List.any_eq_true.mp hv
  have he : Value.toInt? (.nat cfg.schemaVersion) = some (n : ℤ) := of_decide_eq_true he
  rw [Value.toInt?_nat, Option.some.injEq, Nat.cast_inj] at he
  exact he ▸ hn

-- The seal of files is valid.
theorem validateSeal_sealOver (hc : cfg.header = none) (hv : cfg.schemaVersion ∈ cfg.supportedSchemaVersions)
    (hn : S ≠ []) (h : Normalized cfg S) (hs : ∀ e ∈ S, Sealable toUtf8Bytes sep e) :
    ∃ x, rootOver keccak256 toUtf8Bytes sep S = some (hexlify x) ∧
      validateSeal keccak256 toUtf8Bytes sep (sealOver keccak256 toUtf8Bytes sep S cfg).toValue cfg =
        .ok { root := hexlify x, files := sealedMap keccak256 toUtf8Bytes sep S } := by
  obtain ⟨x, hx⟩ := exists_rootOver keccak256 hn fun e he => (hs e he).encodable
  refine ⟨x, hx, ?_⟩
  let fs := sortByRel SealedFile.relPath <| S.map <| FileEntry.toSealed keccak256 toUtf8Bytes sep
  let obj := (sealOver keccak256 toUtf8Bytes sep S cfg).toValue
  have hp : fs.Perm _ := sortByRel_perm
  have hfs : ∀ f ∈ fs, IsSealedFile keccak256 toUtf8Bytes sep f := fun f hf => by
    obtain ⟨e, he, rfl⟩ := List.mem_map.mp <| hp.mem_iff.mp hf
    exact isSealedFile_toSealed (h.nonempty e he) (hs e he)
  have hd : (fs.map SealedFile.relPath).Nodup := by
    refine (hp.map SealedFile.relPath).nodup_iff.mpr ?_
    rw [List.map_map]
    exact h.distinct
  have hes : checkEntries keccak256 toUtf8Bytes sep cfg 0 [] (fs.map SealedFile.toValue) = _ :=
    checkEntries_eq hfs hc (by simp) hd
  have hroot : (obj.get "root").hex32? = some (hexlify x) := by
    change Value.hex32? ((Option.map Value.string (rootOver keccak256 toUtf8Bytes sep S)).getD .undefined) = _
    rw [hx]
    exact Value.hex32?_eq_some.mpr ⟨rfl, isHex32_hexlify x⟩
  have hl : fs.length = S.length := by simpa using hp.length_eq
  have hfiles : someElems? (obj.get "files") = some (fs.map SealedFile.toValue) := by
    have hg : obj.get "files" = .array (fs.map SealedFile.toValue) := rfl
    have hne : fs.map SealedFile.toValue ≠ [] := fun h =>
      hn <| List.eq_nil_of_length_eq_zero <| by rw [←hl, List.map_eq_nil_iff.mp h, List.length_nil]
    obtain ⟨v, vs, hvs⟩ := List.exists_cons_of_ne_nil hne
    rw [hg, hvs, someElems?]
  have hversion : (cfg.supportedSchemaVersions.any fun n =>
      decide ((obj.get "schemaVersion").toInt? = some (n : ℤ))) = true :=
    List.any_eq_true.mpr ⟨_, hv, decide_eq_true Value.toInt?_nat⟩
  have hcount : (obj.get "fileCount").toInt? = some ((fs.map SealedFile.toValue).length : ℤ) := by
    rw [List.length_map, hl]
    exact Value.toInt?_nat
  have hcommon : checkCommonSeal keccak256 toUtf8Bytes sep obj cfg =
      .ok { root := hexlify x, files := sealedMap keccak256 toUtf8Bytes sep S } := by
    simp only [checkCommonSeal, bind_eq_ok, require_eq_ok, demand_eq_ok]
    exact ⟨(), rfl, (), rfl, (), hversion, (), rfl, _, hroot, _, hfiles, _, hes, (), .inr hcount, rfl⟩
  have hheader : (obj.get "header").isUndefined := rfl
  simp only [validateSeal, committedFlat, hc, bind_eq_ok, require_eq_ok]
  refine ⟨_, hcommon, _, ⟨(), hheader, rfl⟩, _, rootFromLeafEntries_sealedMap hn hs, (), ?_, rfl⟩
  rw [hx, Option.map_some, toLowerCase_hexlify]

end

-- The three parts of the difference of two maps, where hashes are spelled in lower case.
section

variable {fs gs : List (JsString × JsString)} {p h g : JsString}

theorem mem_changedFiles (hg : (gs.map Prod.fst).Nodup) (hl : ∀ f ∈ fs ++ gs, toLowerCase f.snd = f.snd) :
    ⟨p, h, g⟩ ∈ changedFiles fs gs ↔ (p, h) ∈ fs ∧ (p, g) ∈ gs ∧ h ≠ g := by
  have hi (hf : (p, h) ∈ fs) (hg : (p, g) ∈ gs) : toLowerCase g = toLowerCase h ↔ h = g := by
    rw [hl _ <| List.mem_append_left _ hf, hl _ <| List.mem_append_right _ hg, eq_comm]
  simp only [changedFiles, List.mem_filterMap, Option.bind_eq_bind, Option.bind_eq_some_iff,
    Option.ite_none_left_eq_some, Option.some.injEq, Changed.mk.injEq, Keyed.lookup_eq_some_iff hg]
  constructor
  case mp =>
    rintro ⟨_, hf, _, hg, hd, rfl, rfl, rfl⟩
    exact ⟨hf, hg, mt (hi hf hg).mpr hd⟩
  case mpr =>
    rintro ⟨hf, hg, hd⟩
    exact ⟨_, hf, _, hg, mt (hi hf hg).mp hd, rfl, rfl, rfl⟩

theorem mem_missingFiles : p ∈ missingFiles fs gs ↔ p ∈ fs.map Prod.fst ∧ p ∉ gs.map Prod.fst := by
  simp only [missingFiles, List.mem_filterMap, Option.ite_none_right_eq_some, Option.some.injEq,
    Keyed.lookup_isNone_iff]
  constructor
  case mp =>
    rintro ⟨f, hf, hg, rfl⟩
    exact ⟨List.mem_map_of_mem hf, hg⟩
  case mpr =>
    rintro ⟨hp, hg⟩
    obtain ⟨f, hf, rfl⟩ := List.mem_map.mp hp
    exact ⟨f, hf, hg, rfl⟩

theorem mem_unexpectedFiles : ⟨p, g⟩ ∈ unexpectedFiles fs gs ↔ (p, g) ∈ gs ∧ p ∉ fs.map Prod.fst := by
  simp only [unexpectedFiles, List.mem_filterMap, Option.ite_none_right_eq_some, Option.some.injEq,
    Keyed.lookup_isNone_iff, Matched.mk.injEq]
  constructor
  case mp =>
    rintro ⟨_, hg, hf, rfl, rfl⟩
    exact ⟨hg, hf⟩
  case mpr =>
    rintro ⟨hg, hf⟩
    exact ⟨_, hg, hf, rfl, rfl⟩

theorem changedFiles_nodup (hf : (fs.map Prod.fst).Nodup) : ((changedFiles fs gs).map Changed.relPath).Nodup := by
  refine hf.sublist <| Keyed.map_filterMap_sublist fun f c hc => ?_
  simp only [Option.bind_eq_bind, Option.bind_eq_some_iff, Option.ite_none_left_eq_some, Option.some.injEq] at hc
  obtain ⟨_, -, -, rfl⟩ := hc
  rfl

theorem missingFiles_nodup (hf : (fs.map Prod.fst).Nodup) : (missingFiles fs gs).Nodup := by
  rw [←List.map_id (missingFiles fs gs)]
  refine hf.sublist <| Keyed.map_filterMap_sublist fun f p hp => ?_
  simp only [Option.ite_none_right_eq_some, Option.some.injEq] at hp
  exact hp.right.symm

theorem unexpectedFiles_nodup (hg : (gs.map Prod.fst).Nodup) :
    ((unexpectedFiles fs gs).map Matched.relPath).Nodup := by
  refine hg.sublist <| Keyed.map_filterMap_sublist fun f u hu => ?_
  simp only [Option.ite_none_right_eq_some, Option.some.injEq] at hu
  exact hu.right ▸ rfl

end

section

variable (keccak256 : Bytes → Bytes32) (toUtf8Bytes : JsString → Except JsString Bytes) (sep : UInt16)

-- The lists of a verdict are the three parts of the difference of two maps, each path once.
structure ExactDifference (expected actual : List (JsString × JsString)) (v : Verdict) : Prop where
  changed         : ∀ p h g, ⟨p, h, g⟩ ∈ v.changed ↔ (p, h) ∈ expected ∧ (p, g) ∈ actual ∧ h ≠ g
  changed_once    : (v.changed.map Changed.relPath).Nodup
  missing         : ∀ p, p ∈ v.missing ↔ p ∈ expected.map Prod.fst ∧ p ∉ actual.map Prod.fst
  missing_once    : v.missing.Nodup
  unexpected      : ∀ p g, ⟨p, g⟩ ∈ v.unexpected ↔ (p, g) ∈ actual ∧ p ∉ expected.map Prod.fst
  unexpected_once : (v.unexpected.map Matched.relPath).Nodup

-- The seal of the first files is built and valid, and the second files are accepted if they are the same,
-- and compared with the first ones otherwise.
def RoundTrip (cfg : SealCfg) (S S' : List FileEntry) : Prop :=
  ∃ s, buildSeal keccak256 toUtf8Bytes sep S none cfg = .ok s ∧
    (∃ r, validateSeal keccak256 toUtf8Bytes sep s.toValue cfg = .ok r) ∧
    ∃ v, verifySeal keccak256 toUtf8Bytes sep s.toValue S' cfg none = .ok v ∧
      (v.verdict = js "ACCEPTED" ↔ ∀ file, file ∈ contentMap keccak256 S' ↔ file ∈ contentMap keccak256 S) ∧
      (v.verdict ≠ js "ACCEPTED" → ExactDifference (contentMap keccak256 S) (contentMap keccak256 S') v)

end

theorem suppliedHeader_eq (hc : cfg.header = none) : suppliedHeader none cfg = .ok none := by
  simp [suppliedHeader, hc]

variable (keccak256) in
theorem exists_recomputeRoot (he : ∀ e ∈ S, Encodable toUtf8Bytes sep e) :
    ∃ root, recomputeRoot keccak256 toUtf8Bytes sep S = .ok root ∧
      (S ≠ [] → root = rootOver keccak256 toUtf8Bytes sep S) := by
  cases S
  case nil => exact ⟨none, rfl, by simp⟩
  case cons e S =>
    obtain ⟨t, ht, hr⟩ := exists_hashEntries_of_encodable keccak256 (by simp) he
    refine ⟨_, ?_, fun _ => hr⟩
    rw [recomputeRoot, if_pos <| by simp]
    change (hashEntries _ _ _ ((e :: S).map FileEntry.toEntry) >>= _) = _
    rw [ht]
    rfl

theorem encodable_of_recomputeRoot (h : recomputeRoot keccak256 toUtf8Bytes sep S = .ok root) :
    ∀ e ∈ S, Encodable toUtf8Bytes sep e := by
  intro e he
  rw [recomputeRoot, if_pos <| List.length_pos_of_mem he, bind_eq_ok] at h
  obtain ⟨t, ht, -⟩ := h
  exact exists_relBytes ht _ <| List.mem_map_of_mem he

theorem entryLeaf_eq : entryLeaf keccak256 toUtf8Bytes sep e =
    fileLeaf keccak256 toUtf8Bytes sep (toPosixRel sep e.relPath, hashBytes keccak256 e.bytes) := by
  rw [entryLeaf, Entry.leaf, Entry.toPair, fileLeaf, FileEntry.toEntry]
  cases pathLeaf keccak256 toUtf8Bytes sep (toPosixRel sep e.relPath) (hashBytes keccak256 e.bytes) <;> rfl

theorem keys_contentMap : (contentMap keccak256 S).map Prod.fst = S.map FileEntry.relPath := by
  rw [contentMap, List.map_map]
  rfl

theorem contentMap_perm (hd : (S.map FileEntry.relPath).Nodup) (hd' : (S'.map FileEntry.relPath).Nodup)
    (h : ∀ file, file ∈ contentMap keccak256 S' ↔ file ∈ contentMap keccak256 S) :
    (contentMap keccak256 S').Perm (contentMap keccak256 S) :=
  List.perm_ext_iff_of_nodup (List.Nodup.of_map Prod.fst <| by rwa [keys_contentMap])
    (List.Nodup.of_map Prod.fst <| by rwa [keys_contentMap]) |>.mpr h

-- The root depends on the contents of the paths only.
theorem rootOver_congr (he : ∀ e ∈ S', Encodable toUtf8Bytes sep e)
    (hp : (contentMap keccak256 S').Perm (contentMap keccak256 S)) :
    rootOver keccak256 toUtf8Bytes sep S' = rootOver keccak256 toUtf8Bytes sep S := by
  have hl (files : List FileEntry) : files.map (entryLeaf keccak256 toUtf8Bytes sep) =
      (contentMap keccak256 files).map fun f =>
        fileLeaf keccak256 toUtf8Bytes sep (toPosixRel sep f.fst, f.snd) := by
    rw [contentMap, List.map_map]
    exact List.map_congr_left fun e _ => entryLeaf_eq
  have hx : ∀ c ∈ S'.map (entryLeaf keccak256 toUtf8Bytes sep), isHex32 c :=
    List.forall_mem_map.mpr fun e hm => isHex32_entryLeaf <| he e hm
  rw [rootOver, rootOver, sortedBytes_congr ?_ hx]
  rw [hl S', hl S]
  exact hp.map _

theorem ExactDifference.congr {fs fs' gs : List (JsString × JsString)} (hp : fs.Perm fs')
    (h : ExactDifference fs gs v) : ExactDifference fs' gs v where
  changed p g h'  := by rw [h.changed, hp.mem_iff]
  changed_once    := h.changed_once
  missing p       := by rw [h.missing, (hp.map Prod.fst).mem_iff]
  missing_once    := h.missing_once
  unexpected p g  := by rw [h.unexpected, (hp.map Prod.fst).mem_iff]
  unexpected_once := h.unexpected_once

section

variable {s : Seal} {gs : List (JsString × JsString)} {root : Option JsString}

theorem verdict_eq_accepted_iff : (compareFiles s gs root).verdict = js "ACCEPTED" ↔
    changedFiles s.files gs = [] ∧ missingFiles s.files gs = [] ∧ unexpectedFiles s.files gs = [] ∧
      root.map toLowerCase = some (toLowerCase s.root) := by
  have hr : js "REJECTED" ≠ js "ACCEPTED" := by decide
  have ha (c : Prop) [Decidable c] : (if c then js "ACCEPTED" else js "REJECTED") = js "ACCEPTED" ↔ c := by
    split_ifs with hc <;> simp [hc, hr]
  simp only [compareFiles, ha, Bool.and_eq_true, List.isEmpty_iff, sortByRel_eq_nil, decide_eq_true_eq, and_assoc]

variable (hg : (gs.map Prod.fst).Nodup) (hl : ∀ f ∈ s.files ++ gs, toLowerCase f.snd = f.snd)

include hg hl

theorem exactDifference_compareFiles (hf : (s.files.map Prod.fst).Nodup) :
    ExactDifference s.files gs (compareFiles s gs root) where
  changed p h g   := by rw [compareFiles, sortByRel_perm.mem_iff, mem_changedFiles hg hl]
  changed_once    := (sortByRel_perm.map _).nodup_iff.mpr <| changedFiles_nodup hf
  missing p       := by rw [compareFiles, sortByRel_perm.mem_iff, mem_missingFiles]
  missing_once    := sortByRel_perm.nodup_iff.mpr <| missingFiles_nodup hf
  unexpected p g  := by rw [compareFiles, sortByRel_perm.mem_iff, mem_unexpectedFiles]
  unexpected_once := (sortByRel_perm.map _).nodup_iff.mpr <| unexpectedFiles_nodup hg

-- The verdict, where the root is recomputed as it was sealed if the files are the same.
theorem accepted_iff (hr : (∀ f, f ∈ s.files ↔ f ∈ gs) → root.map toLowerCase = some (toLowerCase s.root)) :
    (compareFiles s gs root).verdict = js "ACCEPTED" ↔ ∀ f, f ∈ s.files ↔ f ∈ gs := by
  rw [verdict_eq_accepted_iff]
  constructor
  case mp =>
    rintro ⟨hc, hm, hu, -⟩
    refine Keyed.mem_iff_of_no_difference (fun p h g hf' hg' => ?_) (fun p hp => ?_) (fun p hp => ?_)
    · by_contra hd
      have := mem_changedFiles hg hl |>.mpr ⟨hf', hg', hd⟩
      simp [hc] at this
    · by_contra hd
      have := mem_missingFiles.mpr ⟨hp, hd⟩
      simp [hm] at this
    · by_contra hd
      obtain ⟨⟨_, g⟩, hg', rfl⟩ := List.mem_map.mp hp
      have := mem_unexpectedFiles.mpr ⟨hg', hd⟩
      simp [hu] at this
  case mpr =>
    intro h
    have hk (p : JsString) : p ∈ s.files.map Prod.fst ↔ p ∈ gs.map Prod.fst := by
      simp only [List.mem_map, h]
    refine ⟨?_, ?_, ?_, hr h⟩ <;> refine List.eq_nil_iff_forall_not_mem.mpr fun c hc => ?_
    · obtain ⟨hf', hg', hd⟩ := mem_changedFiles hg hl |>.mp hc
      have hf'' := Keyed.lookup_eq_some_iff hg |>.mpr <| h _ |>.mp hf'
      have hg'' := Keyed.lookup_eq_some_iff hg |>.mpr hg'
      exact hd <| Option.some.inj <| hf''.symm.trans hg''
    · have ⟨hp, hd⟩ := mem_missingFiles.mp hc
      exact hd <| hk c |>.mp hp
    · have ⟨hp, hd⟩ := mem_unexpectedFiles.mp hc
      exact hd <| hk _ |>.mpr <| List.mem_map_of_mem hp

end

theorem toLowerCase_contentMap : ∀ f ∈ contentMap keccak256 S, toLowerCase f.snd = f.snd :=
  List.forall_mem_map.mpr fun _ _ => toLowerCase_hexlify _

-- The second files are compared with the files of a seal.
theorem exists_verdict (hc : cfg.header = none) (hv : cfg.schemaVersion ∈ cfg.supportedSchemaVersions)
    (hn : S ≠ []) (h : Normalized cfg S) (hs : ∀ e ∈ S, Sealable toUtf8Bytes sep e) (h' : Normalized cfg S')
    (he : ∀ e ∈ S', Encodable toUtf8Bytes sep e) :
    ∃ v, verifySeal keccak256 toUtf8Bytes sep (sealOver keccak256 toUtf8Bytes sep S cfg).toValue S' cfg none =
        .ok v ∧
      (v.verdict = js "ACCEPTED" ↔ ∀ file, file ∈ contentMap keccak256 S' ↔ file ∈ contentMap keccak256 S) ∧
      ExactDifference (contentMap keccak256 S) (contentMap keccak256 S') v := by
  obtain ⟨x, hx, hvalid⟩ := validateSeal_sealOver hc hv hn h hs
  obtain ⟨root, hroot, hr⟩ := exists_recomputeRoot keccak256 he
  have hcommitted : committedEntries S' none cfg = S' := committedEntries_eq
  rw [←hcommitted] at hroot
  let s : Seal := { root := hexlify x, files := sealedMap keccak256 toUtf8Bytes sep S }
  have hp : s.files.Perm (contentMap keccak256 S) := sealedMap_perm
  have hf : (s.files.map Prod.fst).Nodup := by
    rw [(hp.map Prod.fst).nodup_iff, keys_contentMap]
    exact h.distinct
  have hg : ((contentMap keccak256 S').map Prod.fst).Nodup := by
    rw [keys_contentMap]
    exact h'.distinct
  have hl : ∀ f ∈ s.files ++ contentMap keccak256 S', toLowerCase f.snd = f.snd := List.forall_mem_append.mpr
    ⟨fun f hf => toLowerCase_contentMap f <| hp.mem_iff.mp hf, toLowerCase_contentMap⟩
  refine ⟨compareFiles s (contentMap keccak256 S') root, ?_, ?_, (exactDifference_compareFiles hg hl hf).congr hp⟩
  · simp only [verifySeal, bind_eq_ok, normalizeEntries_eq_ok]
    exact ⟨s, hvalid, S', ⟨rfl, by simp, h'⟩, none, suppliedHeader_eq hc, root, hroot, rfl⟩
  · rw [accepted_iff hg hl fun hsame => ?_]
    · refine forall_congr' fun f => ?_
      rw [hp.mem_iff]
      exact ⟨Iff.symm, Iff.symm⟩
    · have hsame (f) : f ∈ contentMap keccak256 S' ↔ f ∈ contentMap keccak256 S :=
        (hsame f).symm.trans hp.mem_iff
      have hp' := contentMap_perm h.distinct h'.distinct hsame
      have hn' : S' ≠ [] := by
        rintro rfl
        exact hn <| by simpa [contentMap] using hp'
      rw [hr hn', rootOver_congr he hp', hx]
      rfl

-- The round trip succeeds exactly for files which can be sealed, and for files which can be encoded.
theorem roundTrip_iff (hc : cfg.header = none) (hs : normalizeEntries S cfg true = .ok S)
    (hs' : normalizeEntries S' cfg false = .ok S') :
    RoundTrip keccak256 toUtf8Bytes sep cfg S S' ↔
      cfg.schemaVersion ∈ cfg.supportedSchemaVersions ∧ (∀ e ∈ S, Sealable toUtf8Bytes sep e) ∧
        ∀ e ∈ S', Encodable toUtf8Bytes sep e := by
  obtain ⟨-, hn, h⟩ := normalizeEntries_eq_ok.mp hs
  obtain ⟨-, -, h'⟩ := normalizeEntries_eq_ok.mp hs'
  constructor
  case mp =>
    rintro ⟨s, hb, ⟨r, hr⟩, v, hv, -⟩
    have hsealable := sealable_of_buildSeal hc hb
    obtain rfl := Except.ok.inj <| (buildSeal_eq hc (hn rfl) h hsealable).symm.trans hb
    refine ⟨supported_of_validateSeal hr, hsealable, ?_⟩
    simp only [verifySeal, bind_eq_ok, normalizeEntries_eq_ok] at hv
    obtain ⟨_, -, entries, ⟨he, -⟩, supplied, hsup, root, hroot, -⟩ := hv
    subst entries
    obtain rfl := Except.ok.inj <| (suppliedHeader_eq hc).symm.trans hsup
    rw [committedEntries_eq] at hroot
    exact encodable_of_recomputeRoot hroot
  case mpr =>
    rintro ⟨hv, hsealable, he⟩
    obtain ⟨x, -, hvalid⟩ := validateSeal_sealOver hc hv (hn rfl) h hsealable
    obtain ⟨v, hverify, ha, hd⟩ := exists_verdict hc hv (hn rfl) h hsealable h' he
    exact ⟨_, buildSeal_eq hc (hn rfl) h hsealable, ⟨_, hvalid⟩, v, hverify, ha, fun _ => hd⟩

def entryA : FileEntry := ⟨js "a", [1]⟩
def entryB : FileEntry := ⟨js "b", [2]⟩

theorem roundTrip_iff_ab : RoundTrip Keccak.keccak256 asciiBytes slash sealCfg [entryA] [entryB, entryA] := by
  have hs : ∀ e ∈ [entryB, entryA], Sealable asciiBytes slash e := List.forall_mem_cons.mpr
    ⟨⟨by decide, ⟨[98], by decide⟩, by decide⟩, by simpa using ⟨by decide, ⟨[97], by decide⟩, by decide⟩⟩
  exact roundTrip_iff rfl rfl rfl |>.mpr ⟨by decide, fun e he => hs e <| by grind, fun e he => (hs e he).encodable⟩

-- A file whose name is that of a method of every object.
def constructorFile : FileEntry := ⟨js "constructor", [1]⟩

-- The file is accepted by `_normalizeEntries`, but it cannot be sealed.
theorem not_roundTrip :
    normalizeEntries [constructorFile] sealCfg true = .ok [constructorFile] ∧
    normalizeEntries [constructorFile] sealCfg false = .ok [constructorFile] ∧
    ¬ RoundTrip Keccak.keccak256 asciiBytes slash sealCfg [constructorFile] [constructorFile] := by
  refine ⟨rfl, rfl, ?_⟩
  rintro ⟨s, hs, -⟩
  have hs := sealable_of_buildSeal rfl hs constructorFile List.mem_cons_self
  exact hs.own <| by decide

end Cli
