import Verifyhash.Cli.Theorems.Membership
import Verifyhash.Library.Fallible
import Verifyhash.Library.Lists

namespace Cli

open Hex Fallible Lists

section

variable (keccak256 : Bytes → Bytes32) (toUtf8Bytes : JsString → Except JsString Bytes) (sep : UInt16)

-- The path and the content of a file, as `hashEntries` reports them.
def Entry.normalized (e : Entry) : JsString × Bytes :=
  (toPosixRel sep e.path, e.content)

-- What the leaf of a file commits to, as `pathLeaf` normalizes the path once more.
def Entry.renormalized (e : Entry) : JsString × Bytes :=
  (toPosixRel sep <| toPosixRel sep e.path, e.content)

-- The leaf of an entry whose path can be encoded.
def Entry.leaf (e : Entry) : JsString :=
  match e.toPair keccak256 toUtf8Bytes sep with
  | .ok pair => pair.leaf
  | .error _ => []

-- The inputs which are hashed to compute the leaf of an entry.
def Entry.inputs (e : Entry) : List Bytes :=
  match toUtf8Bytes (e.renormalized sep).fst with
  | .ok relBytes => [e.content, pathInput keccak256 relBytes <| hashBytes keccak256 e.content]
  | .error _     => []

def entryInputs (entries : List Entry) : List Bytes :=
  entries.flatMap (Entry.inputs keccak256 toUtf8Bytes sep) ++
    treeInputs keccak256 (entries.map <| Entry.leaf keccak256 toUtf8Bytes sep)

-- The lists hold the same files.
def SameFiles (E₁ E₂ : List Entry) : Prop :=
  ∀ file, file ∈ E₁.map (Entry.normalized sep) ↔ file ∈ E₂.map (Entry.normalized sep)

-- The second list commits to the files of the first one, and once more to that with the greatest leaf,
-- which has no neighbour in the tree of the first one.
def Repeats (E₁ E₂ : List Entry) : Prop :=
  Odd E₁.length ∧ 1 < E₁.length ∧ ∃ e ∈ E₁,
    (∀ e' ∈ E₁, bigInt (e'.leaf keccak256 toUtf8Bytes sep) ≤
      bigInt (e.leaf keccak256 toUtf8Bytes sep)) ∧
    (E₂.map <| Entry.renormalized sep).Perm (e.renormalized sep :: E₁.map (Entry.renormalized sep))

-- The lists commit to the same files after the second normalization, up to a repeated one.
def SameLeaves (E₁ E₂ : List Entry) : Prop :=
  (E₁.map <| Entry.renormalized sep).Perm (E₂.map <| Entry.renormalized sep) ∨
  Repeats keccak256 toUtf8Bytes sep E₁ E₂ ∨ Repeats keccak256 toUtf8Bytes sep E₂ E₁

end

section

variable {keccak256 : Bytes → Bytes32} {toUtf8Bytes : JsString → Except JsString Bytes} {sep : UInt16}
variable {e e₁ e₂ : Entry} {E : List Entry} {relBytes relBytes₁ relBytes₂ : Bytes} {t : DirTree}

theorem map_sep_toPosixRel (s : JsString) :
    (toPosixRel sep s).map (fun u => if u = sep then 47 else u) = toPosixRel sep s := by
  have hm : ∀ u ∈ toPosixRel sep s, (if u = sep then 47 else u) = u := by
    intro u hu
    have hu : u ∈ s.map fun u => if u = sep then 47 else u := by
      rw [toPosixRel] at hu
      split_ifs at hu
      · exact List.mem_of_mem_drop hu
      · exact hu
    obtain ⟨v, _, rfl⟩ := List.mem_map.mp hu
    split_ifs <;> simp_all
  rw [List.map_congr_left hm, List.map_id']

variable (sep) in
-- A path which still starts with `./` loses it in the second normalization.
theorem toPosixRel_cases (s : JsString) :
    toPosixRel sep s = toPosixRel sep (toPosixRel sep s) ∨
    toPosixRel sep s = js "./" ++ toPosixRel sep (toPosixRel sep s) := by
  generalize hr : toPosixRel sep (toPosixRel sep s) = r
  rw [toPosixRel, map_sep_toPosixRel] at hr
  split_ifs at hr with h
  · exact .inr <| by rw [←hr, ←h, List.take_append_drop]
  · exact .inl hr

theorem renormalized_eq (h : (toPosixRel sep e.path).take 2 ≠ js "./") :
    e.renormalized sep = e.normalized sep := by
  rw [Entry.renormalized, toPosixRel, map_sep_toPosixRel, if_neg h, Entry.normalized]

theorem toPair_eq (h : toUtf8Bytes (e.renormalized sep).fst = .ok relBytes) :
    e.toPair keccak256 toUtf8Bytes sep = .ok {
      path        := toPosixRel sep e.path
      abs         := e.abs
      contentHash := hashBytes keccak256 e.content
      leaf        := hashBytes keccak256 <| pathInput keccak256 relBytes <| hashBytes keccak256 e.content
    } := by
  rw [Entry.renormalized] at h
  rw [Entry.toPair, pathLeaf, h]
  rfl

theorem leaf_eq (h : toUtf8Bytes (e.renormalized sep).fst = .ok relBytes) :
    e.leaf keccak256 toUtf8Bytes sep =
      hashBytes keccak256 (pathInput keccak256 relBytes <| hashBytes keccak256 e.content) := by
  rw [Entry.leaf, toPair_eq h]

theorem pathInput_inj
    (h : pathInput keccak256 relBytes₁ (hashBytes keccak256 c₁) =
      pathInput keccak256 relBytes₂ (hashBytes keccak256 c₂)) :
    relBytes₁ = relBytes₂ ∧ keccak256 c₁ = keccak256 c₂ := by
  simp only [pathInput, List.append_assoc, List.append_cancel_left_eq, hashBytes, getBytes_hexlify] at h
  have ⟨hr, hc⟩ := List.append_inj' h <| by simp
  exact ⟨hr, Bytes.ofBytes32_inj <| List.append_cancel_left hc⟩

section

variable (h : hashEntries keccak256 toUtf8Bytes sep E = .ok t)

include h

theorem exists_relBytes :
    ∀ e ∈ E, ∃ relBytes, toUtf8Bytes (e.renormalized sep).fst = .ok relBytes := by
  rw [hashEntries] at h
  split_ifs at h
  have ⟨_, h, _⟩ := bind_eq_ok.mp h
  intro e he
  have ⟨_, h⟩ := exists_of_mapM_eq_ok h e he
  simp only [Entry.toPair, pathLeaf, bind_eq_ok] at h
  have ⟨_, ⟨relBytes, h, _⟩, _⟩ := h
  exact ⟨relBytes, h⟩

theorem isHex32_leaf : ∀ c ∈ E.map (Entry.leaf keccak256 toUtf8Bytes sep), isHex32 c := by
  intro c hc
  obtain ⟨e, he, rfl⟩ := List.mem_map.mp hc
  have ⟨_, h⟩ := exists_relBytes h e he
  exact leaf_eq h ▸ isHex32_hashBytes _

theorem ne_nil_of_hashEntries : E ≠ [] := by
  rintro rfl
  simp [hashEntries] at h

end

variable (keccak256) in
-- Entries whose paths can be encoded are accepted, and the root is that of the tree over their leaves.
theorem exists_hashEntries (hn : E ≠ [])
    (hb : ∀ e ∈ E, ∃ relBytes, toUtf8Bytes (e.renormalized sep).fst = .ok relBytes) :
    ∃ t, hashEntries keccak256 toUtf8Bytes sep E = .ok t ∧
      t.root = (PairTree.top <| PairTree.layers (tagged keccak256).pair <|
        (sortedBytes <| E.map <| Entry.leaf keccak256 toUtf8Bytes sep).map
          (tagged keccak256).leaf).map hexlify := by
  have hl : ∀ c ∈ E.map (Entry.leaf keccak256 toUtf8Bytes sep), isHex32 c := by
    intro c hc
    obtain ⟨e, he, rfl⟩ := List.mem_map.mp hc
    have ⟨_, h⟩ := hb e he
    exact leaf_eq h ▸ isHex32_hashBytes _
  let pair (e : Entry) : Pair := {
    path        := toPosixRel sep e.path
    abs         := e.abs
    contentHash := hashBytes keccak256 e.content
    leaf        := e.leaf keccak256 toUtf8Bytes sep
  }
  have hm : E.mapM (fun e => e.toPair keccak256 toUtf8Bytes sep) = .ok (E.map pair) := by
    refine mapM_eq_ok fun e he => ?_
    have ⟨_, h⟩ := hb e he
    rw [toPair_eq h, ←leaf_eq h]
  have hp : (E.map pair).map (·.leaf) = E.map (Entry.leaf keccak256 toUtf8Bytes sep) := List.map_map
  have ht : buildTree keccak256 (E.map <| Entry.leaf keccak256 toUtf8Bytes sep) = .ok _ :=
    buildTree_eq (mt List.map_eq_nil_iff.mp hn) hl
  rw [hashEntries, if_neg <| mt List.eq_nil_of_length_eq_zero hn, hm]
  change ∃ t, (buildTree keccak256 ((E.map pair).map (·.leaf)) >>= _) = .ok t ∧ _
  rw [hp, ht]
  exact ⟨_, rfl, rfl⟩

theorem root_eq (h : hashEntries keccak256 toUtf8Bytes sep E = .ok t) : t.root =
    (PairTree.top <| PairTree.layers (tagged keccak256).pair <|
      (sortedBytes <| E.map <| Entry.leaf keccak256 toUtf8Bytes sep).map
        (tagged keccak256).leaf).map hexlify := by
  have ⟨_, h', hr⟩ := exists_hashEntries keccak256 (ne_nil_of_hashEntries h) (exists_relBytes h)
  exact Except.ok.inj (h'.symm.trans h) ▸ hr

-- A leaf commits to the path which is left after the second normalization, and to the content.
theorem leaf_eq_iff
    (hu : ∀ s₁ s₂ bytes, toUtf8Bytes s₁ = .ok bytes → toUtf8Bytes s₂ = .ok bytes → s₁ = s₂)
    {is : List Bytes} (c : CollisionFree keccak256 is)
    (h₁ : toUtf8Bytes (e₁.renormalized sep).fst = .ok relBytes₁)
    (h₂ : toUtf8Bytes (e₂.renormalized sep).fst = .ok relBytes₂)
    (hi₁ : e₁.inputs keccak256 toUtf8Bytes sep ⊆ is) (hi₂ : e₂.inputs keccak256 toUtf8Bytes sep ⊆ is) :
    toBytes32 (e₁.leaf keccak256 toUtf8Bytes sep) = toBytes32 (e₂.leaf keccak256 toUtf8Bytes sep) ↔
      e₁.renormalized sep = e₂.renormalized sep := by
  rw [Entry.inputs, h₁] at hi₁
  rw [Entry.inputs, h₂] at hi₂
  simp only [List.cons_subset] at hi₁ hi₂
  rw [leaf_eq h₁, leaf_eq h₂, toBytes32_hashBytes, toBytes32_hashBytes]
  constructor
  case mp =>
    intro h
    have ⟨hr, hc⟩ := pathInput_inj <| c _ hi₁.right.left _ hi₂.right.left h
    refine Prod.ext (hu _ _ _ h₁ <| hr ▸ h₂) ?_
    exact c _ hi₁.left _ hi₂.left hc
  case mpr =>
    intro h
    have hr : relBytes₁ = relBytes₂ := Except.ok.inj <| h₁.symm.trans <| h ▸ h₂
    have hc : e₁.content = e₂.content := congrArg Prod.snd h
    rw [hr, hc]

section

variable {E₁ E₂ : List Entry} {t₁ t₂ : DirTree}

-- Entries with distinct paths do not share a leaf, unless one path is the other one after `./`.
theorem count_leaf_le
    (hu : ∀ s₁ s₂ bytes, toUtf8Bytes s₁ = .ok bytes → toUtf8Bytes s₂ = .ok bytes → s₁ = s₂)
    (h : hashEntries keccak256 toUtf8Bytes sep E = .ok t)
    (hd : (E.map fun e => toPosixRel sep e.path).Nodup)
    {is : List Bytes} (c : CollisionFree keccak256 is)
    (hi : ∀ e ∈ E, e.inputs keccak256 toUtf8Bytes sep ⊆ is) (x : Bytes32) :
    (sortedBytes <| E.map <| Entry.leaf keccak256 toUtf8Bytes sep).count x ≤ 2 := by
  rw [sortedBytes_perm.count_eq, List.map_map]
  by_cases hx : ∃ e ∈ E, toBytes32 (e.leaf keccak256 toUtf8Bytes sep) = x
  case pos =>
    obtain ⟨e, he, rfl⟩ := hx
    have ⟨_, hb⟩ := exists_relBytes h e he
    let path := (e.renormalized sep).fst
    refine count_map_le [path, js "./" ++ path] hd fun e' he' hl => ?_
    have ⟨_, hb'⟩ := exists_relBytes h e' he'
    have hr := leaf_eq_iff hu c hb' hb (hi e' he') (hi e he) |>.mp hl
    have hr : toPosixRel sep (toPosixRel sep e'.path) = path := congrArg Prod.fst hr
    simpa [hr] using toPosixRel_cases sep e'.path
  case neg =>
    rw [List.count_eq_zero_of_not_mem]
    · omega
    · simpa using hx

section

variable (hv : ∀ x ∈ E₁ ++ E₂, ∀ y ∈ E₁ ++ E₂,
  toBytes32 (x.leaf keccak256 toUtf8Bytes sep) = toBytes32 (y.leaf keccak256 toUtf8Bytes sep) ↔
    x.renormalized sep = y.renormalized sep)
variable (hl₁ : ∀ c ∈ E₁.map (Entry.leaf keccak256 toUtf8Bytes sep), isHex32 c)
variable (hl₂ : ∀ c ∈ E₂.map (Entry.leaf keccak256 toUtf8Bytes sep), isHex32 c)

include hv hl₁ hl₂

theorem sortedBytes_eq_iff :
    sortedBytes (E₁.map <| Entry.leaf keccak256 toUtf8Bytes sep) =
      sortedBytes (E₂.map <| Entry.leaf keccak256 toUtf8Bytes sep) ↔
    (E₁.map <| Entry.renormalized sep).Perm (E₂.map <| Entry.renormalized sep) := by
  rw [←perm_map_iff _ _ hv]
  have hp₁ := sortedBytes_perm (L := E₁.map <| Entry.leaf keccak256 toUtf8Bytes sep)
  have hp₂ := sortedBytes_perm (L := E₂.map <| Entry.leaf keccak256 toUtf8Bytes sep)
  rw [List.map_map] at hp₁ hp₂
  constructor
  case mp => exact fun h => hp₁.symm.trans <| h ▸ hp₂
  case mpr =>
    intro h
    have hp := hp₁.trans <| h.trans hp₂.symm
    exact hp.eq_of_pairwise (fun _ _ _ _ => le_antisymm) (sortedBytes_pairwise hl₁)
      (sortedBytes_pairwise hl₂)

theorem repeats_iff :
    let as := sortedBytes <| E₁.map <| Entry.leaf keccak256 toUtf8Bytes sep
    let bs := sortedBytes <| E₂.map <| Entry.leaf keccak256 toUtf8Bytes sep
    (1 < as.length ∧ PairTree.Doubled as bs) ↔ Repeats keccak256 toUtf8Bytes sep E₁ E₂ := by
  intro as bs
  have hp₁ : as.Perm _ := sortedBytes_perm
  have hp₂ : bs.Perm _ := sortedBytes_perm
  rw [List.map_map] at hp₁ hp₂
  rw [PairTree.doubled_iff (sortedBytes_pairwise hl₁) (sortedBytes_pairwise hl₂) hp₁ hp₂, hp₁.length_eq,
    List.length_map]
  have hh₁ {e} (he : e ∈ E₁) := hl₁ _ <| List.mem_map_of_mem he
  have hr {e} (he : e ∈ E₁) := perm_map_iff E₂ (e :: E₁) fun x hx y hy =>
    hv x (by grind) y (by grind)
  constructor
  case mp =>
    rintro ⟨hn, ho, a, ha, hm, hb⟩
    obtain ⟨e, he, rfl⟩ := List.mem_map.mp ha
    refine ⟨ho, hn, e, he, fun e' he' => ?_, (hr he).mp hb⟩
    exact toBytes32_le_iff (hh₁ he') (hh₁ he) |>.mp <| hm _ <| List.mem_map_of_mem he'
  case mpr =>
    rintro ⟨ho, hn, e, he, hm, hb⟩
    refine ⟨hn, ho, _, List.mem_map_of_mem he, fun b hb => ?_, (hr he).mpr hb⟩
    obtain ⟨e', he', rfl⟩ := List.mem_map.mp hb
    exact toBytes32_le_iff (hh₁ he') (hh₁ he) |>.mpr <| hm e' he'

end

section

variable (hu : ∀ s₁ s₂ bytes, toUtf8Bytes s₁ = .ok bytes → toUtf8Bytes s₂ = .ok bytes → s₁ = s₂)
variable (h₁ : hashEntries keccak256 toUtf8Bytes sep E₁ = .ok t₁)
variable (h₂ : hashEntries keccak256 toUtf8Bytes sep E₂ = .ok t₂)
variable (hd₁ : (E₁.map fun e => toPosixRel sep e.path).Nodup)
variable (hd₂ : (E₂.map fun e => toPosixRel sep e.path).Nodup)
variable (c : CollisionFree keccak256
  (entryInputs keccak256 toUtf8Bytes sep E₁ ++ entryInputs keccak256 toUtf8Bytes sep E₂))

theorem nodup_normalized (hd : (E.map fun e => toPosixRel sep e.path).Nodup) :
    (E.map <| Entry.normalized sep).Nodup :=
  List.Nodup.of_map Prod.fst <| by rwa [List.map_map]

include hd₁ hd₂ in
theorem SameFiles.perm (h : SameFiles sep E₁ E₂) :
    (E₁.map <| Entry.renormalized sep).Perm (E₂.map <| Entry.renormalized sep) := by
  have hp := List.perm_ext_iff_of_nodup (nodup_normalized hd₁) (nodup_normalized hd₂) |>.mpr h
  have hp := hp.map fun (path, content) => (toPosixRel sep path, content)
  rwa [List.map_map, List.map_map] at hp

include hu h₁ h₂ hd₁ hd₂ c

-- Equal roots mean equal leaves.
theorem root_eq_iff : t₁.root = t₂.root ↔ SameLeaves keccak256 toUtf8Bytes sep E₁ E₂ := by
  let is := entryInputs keccak256 toUtf8Bytes sep E₁ ++ entryInputs keccak256 toUtf8Bytes sep E₂
  have hi {E : List Entry} (h : entryInputs keccak256 toUtf8Bytes sep E ⊆ is) :
      ∀ e ∈ E, e.inputs keccak256 toUtf8Bytes sep ⊆ is := fun e he x hx =>
    h <| List.mem_append_left _ <| List.mem_flatMap.mpr ⟨e, he, hx⟩
  have hi₁ := hi <| List.subset_append_left ..
  have hi₂ := hi <| List.subset_append_right ..
  have hv : ∀ x ∈ E₁ ++ E₂, ∀ y ∈ E₁ ++ E₂,
      toBytes32 (x.leaf keccak256 toUtf8Bytes sep) = toBytes32 (y.leaf keccak256 toUtf8Bytes sep) ↔
        x.renormalized sep = y.renormalized sep := by
    have hb : ∀ x ∈ E₁ ++ E₂, (∃ relBytes, toUtf8Bytes (x.renormalized sep).fst = .ok relBytes) ∧
        x.inputs keccak256 toUtf8Bytes sep ⊆ is := fun x hx =>
      match List.mem_append.mp hx with
      | .inl hx => ⟨exists_relBytes h₁ x hx, hi₁ x hx⟩
      | .inr hx => ⟨exists_relBytes h₂ x hx, hi₂ x hx⟩
    intro x hx y hy
    have ⟨⟨_, hx⟩, hix⟩ := hb x hx
    have ⟨⟨_, hy⟩, hiy⟩ := hb y hy
    exact leaf_eq_iff hu c hx hy hix hiy
  have hv' : ∀ x ∈ E₂ ++ E₁, ∀ y ∈ E₂ ++ E₁, _ := fun x hx y hy =>
    hv x (by grind) y (by grind)
  have hn {E : List Entry} (hn : E ≠ []) :
      (sortedBytes <| E.map <| Entry.leaf keccak256 toUtf8Bytes sep) ≠ [] := fun h =>
    hn <| by simpa [h] using sortedBytes_perm (L := E.map <| Entry.leaf keccak256 toUtf8Bytes sep)
  have hl₁ := isHex32_leaf h₁
  have hl₂ := isHex32_leaf h₂
  have c' := c.mono <| List.append_subset.mpr ⟨
    List.subset_append_of_subset_left _ <| List.subset_append_right ..,
    List.subset_append_of_subset_right _ <| List.subset_append_right ..⟩
  rw [root_eq h₁, root_eq h₂, (Option.map_injective fun _ _ => hexlify_inj).eq_iff,
    PairTree.top_eq_iff c' (hn <| ne_nil_of_hashEntries h₁) (hn <| ne_nil_of_hashEntries h₂)
      (sortedBytes_pairwise hl₁) (sortedBytes_pairwise hl₂) (count_leaf_le hu h₁ hd₁ c hi₁)
      (count_leaf_le hu h₂ hd₂ c hi₂)]
  exact or_congr (sortedBytes_eq_iff hv hl₁ hl₂) <|
    or_congr (repeats_iff hv hl₁ hl₂) (repeats_iff hv' hl₂ hl₁)

-- The root binds the set of the files if no normalized path starts with `./`.
theorem root_binds_canonical (hc : ∀ e ∈ E₁ ++ E₂, (toPosixRel sep e.path).take 2 ≠ js "./") :
    t₁.root = t₂.root ↔ SameFiles sep E₁ E₂ := by
  have hr {E : List Entry} (hs : E ⊆ E₁ ++ E₂) :
      E.map (Entry.renormalized sep) = E.map (Entry.normalized sep) :=
    List.map_congr_left fun e he => renormalized_eq <| hc e <| hs he
  have hr₁ := hr <| List.subset_append_left ..
  have hr₂ := hr <| List.subset_append_right ..
  have not_repeats {E E' : List Entry}
      (hr : E'.map (Entry.renormalized sep) = E'.map (Entry.normalized sep))
      (hd : (E'.map fun e => toPosixRel sep e.path).Nodup) :
      ¬ Repeats keccak256 toUtf8Bytes sep E E' := by
    rintro ⟨_, _, e, he, _, hp⟩
    rw [hr] at hp
    have := hp.nodup_iff.mp (nodup_normalized hd)
    exact List.nodup_cons.mp this |>.left <| List.mem_map_of_mem he
  rw [root_eq_iff hu h₁ h₂ hd₁ hd₂ c]
  constructor
  case mp =>
    rintro (h | h | h)
    · rw [hr₁, hr₂] at h
      exact fun _ => h.mem_iff
    · exact absurd h <| not_repeats hr₂ hd₂
    · exact absurd h <| not_repeats hr₁ hd₁
  case mpr => exact fun h => .inl <| h.perm hd₁ hd₂

-- The root binds the set of the files, unless the second normalization makes different lists equal.
theorem hashEntries_binds_iff :
    (t₁.root = t₂.root ↔ SameFiles sep E₁ E₂) ↔
      SameFiles sep E₁ E₂ ∨ ¬ SameLeaves keccak256 toUtf8Bytes sep E₁ E₂ := by
  rw [root_eq_iff hu h₁ h₂ hd₁ hd₂ c]
  by_cases h : SameFiles sep E₁ E₂
  case pos =>
    have hs : SameLeaves keccak256 toUtf8Bytes sep E₁ E₂ := .inl <| h.perm hd₁ hd₂
    simp [h, hs]
  case neg => simp [h]

end

end

end

-- The encoding of strings of ASCII characters.
def asciiBytes (s : JsString) : Except JsString Bytes :=
  if s.all (· < 128) then
    .ok <| s.map UInt16.toUInt8
  else
    .error <| js "invalid surrogate pair"

theorem asciiBytes_inj (s₁ s₂ : JsString) (bytes : Bytes) (h₁ : asciiBytes s₁ = .ok bytes)
    (h₂ : asciiBytes s₂ = .ok bytes) : s₁ = s₂ := by
  have decode {s} (h : asciiBytes s = .ok bytes) : bytes.map UInt8.toUInt16 = s := by
    rw [asciiBytes] at h
    split_ifs at h with hs
    obtain ⟨rfl⟩ := h
    rw [List.map_map]
    refine (List.map_congr_left fun u hu => ?_).trans <| List.map_id s
    have := UInt16.lt_iff_toNat_lt.mp <| of_decide_eq_true <| List.all_eq_true.mp hs u hu
    refine UInt16.toNat_inj.mp ?_
    simp only [Function.comp_apply, UInt8.toNat_toUInt16, UInt16.toNat_toUInt8, id_eq]
    exact Nat.mod_eq_of_lt <| this.trans (by decide)
  rw [←decode h₁, decode h₂]

def slash : UInt16 := 47

def fileA : Entry := ⟨js "a", [1], none⟩
def fileB : Entry := ⟨js "b", [2], none⟩

theorem hashEntries_binds_iff_ab :
    ∃ t₁ t₂, hashEntries Keccak.keccak256 asciiBytes slash [fileA, fileB] = .ok t₁ ∧
      hashEntries Keccak.keccak256 asciiBytes slash [fileB, fileA] = .ok t₂ ∧
      ((t₁.root = t₂.root ↔ SameFiles slash [fileA, fileB] [fileB, fileA]) ↔
        SameFiles slash [fileA, fileB] [fileB, fileA] ∨
        ¬ SameLeaves Keccak.keccak256 asciiBytes slash [fileA, fileB] [fileB, fileA]) := by
  have hb : ∀ e ∈ [fileA, fileB], ∃ relBytes, asciiBytes (e.renormalized slash).fst = .ok relBytes :=
    List.forall_mem_cons.mpr ⟨⟨[97], by decide⟩, by simpa using ⟨[98], by decide⟩⟩
  have ⟨t₁, h₁, _⟩ := exists_hashEntries Keccak.keccak256 (by simp) hb
  have ⟨t₂, h₂, _⟩ := exists_hashEntries Keccak.keccak256 (E := [fileB, fileA]) (by simp)
    fun e he => hb e (by grind)
  have c : CollisionFree Keccak.keccak256
      (entryInputs Keccak.keccak256 asciiBytes slash [fileA, fileB] ++
        entryInputs Keccak.keccak256 asciiBytes slash [fileB, fileA]) := by decide +kernel
  exact ⟨t₁, t₂, h₁, h₂, hashEntries_binds_iff asciiBytes_inj h₁ h₂ (by decide) (by decide) c⟩

-- The first normalization leaves `./a` and `a`.
def dotDotA : Entry := ⟨js "././a", [1], none⟩
def dotA : Entry := ⟨js "./a", [1], none⟩

theorem hashEntries_not_binding :
    ∃ t₁ t₂, hashEntries Keccak.keccak256 asciiBytes slash [dotDotA] = .ok t₁ ∧
      hashEntries Keccak.keccak256 asciiBytes slash [dotA] = .ok t₂ ∧
      ([dotDotA].map fun e => toPosixRel slash e.path).Nodup ∧
      ([dotA].map fun e => toPosixRel slash e.path).Nodup ∧
      CollisionFree Keccak.keccak256 (entryInputs Keccak.keccak256 asciiBytes slash [dotDotA] ++
        entryInputs Keccak.keccak256 asciiBytes slash [dotA]) ∧
      t₁.root = t₂.root ∧ ¬ SameFiles slash [dotDotA] [dotA] := by
  have hb : ∀ e ∈ [dotDotA, dotA], ∃ relBytes, asciiBytes (e.renormalized slash).fst = .ok relBytes :=
    List.forall_mem_cons.mpr ⟨⟨[97], by decide⟩, by simpa using ⟨[97], by decide⟩⟩
  have ⟨t₁, h₁, hr₁⟩ := exists_hashEntries Keccak.keccak256 (E := [dotDotA]) (by simp)
    fun e he => hb e (by grind)
  have ⟨t₂, h₂, hr₂⟩ := exists_hashEntries Keccak.keccak256 (E := [dotA]) (by simp)
    fun e he => hb e (by grind)
  obtain ⟨hl, c⟩ :
      [dotDotA].map (Entry.leaf Keccak.keccak256 asciiBytes slash) =
        [dotA].map (Entry.leaf Keccak.keccak256 asciiBytes slash) ∧
      CollisionFree Keccak.keccak256 (entryInputs Keccak.keccak256 asciiBytes slash [dotDotA] ++
        entryInputs Keccak.keccak256 asciiBytes slash [dotA]) := by decide +kernel
  refine ⟨t₁, t₂, h₁, h₂, by decide, by decide, c, by rw [hr₁, hr₂, hl], fun h => ?_⟩
  exact absurd (h (dotA.normalized slash) |>.mpr (by decide)) (by decide)

end Cli
