import Verifyhash.Cli.PacketSeal
import Verifyhash.Cli.Theorems.DirRoot

namespace Cli

open Hex Fallible Checks

section

variable (keccak256 : Bytes → Bytes32) (toUtf8Bytes : JsString → Except JsString Bytes) (sep : UInt16)

-- What the leaf of a file commits to: the path after its normalization, and the bytes of the hash.
def normalizedFile (file : JsString × JsString) : JsString × Bytes32 :=
  (toPosixRel sep file.fst, toBytes32 file.snd)

-- The leaf of a file whose path can be encoded.
def fileLeaf (file : JsString × JsString) : JsString :=
  match pathLeaf keccak256 toUtf8Bytes sep file.fst file.snd with
  | .ok leaf => leaf
  | .error _ => []

def fileInput (file : JsString × JsString) : List Bytes :=
  match toUtf8Bytes <| toPosixRel sep file.fst with
  | .ok relBytes => [pathInput keccak256 relBytes file.snd]
  | .error _     => []

-- The inputs which are hashed to compute the root of the files.
def sealInputs (files : List (JsString × JsString)) : List Bytes :=
  files.flatMap (fileInput keccak256 toUtf8Bytes sep) ++
    treeInputs keccak256 (files.map <| fileLeaf keccak256 toUtf8Bytes sep)

end

variable {keccak256 : Bytes → Bytes32} {toUtf8Bytes : JsString → Except JsString Bytes} {sep : UInt16}
variable {cfg : SealCfg} {file file₁ file₂ : JsString × JsString} {files : List (JsString × JsString)}

-- A file of a valid seal: its hash is well formed, and its path can be encoded.
structure IsFile (toUtf8Bytes : JsString → Except JsString Bytes) (sep : UInt16) (file : JsString × JsString) :
    Prop where
  isHex32 : isHex32 file.snd
  encodes : ∃ relBytes, toUtf8Bytes (toPosixRel sep file.fst) = .ok relBytes

theorem isFile_of_checkEntry (h : checkEntry keccak256 toUtf8Bytes sep cfg i seen entry = .ok file) :
    IsFile toUtf8Bytes sep file := by
  simp only [checkEntry, bind_eq_ok, demand_eq_ok, pure_eq_ok] at h
  obtain ⟨_, -, relPath, -, _, -, _, -, contentHash, hc, leaf, -, expectedLeaf, he, _, -, rfl⟩ := h
  obtain ⟨relBytes, hr, -⟩ := bind_eq_ok.mp he
  exact ⟨(Value.hex32?_eq_some.mp hc).right, relBytes, hr⟩

theorem isFile_of_checkEntries (h : checkEntries keccak256 toUtf8Bytes sep cfg i seen entries = .ok files) :
    ∀ file ∈ files, IsFile toUtf8Bytes sep file := by
  induction entries generalizing i seen files
  case nil =>
    rw [checkEntries, pure_eq_ok] at h
    simp [←h]
  case cons entry entries ih =>
    simp only [checkEntries, bind_eq_ok, pure_eq_ok] at h
    obtain ⟨file, hf, flat, hfs, rfl⟩ := h
    exact List.forall_mem_cons.mpr ⟨isFile_of_checkEntry hf, ih hfs⟩

theorem IsFile.pathLeaf_eq (h : toUtf8Bytes (toPosixRel sep file.fst) = .ok relBytes) :
    pathLeaf keccak256 toUtf8Bytes sep file.fst file.snd =
      .ok (hashBytes keccak256 <| pathInput keccak256 relBytes file.snd) := by
  rw [pathLeaf, h]
  rfl

theorem IsFile.fileLeaf_eq (h : toUtf8Bytes (toPosixRel sep file.fst) = .ok relBytes) :
    fileLeaf keccak256 toUtf8Bytes sep file = hashBytes keccak256 (pathInput keccak256 relBytes file.snd) := by
  rw [fileLeaf, pathLeaf_eq h]

theorem IsFile.isHex32_fileLeaf (h : IsFile toUtf8Bytes sep file) :
    Hex.isHex32 (fileLeaf keccak256 toUtf8Bytes sep file) := by
  obtain ⟨_, hr⟩ := h.encodes
  rw [fileLeaf_eq hr]
  exact isHex32_hashBytes _

-- A leaf commits to the normalized path and to the hash.
theorem IsFile.normalized_eq
    (hu : ∀ s₁ s₂ bytes, toUtf8Bytes s₁ = .ok bytes → toUtf8Bytes s₂ = .ok bytes → s₁ = s₂)
    {is : List Bytes} (c : CollisionFree keccak256 is) (h₁ : IsFile toUtf8Bytes sep file₁)
    (h₂ : IsFile toUtf8Bytes sep file₂) (hi₁ : fileInput keccak256 toUtf8Bytes sep file₁ ⊆ is)
    (hi₂ : fileInput keccak256 toUtf8Bytes sep file₂ ⊆ is)
    (h : toBytes32 (fileLeaf keccak256 toUtf8Bytes sep file₁) =
      toBytes32 (fileLeaf keccak256 toUtf8Bytes sep file₂)) :
    normalizedFile sep file₁ = normalizedFile sep file₂ := by
  obtain ⟨relBytes₁, hr₁⟩ := h₁.encodes
  obtain ⟨relBytes₂, hr₂⟩ := h₂.encodes
  rw [fileInput, hr₁] at hi₁
  rw [fileInput, hr₂] at hi₂
  rw [fileLeaf_eq hr₁, fileLeaf_eq hr₂, toBytes32_hashBytes, toBytes32_hashBytes] at h
  have hp := c _ (hi₁ List.mem_cons_self) _ (hi₂ List.mem_cons_self) h
  simp only [pathInput, List.append_assoc, List.append_cancel_left_eq, getBytes_eq h₁.isHex32,
    getBytes_eq h₂.isHex32] at hp
  obtain ⟨hb, hd⟩ := List.append_inj' hp <| by simp
  have hd := Bytes.ofBytes32_inj <| List.append_cancel_left hd
  exact Prod.ext (hu _ _ _ hr₁ <| hb ▸ hr₂) hd

-- What a seal is which is accepted under a configuration without a header.
structure IsSeal (keccak256 : Bytes → Bytes32) (toUtf8Bytes : JsString → Except JsString Bytes) (sep : UInt16)
    (s : Seal) : Prop where
  ne_nil : s.files ≠ []
  isFile : ∀ file ∈ s.files, IsFile toUtf8Bytes sep file
  root   : some (toLowerCase s.root) =
    (PairTree.top <| PairTree.layers (tagged keccak256).pair <|
      (sortedBytes <| s.files.map <| fileLeaf keccak256 toUtf8Bytes sep).map (tagged keccak256).leaf).map hexlify

theorem rootFromLeafEntries_eq (hn : files ≠ []) (hf : ∀ file ∈ files, IsFile toUtf8Bytes sep file) :
    rootFromLeafEntries keccak256 toUtf8Bytes sep files = .ok
      ((PairTree.top <| PairTree.layers (tagged keccak256).pair <|
        (sortedBytes <| files.map <| fileLeaf keccak256 toUtf8Bytes sep).map
          (tagged keccak256).leaf).map hexlify) := by
  have hm : files.mapM (fun file => pathLeaf keccak256 toUtf8Bytes sep file.fst file.snd) =
      .ok (files.map <| fileLeaf keccak256 toUtf8Bytes sep) := by
    refine mapM_eq_ok fun file hfile => ?_
    obtain ⟨_, hr⟩ := (hf file hfile).encodes
    rw [IsFile.pathLeaf_eq hr, IsFile.fileLeaf_eq hr]
  have hl : ∀ leaf ∈ files.map (fileLeaf keccak256 toUtf8Bytes sep), isHex32 leaf := by
    intro leaf hleaf
    obtain ⟨file, hfile, rfl⟩ := List.mem_map.mp hleaf
    exact (hf file hfile).isHex32_fileLeaf
  rw [rootFromLeafEntries]
  simp only [hm, ok_bind, buildTree_eq (by simpa using hn) hl]
  rfl

theorem isSeal_of_validateSeal {s : Seal} (hc : cfg.header = none)
    (h : validateSeal keccak256 toUtf8Bytes sep obj cfg = .ok s) : IsSeal keccak256 toUtf8Bytes sep s := by
  simp only [validateSeal, committedFlat, hc, bind_eq_ok, pure_eq_ok, require_eq_ok] at h
  obtain ⟨common, hcommon, flat, ⟨_, -, rfl⟩, rederived, hr, _, hl, rfl⟩ := h
  simp only [checkCommonSeal, bind_eq_ok, pure_eq_ok, demand_eq_ok] at hcommon
  obtain ⟨_, -, _, -, _, -, _, -, root, -, entries, hentries, files, hfiles, _, -, rfl⟩ := hcommon
  have hf := isFile_of_checkEntries hfiles
  have hn : files ≠ [] := by
    rintro rfl
    cases entries
    case nil => cases hv : obj.get "files" <;> simp [hv, someElems?] at hentries; split at hentries <;> simp at hentries
    case cons entry entries =>
      simp only [checkEntries, bind_eq_ok, pure_eq_ok] at hfiles
      obtain ⟨_, _, _, _, h⟩ := hfiles
      cases h
  rw [rootFromLeafEntries_eq hn hf] at hr
  cases hr
  refine ⟨hn, hf, ?_⟩
  have hm : toLowerCase ∘ hexlify = hexlify := funext toLowerCase_hexlify
  rw [Option.map_map, hm] at hl
  exact hl.symm

section

variable {s₁ s₂ : Seal}
variable (hu : ∀ s₁ s₂ bytes, toUtf8Bytes s₁ = .ok bytes → toUtf8Bytes s₂ = .ok bytes → s₁ = s₂)

theorem fileInput_subset (hf : file ∈ files) :
    fileInput keccak256 toUtf8Bytes sep file ⊆ sealInputs keccak256 toUtf8Bytes sep files :=
  fun _ hi => List.mem_append_left _ <| List.mem_flatMap.mpr ⟨file, hf, hi⟩

include hu

-- Every file of a seal has its leaf in every seal with the same root.
theorem IsSeal.exists_file {is : List Bytes} (c : CollisionFree keccak256 is)
    (h₁ : IsSeal keccak256 toUtf8Bytes sep s₁) (h₂ : IsSeal keccak256 toUtf8Bytes sep s₂)
    (hi₁ : sealInputs keccak256 toUtf8Bytes sep s₁.files ⊆ is)
    (hi₂ : sealInputs keccak256 toUtf8Bytes sep s₂.files ⊆ is) (hr : s₁.root = s₂.root)
    (hf : file ∈ s₁.files) : ∃ file' ∈ s₂.files, normalizedFile sep file' = normalizedFile sep file := by
  let S := tagged keccak256
  let leaf := fileLeaf keccak256 toUtf8Bytes sep
  have hp {files : List (JsString × JsString)} : (sortedBytes <| files.map leaf).Perm ((files.map leaf).map toBytes32) :=
    sortedBytes_perm
  have hn {s : Seal} (h : IsSeal keccak256 toUtf8Bytes sep s) : (sortedBytes <| s.files.map leaf) ≠ [] := fun hn =>
    h.ne_nil <| by simpa [hn] using @hp s.files
  have hti {files : List (JsString × JsString)} (hi : sealInputs keccak256 toUtf8Bytes sep files ⊆ is) :
      PairTree.treeInputs S (sortedBytes <| files.map leaf) ⊆ is :=
    List.Subset.trans (List.subset_append_right _ _) hi
  obtain ⟨k₁, x₁, ht₁, hx₁, -⟩ := PairTree.exists_root (hn h₁) (hti hi₁)
  obtain ⟨k₂, x₂, ht₂, hx₂, -⟩ := PairTree.exists_root (hn h₂) (hti hi₂)
  have hx : x₁ = x₂ := by
    have hroot := h₁.root.symm.trans <| (congrArg (some <| toLowerCase ·) hr).trans h₂.root
    rw [ht₁, ht₂] at hroot
    exact hexlify_inj <| Option.some.inj hroot
  obtain rfl := hx₁.height_eq c (PairTree.leaves_map <| hti hi₁) (PairTree.leaves_map <| hti hi₂) hx₂ hx
  have ha : toBytes32 (leaf file) ∈ sortedBytes (s₁.files.map leaf) :=
    hp.mem_iff.mpr <| List.mem_map_of_mem <| List.mem_map_of_mem hf
  have hm := hx₁.mem_iff c hx₂ hx _ |>.mp <| List.mem_map_of_mem ha
  obtain ⟨b, hb, hl⟩ := List.mem_map.mp hm
  have hleaf {files : List (JsString × JsString)} (hi : sealInputs keccak256 toUtf8Bytes sep files ⊆ is) {a : Bytes32}
      (ha : a ∈ sortedBytes (files.map leaf)) : S.leafInput a ∈ is :=
    hti hi <| List.mem_append_left _ <| List.mem_map_of_mem ha
  have hab := S.leaf_inj <| c _ (hleaf hi₂ hb) _ (hleaf hi₁ ha) hl
  have hb := hp.mem_iff.mp hb
  rw [List.map_map, List.mem_map] at hb
  obtain ⟨file', hf', rfl⟩ := hb
  exact ⟨file', hf', (h₂.isFile file' hf').normalized_eq hu c (h₁.isFile file hf)
    (List.Subset.trans (fileInput_subset hf') hi₂) (List.Subset.trans (fileInput_subset hf) hi₁) hab⟩

-- A root names the files up to the normalization of their paths and the case of their hashes.
theorem validateSeal_binds (hc : cfg.header = none)
    (h₁ : validateSeal keccak256 toUtf8Bytes sep obj₁ cfg = .ok s₁)
    (h₂ : validateSeal keccak256 toUtf8Bytes sep obj₂ cfg = .ok s₂)
    (c : CollisionFree keccak256
      (sealInputs keccak256 toUtf8Bytes sep s₁.files ++ sealInputs keccak256 toUtf8Bytes sep s₂.files))
    (hr : s₁.root = s₂.root) (file : JsString × Bytes32) :
    file ∈ s₁.files.map (normalizedFile sep) ↔ file ∈ s₂.files.map (normalizedFile sep) := by
  have hs₁ := isSeal_of_validateSeal hc h₁
  have hs₂ := isSeal_of_validateSeal hc h₂
  have hi₁ := List.subset_append_left (sealInputs keccak256 toUtf8Bytes sep s₁.files) <|
    sealInputs keccak256 toUtf8Bytes sep s₂.files
  have hi₂ := List.subset_append_right (sealInputs keccak256 toUtf8Bytes sep s₁.files) <|
    sealInputs keccak256 toUtf8Bytes sep s₂.files
  rw [List.mem_map, List.mem_map]
  constructor
  case mp =>
    rintro ⟨f, hf, rfl⟩
    exact hs₁.exists_file hu c hs₂ hi₁ hi₂ hr hf
  case mpr =>
    rintro ⟨f, hf, rfl⟩
    exact hs₂.exists_file hu c hs₁ hi₂ hi₁ hr.symm hf

end

-- The seal of one file, with its leaf and its root.
def sealOf (file : JsString × JsString) : Seal where
  root :=
    match rootFromLeafEntries Keccak.keccak256 asciiBytes slash [file] with
    | .ok (some root) => root
    | _               => []
  files := [file]

def sealedValue (file : JsString × JsString) : Value :=
  .object [
    (js "kind", .string <| js "seal"),
    (js "schemaVersion", .nat 1),
    (js "note", .string <| js "note"),
    (js "root", .string (sealOf file).root),
    (js "fileCount", .nat 1),
    (js "files", .array [.object [
      (js "relPath", .string file.fst),
      (js "contentHash", .string file.snd),
      (js "leaf", .string <| fileLeaf Keccak.keccak256 asciiBytes slash file)
    ]])
  ]

def sealCfg : SealCfg where
  kind                    := js "seal"
  schemaVersion           := 1
  supportedSchemaVersions := [1]
  note                    := js "note"
  label                   := js "packet seal"
  header                  := none

def dotSlashFile : JsString × JsString := (js "./a", hexlify 1)
def plainFile : JsString × JsString := (js "a", hexlify 1)

-- The two seals are accepted, their roots are the same, and no two of their inputs collide.
theorem accepted_dotSlash_plain :
    validateSeal Keccak.keccak256 asciiBytes slash (sealedValue dotSlashFile) sealCfg = .ok (sealOf dotSlashFile) ∧
    validateSeal Keccak.keccak256 asciiBytes slash (sealedValue plainFile) sealCfg = .ok (sealOf plainFile) ∧
    CollisionFree Keccak.keccak256 (sealInputs Keccak.keccak256 asciiBytes slash (sealOf dotSlashFile).files ++
      sealInputs Keccak.keccak256 asciiBytes slash (sealOf plainFile).files) ∧
    (sealOf dotSlashFile).root = (sealOf plainFile).root := by
  decide +kernel

theorem validateSeal_binds_dotSlash :
    validateSeal Keccak.keccak256 asciiBytes slash (sealedValue dotSlashFile) sealCfg = .ok (sealOf dotSlashFile) ∧
    validateSeal Keccak.keccak256 asciiBytes slash (sealedValue plainFile) sealCfg = .ok (sealOf plainFile) ∧
    ∀ file, file ∈ (sealOf dotSlashFile).files.map (normalizedFile slash) ↔
      file ∈ (sealOf plainFile).files.map (normalizedFile slash) := by
  obtain ⟨h₁, h₂, c, hr⟩ := accepted_dotSlash_plain
  exact ⟨h₁, h₂, validateSeal_binds asciiBytes_inj rfl h₁ h₂ c hr⟩

-- The paths `./a` and `a` have the same leaf.
theorem validateSeal_not_binding :
    validateSeal Keccak.keccak256 asciiBytes slash (sealedValue dotSlashFile) sealCfg = .ok (sealOf dotSlashFile) ∧
    validateSeal Keccak.keccak256 asciiBytes slash (sealedValue plainFile) sealCfg = .ok (sealOf plainFile) ∧
    CollisionFree Keccak.keccak256 (sealInputs Keccak.keccak256 asciiBytes slash (sealOf dotSlashFile).files ++
      sealInputs Keccak.keccak256 asciiBytes slash (sealOf plainFile).files) ∧
    (sealOf dotSlashFile).root = (sealOf plainFile).root ∧
    ¬ ∀ file, file ∈ (sealOf dotSlashFile).files ↔ file ∈ (sealOf plainFile).files := by
  obtain ⟨h₁, h₂, c, hr⟩ := accepted_dotSlash_plain
  refine ⟨h₁, h₂, c, hr, fun h => ?_⟩
  exact absurd (h dotSlashFile |>.mp List.mem_cons_self) (by decide)

end Cli
