import Verifyhash.Cli.PacketSeal
import Verifyhash.Cli.Theorems.DirRoot
import Verifyhash.Verifier.Merkle
import Verifyhash.VerifierRs.Merkle
import Verifyhash.Verifier.Keccak

-- The three derivations of a root.
namespace Verifier

open Hex Fallible

-- The leaf of a text and a digest.
def leafOf (keccak256 : Bytes → Bytes32) (file : List Char × Bytes32) : Bytes32 :=
  keccak256 <| .ofBytes32 (keccak256 <| .ofAscii "verifyhash/dir-leaf/v1") ++
    Unicode.utf8 file.fst ++ [0x00] ++ .ofBytes32 file.snd

-- The root of the tree over the given leaves.
def rootOf (keccak256 : Bytes → Bytes32) (leaves : List Bytes32) : Option Bytes32 :=
  let S := tagged keccak256
  PairTree.top <| PairTree.layers S.pair <| (leaves.insertionSort (· ≤ ·)).map S.leaf

-- The spelling of a file in the two implementations in JavaScript.
def spell (file : List Char × Bytes32) : JsString × JsString :=
  (Unicode.utf16 file.fst, hexlify file.snd)

variable {keccak256 : Bytes → Bytes32} {leaves : List Bytes32} {cs : List Char}

variable (keccak256) in
theorem exists_rootOf (hn : leaves ≠ []) : ∃ root, rootOf keccak256 leaves = some root :=
  have hn : leaves.insertionSort (· ≤ ·) ≠ [] := fun h =>
    hn <| by simpa [h] using (List.perm_insertionSort (· ≤ ·) leaves).symm
  have ⟨_, root, hr, _⟩ := PairTree.exists_root (S := tagged keccak256) hn <| List.Subset.refl _
  ⟨root, hr⟩

-- A path which the normalization leaves alone does not start with `./`.
theorem take_ne_of_toPosixRel_eq {s : JsString} (h : Cli.toPosixRel sep s = s) : s.take 2 ≠ js "./" := by
  intro hs
  have hm := @Cli.map_sep_toPosixRel sep s
  rw [h] at hm
  rw [Cli.toPosixRel, hm, if_pos hs] at h
  have := congrArg List.length h
  have := congrArg List.length hs
  have : (js "./").length = 2 := by decide
  grind

section Cli

theorem sortedBytes_hexlify :
    Cli.sortedBytes (leaves.map hexlify) = leaves.insertionSort (· ≤ ·) := by
  have hs : Cli.sortBy id (leaves.map hexlify) = (leaves.insertionSort (· ≤ ·)).map hexlify := by
    refine (List.map_insertionSort _ _ _ _ fun a _ b _ => ?_).symm
    simp [bigInt_hexlify, BitVec.le_def]
  rw [Cli.sortedBytes, hs, map_toBytes32_hexlify]

variable (keccak256) in
theorem cli_root (hn : leaves ≠ []) :
    ∃ tree, Cli.buildTree keccak256 (leaves.map hexlify) = .ok tree ∧
      tree.root = (rootOf keccak256 leaves).map hexlify := by
  have h := @Cli.buildTree_eq keccak256 (leaves.map hexlify) (by simpa using hn) (by simp)
  rw [sortedBytes_hexlify] at h
  exact ⟨_, h, rfl⟩

theorem cli_DIR_LEAF_DOMAIN :
    getBytes (Cli.DIR_LEAF_DOMAIN keccak256) =
      .ofBytes32 (keccak256 <| .ofAscii "verifyhash/dir-leaf/v1") :=
  getBytes_hexlify _

theorem cli_pathLeaf {toUtf8Bytes : JsString → Except JsString Bytes} {sep : UInt16}
    (hu : Unicode.Encodes toUtf8Bytes) (hp : Cli.toPosixRel sep (Unicode.utf16 cs) = Unicode.utf16 cs) :
    Cli.pathLeaf keccak256 toUtf8Bytes sep (Unicode.utf16 cs) (hexlify d) =
      .ok (hexlify <| leafOf keccak256 (cs, d)) := by
  have hs : getBytes Cli.PATH_SEP = [0x00] := by decide +kernel
  rw [Cli.pathLeaf, hp, hu]
  change Except.ok _ = _
  rw [Cli.pathInput, cli_DIR_LEAF_DOMAIN, hs, getBytes_hexlify]
  rfl

end Cli

section JavaScript

theorem hexToBuf32_hexlify : hexToBuf32 (hexlify w) = .ok (.ofBytes32 w) := by
  rw [hexToBuf32, if_pos <| isHex32_hexlify w, getBytes_hexlify]

theorem leafHash_hexlify :
    leafHash keccak256 (hexlify w) = .ok (hexlify <| (tagged keccak256).leaf w) := by
  rw [leafHash, hexToBuf32_hexlify]
  rfl

theorem nodeHash_hexlify : nodeHash keccak256 (hexlify a) (hexlify b) =
    .ok (hexlify <| (tagged keccak256).pair a b) := by
  simp only [nodeHash, hexToBuf32_hexlify, ok_bind, Bytes.compare_ofBytes32, Scheme.pair, Scheme.pairInput]
  split_ifs <;> rfl

theorem nextLayer_hexlify (layer : List Bytes32) : nextLayer keccak256 (layer.map hexlify) =
    .ok ((PairTree.next (tagged keccak256).pair layer).map hexlify) := by
  rw [nextLayer, PairTree.pairs_map, PairTree.next, List.map_map]
  exact mapM_map_eq_ok fun _ _ => nodeHash_hexlify

theorem reduceLayers_hexlify (layer : List Bytes32) : reduceLayers keccak256 (layer.map hexlify) =
    .ok ((PairTree.reduce (tagged keccak256).pair layer).map hexlify) := by
  fun_induction PairTree.reduce (tagged keccak256).pair layer
  case case1 layer hl ih =>
    rw [reduceLayers, if_pos (by simpa using hl)]
    split
    case h_1 h =>
      rw [nextLayer_hexlify] at h
      rw [←Except.ok.inj h, ih]
    case h_2 h =>
      rw [nextLayer_hexlify] at h
      cases h
  case case2 layer hl => rw [reduceLayers, if_neg (by simpa using hl)]

theorem sortLeaves_hexlify :
    sortLeaves (leaves.map hexlify) = .ok ((leaves.insertionSort (· ≤ ·)).map hexlify) := by
  let buf (w : Bytes32) : JsString × Bytes := (hexlify w, .ofBytes32 w)
  have hb : (leaves.map hexlify).mapM (fun l => return (l, ← hexToBuf32 l)) = .ok (leaves.map buf) :=
    mapM_map_eq_ok fun _ _ => by rw [hexToBuf32_hexlify, ok_bind]; rfl
  have hs : (leaves.map buf).insertionSort (fun a b => (Bytes.compare a.snd b.snd).isLE) =
      (leaves.insertionSort (· ≤ ·)).map buf :=
    (List.map_insertionSort _ _ _ _ fun _ _ _ _ => Bytes.compare_ofBytes32.symm).symm
  rw [sortLeaves, hb, ok_bind, hs, List.map_map]
  rfl

theorem rootFromLeaves_hexlify (hn : leaves ≠ []) : rootFromLeaves keccak256 (leaves.map hexlify) =
    .ok ((rootOf keccak256 leaves).map hexlify) := by
  have hl (l : List Bytes32) : (l.map hexlify).mapM (leafHash keccak256) =
      .ok ((l.map (tagged keccak256).leaf).map hexlify) := by
    rw [List.map_map]
    exact mapM_map_eq_ok fun _ _ => leafHash_hexlify
  rw [rootFromLeaves, if_neg (by simpa using hn), sortLeaves_hexlify, ok_bind, hl, ok_bind,
    reduceLayers_hexlify, ok_bind, rootOf, PairTree.top_layers, List.head?_map]
  rfl

theorem pathLeaf_hexlify (hp : (Unicode.utf16 cs).take 2 ≠ js "./") :
    pathLeaf keccak256 (Unicode.utf16 cs) (hexlify d) = .ok (hexlify <| leafOf keccak256 (cs, d)) := by
  have hd : Unicode.bufferFrom DIR_LEAF_DOMAIN_STR = .ofAscii "verifyhash/dir-leaf/v1" := by
    decide +kernel
  rw [pathLeaf, toPosixRel, if_neg hp, hexToBuf32_hexlify, ok_bind, Unicode.bufferFrom_utf16,
    DIR_LEAF_DOMAIN, hd]
  rfl

end JavaScript

section Rust

open VerifierRs (keccak256_eq)

theorem rs_leafHash (w : Bytes32) :
    VerifierRs.leafHash (.ofBytes32 w) = .ofBytes32 ((tagged Keccak.keccak256).leaf w) :=
  keccak256_eq _

theorem rs_le (a b : Bytes32) : VerifierRs.le (.ofBytes32 a) (.ofBytes32 b) ↔ a ≤ b :=
  Bytes.compare_ofBytes32

theorem rs_nodeHash (a b : Bytes32) : VerifierRs.nodeHash (.ofBytes32 a) (.ofBytes32 b) =
    .ofBytes32 ((tagged Keccak.keccak256).pair a b) := by
  simp only [VerifierRs.nodeHash, rs_le, Scheme.pair, Scheme.pairInput]
  split_ifs <;> exact keccak256_eq _

theorem rs_pathLeaf (hp : (Unicode.utf16 cs).take 2 ≠ js "./") :
    VerifierRs.pathLeaf cs (.ofBytes32 d) = .ofBytes32 (leafOf Keccak.keccak256 (cs, d)) := by
  have hp : ¬ ['.', '/'].isPrefixOf cs := by
    intro h
    obtain ⟨cs, rfl⟩ := List.isPrefixOf_iff_prefix.mp h
    exact hp rfl
  rw [VerifierRs.pathLeaf, VerifierRs.toPosixRel, if_neg hp, keccak256_eq, VerifierRs.dirLeafDomain,
    keccak256_eq]
  rfl

theorem rs_rootFromFlat {files : List (List Char × Bytes32)} (hn : files ≠ [])
    (hp : ∀ file ∈ files, (Unicode.utf16 file.fst).take 2 ≠ js "./") :
    VerifierRs.rootFromFlat (files.map fun file => (file.fst, .ofBytes32 file.snd)) =
      (rootOf Keccak.keccak256 <| files.map <| leafOf Keccak.keccak256).map .ofBytes32 := by
  have hl {f : List Char × Digest → Digest}
      (hf : ∀ file ∈ files, f (file.fst, .ofBytes32 file.snd) = .ofBytes32 (leafOf Keccak.keccak256 file)) :
      (files.map fun file => (file.fst, Digest.ofBytes32 file.snd)).map f =
        (files.map <| leafOf Keccak.keccak256).map .ofBytes32 := by
    rw [List.map_map, List.map_map]
    exact List.map_congr_left hf
  have hs (l : List Bytes32) : (l.map Digest.ofBytes32).insertionSort (fun a b => VerifierRs.le a b) =
      (l.insertionSort (· ≤ ·)).map .ofBytes32 :=
    (List.map_insertionSort _ _ _ _ fun _ _ _ _ => (rs_le ..).symm).symm
  have ht (l : List Bytes32) : (l.map Digest.ofBytes32).map VerifierRs.leafHash =
      (l.map (tagged Keccak.keccak256).leaf).map .ofBytes32 := by
    rw [List.map_map, List.map_map]
    exact List.map_congr_left fun w _ => rs_leafHash w
  rw [VerifierRs.rootFromFlat, if_neg (by simpa using hn)]
  rw [hl fun file hf => rs_pathLeaf <| hp file hf]
  simp only [hs, ht]
  rw [PairTree.reduce_map rs_nodeHash, List.head?_map, rootOf, PairTree.top_layers]

end Rust

-- The three derivations agree on every list of files, where the functions of `ethers` and `js-sha3`
-- are taken to compute keccak256 and the encoder of `ethers` to encode Unicode text.
theorem rootFromFlat_agrees {ethersKeccak256 jsKeccak256 : Bytes → Bytes32}
    {toUtf8Bytes : JsString → Except JsString Bytes} {sep : UInt16}
    (he : ∀ bytes, ethersKeccak256 bytes = Keccak.keccak256 bytes)
    (hj : ∀ bytes, jsKeccak256 bytes = Keccak.keccak256 bytes) (hu : Unicode.Encodes toUtf8Bytes)
    (files : List (List Char × Bytes32)) (hn : files ≠ [])
    (hp : ∀ file ∈ files, Cli.toPosixRel sep (Unicode.utf16 file.fst) = Unicode.utf16 file.fst) :
    ∃ root, Cli.rootFromLeafEntries ethersKeccak256 toUtf8Bytes sep (files.map spell) =
        .ok (some (hexlify root)) ∧
      rootFromFlat jsKeccak256 (files.map spell) = .ok (some (hexlify root)) ∧
      VerifierRs.rootFromFlat (files.map fun file => (file.fst, .ofBytes32 file.snd)) =
        some (.ofBytes32 root) := by
  obtain rfl : ethersKeccak256 = Keccak.keccak256 := funext he
  obtain rfl : jsKeccak256 = Keccak.keccak256 := funext hj
  have hd : ∀ file ∈ files, (Unicode.utf16 file.fst).take 2 ≠ js "./" :=
    fun file hf => take_ne_of_toPosixRel_eq <| hp file hf
  have hl : files.map (leafOf Keccak.keccak256) ≠ [] := by simpa using hn
  obtain ⟨root, hr⟩ := exists_rootOf Keccak.keccak256 hl
  obtain ⟨tree, ht, htr⟩ := cli_root Keccak.keccak256 hl
  have hm {f} (hf : ∀ file ∈ files, f (spell file) = .ok (hexlify <| leafOf Keccak.keccak256 file)) :
      (files.map spell).mapM f = (.ok <| (files.map <| leafOf Keccak.keccak256).map hexlify : Except JsString _) := by
    rw [List.map_map]
    exact mapM_map_eq_ok hf
  refine ⟨root, ?_, ?_, ?_⟩
  · rw [Cli.rootFromLeafEntries, hm, ok_bind, ht, ok_bind, htr, hr]
    · rfl
    · exact fun file hf => cli_pathLeaf hu <| hp file hf
  · rw [rootFromFlat, hm, ok_bind, rootFromLeaves_hexlify hl, hr]
    · rfl
    · exact fun file hf => pathLeaf_hexlify <| hd file hf
  · rw [rs_rootFromFlat hn hd, hr]
    rfl

def texts : List (List Char × Bytes32) :=
  [(['a'], 9), (['b'], 7), (['a', '/', 'c'], 8)]

theorem rootFromFlat_agrees_texts :
    ∃ root, Cli.rootFromLeafEntries Keccak.keccak256 Unicode.strictUtf8 Cli.slash (texts.map spell) =
        .ok (some (hexlify root)) ∧
      rootFromFlat Keccak.keccak256 (texts.map spell) = .ok (some (hexlify root)) ∧
      VerifierRs.rootFromFlat (texts.map fun file => (file.fst, .ofBytes32 file.snd)) =
        some (.ofBytes32 root) :=
  rootFromFlat_agrees (fun _ => rfl) (fun _ => rfl) Unicode.encodes_strictUtf8 texts (by decide)
    (by decide)

end Verifier
