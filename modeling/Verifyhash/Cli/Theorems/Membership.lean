import Verifyhash.Cli.Hash
import Verifyhash.Hash.Keccak
import Verifyhash.Library.PairTree.Root
import Verifyhash.Registry.Leaves

namespace Cli

open Hex

section

variable (keccak256 : Bytes → Bytes32)

-- The bytes of the leaves in the order of the tree.
def sortedBytes (leaves : List JsString) : List Bytes32 :=
  (sortBy id leaves).map toBytes32

-- The inputs which are hashed to build the tree.
def treeInputs (leaves : List JsString) : List Bytes :=
  PairTree.treeInputs (tagged keccak256) (sortedBytes leaves)

-- The inputs which are hashed to verify a leaf.
def verifyInputs (contentHash : Bytes32) (proof : List Bytes32) : List Bytes :=
  let S := tagged keccak256
  S.leafInput contentHash :: S.foldInputs (S.leaf contentHash) proof

end

variable {keccak256 : Bytes → Bytes32} {L : List JsString}

theorem getBytes_LEAF_TAG : getBytes LEAF_TAG = [0] := by
  decide +kernel

theorem getBytes_NODE_TAG : getBytes NODE_TAG = [1] := by
  decide +kernel

theorem leafHash_eq (h : isHex32 c) :
    leafHash keccak256 c = hexlify ((tagged keccak256).leaf <| toBytes32 c) := by
  rw [leafHash, getBytes_eq h, getBytes_LEAF_TAG]
  rfl

theorem nodeHash_hexlify (a b : Bytes32) :
    nodeHash keccak256 (hexlify a) (hexlify b) = hexlify ((tagged keccak256).pair a b) := by
  rw [nodeHash, bigInt_hexlify, bigInt_hexlify, Scheme.pair, Scheme.pairInput]
  by_cases h : a ≤ b
  · rw [if_pos h, if_pos (BitVec.le_def.mp h)]
    simp only [getBytes_hexlify, getBytes_NODE_TAG]
    rfl
  · rw [if_neg h, if_neg (mt BitVec.le_def.mpr h)]
    simp only [getBytes_hexlify, getBytes_NODE_TAG]
    rfl

theorem sortBy_perm {value : α → JsString} {l : List α} : (sortBy value l).Perm l :=
  List.perm_insertionSort ..

theorem sortBy_pairwise {value : α → JsString} {l : List α} :
    (sortBy value l).Pairwise fun a b => bigInt (value a) ≤ bigInt (value b) :=
  let r a b := bigInt (value a) ≤ bigInt (value b)
  have : Std.Total r := ⟨fun _ _ => Nat.le_total ..⟩
  have : IsTrans α r := ⟨fun _ _ _ => Nat.le_trans⟩
  List.pairwise_insertionSort r l

theorem sortedBytes_perm : (sortedBytes L).Perm (L.map toBytes32) :=
  sortBy_perm.map _

theorem toBytes32_le_iff (ha : isHex32 a) (hb : isHex32 b) :
    toBytes32 a ≤ toBytes32 b ↔ bigInt a ≤ bigInt b := by
  rw [BitVec.le_def, toNat_toBytes32 ha, toNat_toBytes32 hb]

theorem sortedBytes_pairwise (h : ∀ c ∈ L, isHex32 c) : (sortedBytes L).Pairwise (· ≤ ·) := by
  refine List.pairwise_map.mpr <| sortBy_pairwise.imp_of_mem fun {a b} ha hb hl => ?_
  rw [sortBy_perm.mem_iff] at ha hb
  exact toBytes32_le_iff (h a ha) (h b hb) |>.mpr hl

theorem registry_nodeHash : Registry.nodeHash keccak256 = (tagged keccak256).pair := by
  funext a b
  rw [Registry.nodeHash, Scheme.pair, Scheme.pairInput]
  split_ifs <;> rfl

theorem verifyLeaf_iff : Registry.verifyLeaf keccak256 root c proof ↔
    proof.foldl (tagged keccak256).pair ((tagged keccak256).leaf c) = root := by
  rw [Registry.verifyLeaf, registry_nodeHash, decide_eq_true_iff]
  rfl

theorem buildTree_eq (hn : L ≠ []) (h : ∀ c ∈ L, isHex32 c) :
    let S := tagged keccak256
    let layers := PairTree.layers S.pair <| (sortedBytes L).map S.leaf
    buildTree keccak256 L = .ok {
      root         := (PairTree.top layers).map hexlify
      layers       := layers.map (List.map hexlify)
      sortedLeaves := sortBy id L
    } := by
  intro S layers
  have hl : L.length ≠ 0 := mt List.eq_nil_of_length_eq_zero hn
  have hs : (sortBy id L).map (leafHash keccak256) =
      ((sortedBytes L).map S.leaf).map hexlify := by
    rw [sortedBytes, List.map_map, List.map_map]
    exact List.map_congr_left fun c hc => leafHash_eq <| h c <| sortBy_perm.mem_iff.mp hc
  rw [buildTree, if_neg hl]
  simp only [hs, PairTree.layers_map nodeHash_hexlify, PairTree.top_map]
  rfl

-- The contract accepts a proof for every leaf of a tree, and no proof for anything else.
structure Verifiable (keccak256 : Bytes → Bytes32) (L : List JsString) (tree : Tree) (root : JsString) :
    Prop where
  leaves   : tree.sortedLeaves.Perm L
  complete : ∀ i c, tree.sortedLeaves[i]? = some c →
    ∃ proof : List JsString, proofForIndex tree.layers i = proof.map some ∧
      Registry.verifyLeaf keccak256 (toBytes32 root) (toBytes32 c) (proof.map toBytes32)
  sound    : ∀ c proof,
    CollisionFree keccak256 (treeInputs keccak256 L ++ verifyInputs keccak256 c proof) →
    Registry.verifyLeaf keccak256 (toBytes32 root) c proof → c ∈ L.map toBytes32

theorem buildTree_verifiable (keccak256 : Bytes → Bytes32) (hn : L ≠ []) (h : ∀ c ∈ L, isHex32 c) :
    ∃ tree root, buildTree keccak256 L = .ok tree ∧ tree.root = some root ∧
      Verifiable keccak256 L tree root := by
  let S := tagged keccak256
  have hp := sortedBytes_perm (L := L)
  have hs : sortedBytes L ≠ [] := fun h => hn <| by simpa [h] using hp
  have ⟨_, x, hx, _⟩ := PairTree.exists_root hs <| List.Subset.refl <| treeInputs keccak256 L
  refine ⟨_, hexlify x, buildTree_eq hn h, congrArg (Option.map hexlify) hx, sortBy_perm, ?_, ?_⟩
  case refine_1 =>
    intro i c hc
    have hc : ((sortedBytes L).map S.leaf)[i]? = some (S.leaf <| toBytes32 c) := by
      rw [sortedBytes, List.getElem?_map, List.getElem?_map, hc]
      rfl
    have ⟨proof, hp, ht⟩ := PairTree.foldl_siblings (Scheme.pair_comm (S := S)) hc
    refine ⟨proof.map hexlify, ?_, ?_⟩
    · rw [proofForIndex, PairTree.siblings_map, hp, List.map_map, List.map_map]
      rfl
    · rw [verifyLeaf_iff, map_toBytes32_hexlify, toBytes32_hexlify]
      exact Option.some.inj <| ht.symm.trans hx
  case refine_2 =>
    intro c proof hc hv
    rw [verifyLeaf_iff, toBytes32_hexlify] at hv
    exact hp.mem_iff.mp <| PairTree.mem_of_foldl hc hs <| hx.trans <| congrArg some hv.symm

def contents : List JsString :=
  [hexlify 9, hexlify 7, hexlify 8]

theorem buildTree_verifiable_contents :
    CollisionFree Keccak.keccak256
      (treeInputs Keccak.keccak256 contents ++ verifyInputs Keccak.keccak256 7 [8]) ∧
    ∃ tree root, buildTree Keccak.keccak256 contents = .ok tree ∧ tree.root = some root ∧
      Verifiable Keccak.keccak256 contents tree root :=
  have h : ∀ c ∈ contents, isHex32 c := by simp [contents]
  ⟨by decide +kernel, buildTree_verifiable Keccak.keccak256 (by simp [contents]) h⟩

end Cli
