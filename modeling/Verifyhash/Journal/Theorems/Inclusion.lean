import Verifyhash.Hash.Keccak
import Verifyhash.Journal.Theorems.Climb

namespace JournalLog

open Hex Value MerkleLog

variable {keccak256 : Bytes → Bytes32} {leaves siblings : List JsString} {index size pth : Value} {i : ℕ}

@[simp]
theorem isObject_head : (treeHead.head s r).isObject :=
  rfl

@[simp]
theorem get_size_head : (treeHead.head s r).get "size" = nat s :=
  rfl

@[simp]
theorem get_root_head : (treeHead.head s r).get "root" = r :=
  rfl

-- Objects with the size and the root of a head, and possibly other fields.
structure IsHead (head : Value) (size : ℕ) (root : Value) : Prop where
  isObject : head.isObject
  size     : head.get "size" = nat size
  root     : head.get "root" = root

theorem verifyInclusion_head (h : IsHead head s r) :
    verifyInclusion keccak256 proof head = verifyInclusion keccak256 proof (treeHead.head s r) := by
  simp only [verifyInclusion, h.isObject, h.size, h.root, isObject_head, get_size_head, get_root_head,
    if_true]

theorem treeHead_ofStrings (h : ∀ leaf ∈ leaves, isHex32 leaf) :
    treeHead keccak256 (ofStrings leaves) =
      treeHead.head leaves.length (string <| mth keccak256 leaves) := by
  have := allHex32?_eq_some.mpr ⟨rfl, h⟩
  simp only [ofStrings, treeHead] at this ⊢
  simp only [this]

variable (keccak256) in
theorem isHex32_mth (h : ∀ leaf ∈ leaves, isHex32 leaf) : isHex32 (mth keccak256 leaves) := by
  simp [mth_eq h]

@[simp]
theorem isHex32_leafHash : isHex32 (leafHash keccak256 leaf) :=
  isHex32_hashBytes _

theorem bitLength_xor {n : ℕ} (h : i < n) : bitLength (xor i (n - 1)) = MerkleLog.inner i n := by
  have hn : (n : ℤ) - 1 = (n - 1 : ℕ) := by omega
  rw [hn, xor_natCast, bitLength_natCast, MerkleLog.inner]

-- The index and the size fix the number of siblings and the sides on the way up.
theorem rootFromInclusionPath_eq_some :
    rootFromInclusionPath keccak256 index size (string seed) pth = some r ↔
      ∃ (i n : ℕ) (siblings : List JsString),
        index.toInt? = some (i : ℤ) ∧ size.toInt? = some (n : ℤ) ∧ i < n ∧ isHex32 seed ∧
        pth.allHex32? = some siblings ∧ siblings.length = (sides i n).length ∧
        climb keccak256 seed ((sides i n).zip siblings) = r := by
  have hf (i n : ℕ) (siblings : List JsString) (h : i < n) (hl : siblings.length = (sides i n).length) :
      chainBorderRight keccak256 (chainInner keccak256 seed (siblings.take <| inner i n) i)
        (siblings.drop <| inner i n) = climb keccak256 seed ((sides i n).zip siblings) := by
    rw [sides_eq_bits h] at hl ⊢
    exact chain_eq keccak256 seed (by simpa using hl) i
  have hl (i n : ℕ) (h : i < n) :
      (sides i n).length = (inner i n : ℤ) + onesCount (shr i <| inner i n) := by
    rw [sides_eq_bits h, shr_natCast, onesCount_natCast]
    simp [border]
  simp only [rootFromInclusionPath, Option.bind_eq_bind, Option.bind_eq_some_iff,
    Option.guard_eq_some', Option.pure_def, Option.some.injEq, hex32?_eq_some]
  constructor
  · rintro ⟨i, hi, n, hn, -, ⟨h₁, h₀, hlt⟩, _, ⟨⟨rfl⟩, hs⟩, siblings, hp, -, hlen, hr⟩
    lift i to ℕ using h₀
    lift n to ℕ using by omega
    have hlt : i < n := by omega
    rw [bitLength_xor hlt] at hlen hr
    rw [←hl i n hlt] at hlen
    have hlen : siblings.length = (sides i n).length := by omega
    exact ⟨i, n, siblings, hi, hn, hlt, hs, hp, hlen, hf i n siblings hlt hlen ▸ hr⟩
  · rintro ⟨i, n, siblings, hi, hn, hlt, hs, hp, hlen, hr⟩
    refine ⟨i, hi, n, hn, (), ⟨by omega, by omega, by omega⟩, seed, ⟨rfl, hs⟩, siblings, hp, (), ?_, ?_⟩
    · rw [bitLength_xor hlt, ←hl i n hlt, hlen]
    · rw [bitLength_xor hlt, hf i n siblings hlt hlen, hr]

-- The verifier accepts exactly the paths of the right shape which lead from the leaf to the root.
theorem verifyInclusion_iff (h : ∀ leaf ∈ leaves, isHex32 leaf) :
    verifyInclusion keccak256 proof (treeHead keccak256 <| ofStrings leaves) ↔
      ∃ (i : ℕ) (leaf : JsString) (siblings : List JsString),
        proof.isObject ∧ (proof.get "leafIndex").toInt? = some (i : ℤ) ∧
        (proof.get "treeSize").toInt? = some (leaves.length : ℤ) ∧ i < leaves.length ∧
        (proof.get "leaf").hex32? = some leaf ∧ (proof.get "path").allHex32? = some siblings ∧
        siblings.length = (sides i leaves.length).length ∧
        climb keccak256 (leafHash keccak256 leaf) ((sides i leaves.length).zip siblings) =
          mth keccak256 leaves := by
  have hr := hex32?_eq_some.mpr ⟨rfl, isHex32_mth keccak256 h⟩
  simp only [verifyInclusion, treeHead_ofStrings h, isObject_head, get_root_head, get_size_head, hr,
    toInt?_nat, if_true, Option.bind_eq_bind, Option.isSome_iff_exists, Option.bind_eq_some_iff,
    Option.guard_eq_some', rootFromInclusionPath_eq_some, Option.all_some, decide_eq_true_eq, Option.some.injEq]
  constructor
  · rintro ⟨-, -, ho, _, rfl, -, hn, leaf, hl, _, -, _,
      ⟨i, n, siblings, hi, hn', hlt, -, hp, hlen, hc⟩, rfl⟩
    obtain rfl : n = leaves.length := by simpa [hn] using hn'.symm
    exact ⟨i, leaf, siblings, ho, hi, hn, hlt, hl, hp, hlen, hc⟩
  · rintro ⟨i, leaf, siblings, ho, hi, hn, hlt, hl, hp, hlen, hc⟩
    exact ⟨(), (), ho, _, rfl, (), hn, leaf, hl, siblings, hp, _,
      ⟨i, _, siblings, hi, hn, hlt, by simp, hp, hlen, rfl⟩, hc⟩

section

variable (keccak256)

-- The inputs which are hashed for the root of the tree head.
def treeHeadInputs (leaves : List JsString) : List Bytes :=
  (scheme keccak256).rootInputs <| leaves.map toBytes32

-- The inputs which are hashed to verify an inclusion proof.
def verifyInclusionInputs (proof : Value) : List Bytes :=
  let inputs? : Option (List Bytes) := do
    let i ← (proof.get "leafIndex").toInt?
    let n ← (proof.get "treeSize").toInt?
    let leaf := toBytes32 (← (proof.get "leaf").hex32?)
    let siblings ← (proof.get "path").allHex32?
    let steps := (sides i.toNat n.toNat).zip <| siblings.map toBytes32
    return (scheme keccak256).leafInput leaf ::
      (scheme keccak256).climbInputs ((scheme keccak256).leaf leaf) steps
  inputs?.getD []

end

theorem inclusionProof_eq (h : ∀ leaf ∈ leaves, isHex32 leaf) (hi : index.toInt? = some (i : ℤ))
    (hl : i < leaves.length) :
    inclusionProof keccak256 (ofStrings leaves) index =
      object [(js "leaf", string leaves[i]), (js "leafIndex", index),
        (js "treeSize", nat leaves.length), (js "path", ofStrings <| path keccak256 i leaves)] := by
  simp [inclusionProof, allHex32?_eq_some.mpr ⟨rfl, h⟩, hi, hl, guard]

variable (keccak256) in
theorem inclusionProof_accepted (h : ∀ leaf ∈ leaves, isHex32 leaf)
    (hi : index.toInt? = some (i : ℤ)) (hl : i < leaves.length) :
    inclusionProof keccak256 (ofStrings leaves) index ≠ null ∧
    verifyInclusion keccak256 (inclusionProof keccak256 (ofStrings leaves) index)
      (treeHead keccak256 <| ofStrings leaves) := by
  have hp := path_eq keccak256 hl h
  have hh : ∀ sibling ∈ path keccak256 i leaves, isHex32 sibling := by
    rw [hp]
    simp
  rw [inclusionProof_eq h hi hl]
  refine ⟨nofun, verifyInclusion_iff h |>.mpr ⟨i, leaves[i], _, rfl, hi, toInt?_nat, hl, 
    hex32?_eq_some.mpr ⟨rfl, h _ <| by simp⟩, allHex32?_eq_some.mpr ⟨rfl, hh⟩, ?_, ?_⟩⟩
  · rw [hp, List.length_map, LogScheme.path_length (by simpa), List.length_map]
  · have hd : i < (leaves.map toBytes32).length := by simpa
    have := (LogScheme.descends_path (S := scheme keccak256) hd).climb
    rw [LogScheme.root_singleton, List.length_map, List.getElem_map] at this
    rw [leafHash_eq (h _ <| by simp), climb_hexlify fun _ hs => hh _ (List.of_mem_zip hs).right,
      mth_eq h, bytesOf_zip, hp, map_toBytes32_hexlify, this]

-- The proof for each leaf is accepted against the head of the log.
theorem inclusionProof_complete (h : ∀ leaf ∈ leaves, isHex32 leaf)
    (hi : index.toInt? = some (i : ℤ)) (hl : i < leaves.length) :
    inclusionProof keccak256 (ofStrings leaves) index ≠ null ∧
    verifyInclusion keccak256 (inclusionProof keccak256 (ofStrings leaves) index)
      (treeHead keccak256 <| ofStrings leaves) :=
  inclusionProof_accepted keccak256 h hi hl

theorem leaf_of_verifyInclusion (h : ∀ leaf ∈ leaves, isHex32 leaf)
    (c : CollisionFree keccak256
      (treeHeadInputs keccak256 leaves ++ verifyInclusionInputs keccak256 proof))
    (ha : verifyInclusion keccak256 proof (treeHead keccak256 <| ofStrings leaves)) :
    ∃ (i : ℕ) (leaf : JsString), (proof.get "leafIndex").toInt? = some (i : ℤ) ∧
      proof.get "leaf" = string leaf ∧ ∃ hi : i < leaves.length, getBytes leaf = getBytes leaves[i] := by
  have ⟨i, leaf, siblings, _, hi, hn, hl, hleaf, hp, hlen, hc⟩ := verifyInclusion_iff h |>.mp ha
  have ⟨hs, hx⟩ := hex32?_eq_some.mp hleaf
  have ⟨_, hh⟩ := allHex32?_eq_some.mp hp
  have hd : i < (leaves.map toBytes32).length := by simpa
  have d := LogScheme.descends_path (S := scheme keccak256) hd
  have hv : verifyInclusionInputs keccak256 proof =
      (scheme keccak256).leafInput (toBytes32 leaf) ::
        (scheme keccak256).climbInputs ((scheme keccak256).leaf <| toBytes32 leaf)
          ((sides i leaves.length).zip <| siblings.map toBytes32) := by
    simp [verifyInclusionInputs, hi, hn, hleaf, hp]
  rw [hv, treeHeadInputs] at c
  rw [leafHash_eq hx, climb_hexlify fun _ hs => hh _ (List.of_mem_zip hs).right, mth_eq h,
    bytesOf_zip] at hc
  have ⟨hr, _⟩ := d.climb_inj (by simp [List.map_fst_zip, hlen, LogScheme.path_length hd])
    (hexlify_inj hc) <| c.mono <| by grind
  rw [LogScheme.root_singleton] at hr
  have hm := d.rootInputs_subset <| by
    rw [LogScheme.rootInputs_singleton]
    exact List.mem_singleton_self _
  have := Scheme.leaf_eq c (by simp) (List.mem_append_left _ hm) hr
  refine ⟨i, leaf, hi, hs, hl, ?_⟩
  rw [getBytes_eq hx, getBytes_eq (h _ <| by simp), this, List.getElem_map]

-- An accepted proof is for a leaf of the log, at the index which the proof states.
theorem verifyInclusion_sound (h : ∀ leaf ∈ leaves, isHex32 leaf)
    (c : CollisionFree keccak256
      (treeHeadInputs keccak256 leaves ++ verifyInclusionInputs keccak256 proof))
    (ha : verifyInclusion keccak256 proof (treeHead keccak256 <| ofStrings leaves)) :
    ∃ (i : ℕ) (leaf : JsString), (proof.get "leafIndex").toInt? = some (i : ℤ) ∧
      proof.get "leaf" = string leaf ∧ ∃ hi : i < leaves.length, getBytes leaf = getBytes leaves[i] :=
  leaf_of_verifyInclusion h c ha

-- A log of three leaves, and the proof for the last one.
def entries : List JsString :=
  [hexlify 7, hexlify 8, hexlify 9]

def entriesProof : Value :=
  inclusionProof Keccak.keccak256 (ofStrings entries) (nat 2)

theorem inclusionProof_complete_entries :
    entriesProof ≠ null ∧
    verifyInclusion Keccak.keccak256 entriesProof (treeHead Keccak.keccak256 <| ofStrings entries) :=
  inclusionProof_complete (by decide +kernel) toInt?_nat (by decide)

theorem verifyInclusion_sound_entries :
    ∃ (i : ℕ) (leaf : JsString), (entriesProof.get "leafIndex").toInt? = some (i : ℤ) ∧
      entriesProof.get "leaf" = string leaf ∧
      ∃ hi : i < entries.length, getBytes leaf = getBytes entries[i] :=
  have c : CollisionFree Keccak.keccak256 (treeHeadInputs Keccak.keccak256 entries ++
      verifyInclusionInputs Keccak.keccak256 entriesProof) := by decide +kernel
  verifyInclusion_sound (by decide +kernel) c (by decide +kernel)

end JournalLog
