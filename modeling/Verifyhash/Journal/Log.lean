import Verifyhash.Data.Value
import Verifyhash.Hash.Basic
import Verifyhash.Journal.Arithmetic

-- The ordered Merkle log of `cli/journal-log.js`.
namespace JournalLog

open Hex Value

def LEAF_PREFIX : JsString := js "0x00"
def NODE_PREFIX : JsString := js "0x01"

def EMPTY_ROOT_DOMAIN : String := "vh.journal-log/v1:empty-root"

section Hashing

variable (keccak256 : Bytes → Bytes32)

def EMPTY_ROOT : JsString :=
  hashBytes keccak256 <| .ofAscii EMPTY_ROOT_DOMAIN

def leafHash (leaf : JsString) : JsString :=
  hashBytes keccak256 <| getBytes LEAF_PREFIX ++ getBytes leaf

def nodeHash (left right : JsString) : JsString :=
  hashBytes keccak256 <| getBytes NODE_PREFIX ++ getBytes left ++ getBytes right

def mth (data : List JsString) : JsString :=
  let k := largestPowerOfTwoLessThan data.length
  if data.length = 0 then
    EMPTY_ROOT keccak256
  else if h : data.length = 1 then
    leafHash keccak256 data[0]
  else
    nodeHash keccak256 (mth <| data.take k) (mth <| data.drop k)
termination_by data.length
decreasing_by
  all_goals
    have hk := largestPowerOfTwoLessThan_eq (n := data.length) (by omega)
    have hl := MerkleLog.split_lt (n := data.length) (by omega)
    have hp := MerkleLog.split_pos (n := data.length)
    simp only [List.length_take, List.length_drop]
    omega

def treeHead (leaves : Value) : Value :=
  match leaves with
  | .array elems =>
    match leaves.allHex32? with
    | some leaves => head leaves.length (string <| mth keccak256 leaves)
    | none        => head elems.length null
  | _ => head 0 null
where
  head (size : ℕ) (root : Value) : Value :=
    object [(js "size", nat size), (js "root", root)]

-- The source only calls this function for `m < data.length`.
def path (m : ℕ) (data : List JsString) : List JsString :=
  let k := largestPowerOfTwoLessThan data.length
  if data.length ≤ 1 then
    []
  else if m < k then
    path m (data.take k) ++ [mth keccak256 <| data.drop k]
  else
    path (m - k) (data.drop k) ++ [mth keccak256 <| data.take k]
termination_by data.length
decreasing_by
  all_goals
    have hk := largestPowerOfTwoLessThan_eq (n := data.length) (by omega)
    have hl := MerkleLog.split_lt (n := data.length) (by omega)
    have hp := MerkleLog.split_pos (n := data.length)
    simp only [List.length_take, List.length_drop]
    omega

def inclusionProof (leaves i : Value) : Value :=
  let proof? : Option Value := do
    let leaves ← leaves.allHex32?
    let index ← i.toInt?
    guard (0 ≤ index ∧ index < leaves.length)
    let leaf ← leaves[index.toNat]?
    return object [
      (js "leaf", string leaf),
      (js "leafIndex", i),
      (js "treeSize", nat leaves.length),
      (js "path", ofStrings <| path keccak256 index.toNat leaves)
    ]
  proof?.getD null

def chainInner (seed : JsString) (path : List JsString) (index : ℤ) : JsString :=
  path.zipIdx.foldl (fun acc (h, i) =>
    if bitAt index i = 0 then nodeHash keccak256 acc h else nodeHash keccak256 h acc) seed

def chainInnerRight (seed : JsString) (path : List JsString) (index : ℤ) : JsString :=
  path.zipIdx.foldl (fun acc (h, i) =>
    if bitAt index i = 1 then nodeHash keccak256 h acc else acc) seed

def chainBorderRight (seed : JsString) (path : List JsString) : JsString :=
  path.foldl (fun acc h => nodeHash keccak256 h acc) seed

def rootFromInclusionPath (index size leafHashVal path : Value) : Option JsString := do
  let index ← index.toInt?
  let size ← size.toInt?
  guard (1 ≤ size ∧ 0 ≤ index ∧ index < size)
  let leafHashVal ← leafHashVal.hex32?
  let path ← path.allHex32?
  let inner := bitLength <| xor index (size - 1)
  let border := onesCount <| shr index inner
  guard (path.length = inner + border)
  let res := chainInner keccak256 leafHashVal (path.take inner) index
  return chainBorderRight keccak256 res (path.drop inner)

-- In the verifiers, `none` stands for `return false`.
def verifyInclusion (proof head : Value) : Bool :=
  let root := if head.isObject then head.get "root" else head
  let expectedSize := if head.isObject then (head.get "size").toInt? else none
  Option.isSome do
    guard proof.isObject
    let root ← root.hex32?
    guard (expectedSize.all fun size => (proof.get "treeSize").toInt? = some size)
    let leaf ← (proof.get "leaf").hex32?
    let _ ← (proof.get "path").allHex32?
    let recomputed ← rootFromInclusionPath keccak256 (proof.get "leafIndex") (proof.get "treeSize")
      (string <| leafHash keccak256 leaf) (proof.get "path")
    guard (recomputed = root)

-- The source only calls this function for `0 < m ≤ data.length`.
def subproof (m : ℕ) (data : List JsString) (b : Bool) : List JsString :=
  let k := largestPowerOfTwoLessThan data.length
  if m = data.length then
    if b then [] else [mth keccak256 data]
  else if data.length ≤ 1 then
    []
  else if m ≤ k then
    subproof m (data.take k) b ++ [mth keccak256 <| data.drop k]
  else
    subproof (m - k) (data.drop k) false ++ [mth keccak256 <| data.take k]
termination_by data.length
decreasing_by
  all_goals
    have hk := largestPowerOfTwoLessThan_eq (n := data.length) (by omega)
    have hl := MerkleLog.split_lt (n := data.length) (by omega)
    have hp := MerkleLog.split_pos (n := data.length)
    simp only [List.length_take, List.length_drop]
    omega

def consistencyProof (leaves m n : Value) : Value :=
  let proof? : Option Value := do
    let leaves ← leaves.allHex32?
    let first ← m.toInt?
    let second ← n.toInt?
    guard (0 < first ∧ first ≤ second ∧ second ≤ leaves.length)
    let data := leaves.take second.toNat
    let path := if first = second then [] else subproof keccak256 first.toNat data true
    return object [
      (js "firstSize", m),
      (js "secondSize", n),
      (js "path", ofStrings path)
    ]
  proof?.getD null

-- The root of a head, which is `null` if the head is of another size.
def headRoot (h : Value) (size : ℤ) : Value :=
  if h.isObject then
    match (h.get "size").toInt? with
    | some s => if s ≠ size then null else h.get "root"
    | none   => h.get "root"
  else
    h

def verifyConsistency (proof firstRoot secondRoot : Value) : Bool :=
  Option.isSome do
    guard proof.isObject
    let m ← (proof.get "firstSize").toInt?
    let n ← (proof.get "secondSize").toInt?
    let firstRoot ← (headRoot firstRoot m).hex32?
    let secondRoot ← (headRoot secondRoot n).hex32?
    let path ← (proof.get "path").allHex32?
    if n < m then
      none
    else if m = n then
      guard (path.length = 0 ∧ firstRoot = secondRoot)
    else if m = 0 then
      guard (path.length = 0)
    else
      fold m n firstRoot secondRoot path
where
  fold (m n : ℤ) (firstRoot secondRoot : JsString) (path : List JsString) : Option Unit := do
    guard (path.length ≠ 0)
    let full := bitLength <| xor (m - 1) (n - 1)
    let border := onesCount <| shr (m - 1) full
    let shift := trailingZeros m
    -- No `0 < m < n` has more trailing zeros than `full`, so this is the difference of the source.
    let inner := full - shift
    let seed? : Option (JsString × ℕ) := if m = 2 ^ shift then some (firstRoot, 0) else path[0]?.map (·, 1)
    let (seed, start) ← seed?
    guard (path.length = start + inner + border)
    let p := path.drop start
    let mask := shr (m - 1) shift
    let hash₁ := chainInnerRight keccak256 seed (p.take inner) mask
    let hash₁ := chainBorderRight keccak256 hash₁ (p.drop inner)
    guard (hash₁ = firstRoot)
    let hash₂ := chainInner keccak256 seed (p.take inner) mask
    let hash₂ := chainBorderRight keccak256 hash₂ (p.drop inner)
    guard (hash₂ = secondRoot)

end Hashing
end JournalLog
