import Verifyhash.Hash.Basic
import Verifyhash.Library.PairTree.Basic

-- The hashes of files and directories in `cli/hash.js`. Contents, leaves and nodes are strings which
-- spell 32 bytes.
namespace Cli

open Hex

def LEAF_TAG : JsString := js "0x00"
def NODE_TAG : JsString := js "0x01"

def DIR_LEAF_DOMAIN_STR : String := "verifyhash/dir-leaf/v1"

def PATH_SEP : JsString := js "0x00"

-- The sorts of the source are stable.
def sortBy (value : α → JsString) (l : List α) : List α :=
  l.insertionSort fun a b => bigInt (value a) ≤ bigInt (value b)

structure Tree where
  root         : Option JsString
  layers       : List (List JsString)
  sortedLeaves : List JsString

-- A position in an array is below `2 ^ 31`, so the 32-bit operation `idx ^ 1` does not wrap around.
def proofForIndex (layers : List (List JsString)) (index : ℕ) : List (Option JsString) :=
  PairTree.siblings layers index

section Tree

variable (keccak256 : Bytes → Bytes32)

def leafHash (c : JsString) : JsString :=
  hashBytes keccak256 <| getBytes LEAF_TAG ++ getBytes c

def nodeHash (a b : JsString) : JsString :=
  let (lo, hi) := if bigInt a ≤ bigInt b then (a, b) else (b, a)
  hashBytes keccak256 <| getBytes NODE_TAG ++ getBytes lo ++ getBytes hi

def buildTree (leaves : List JsString) : Except JsString Tree :=
  if leaves.length = 0 then
    .error <| js "cannot build a Merkle tree from zero leaves"
  else
    let sortedLeaves := sortBy id leaves
    let layers := PairTree.layers (nodeHash keccak256) <| sortedLeaves.map (leafHash keccak256)
    .ok { root := PairTree.top layers, layers, sortedLeaves }

end Tree

-- The separator `path.sep` of the platform is one code unit.
def toPosixRel (sep : UInt16) (relPath : JsString) : JsString :=
  let relPath := relPath.map fun u => if u = sep then 47 else u
  if relPath.take 2 = js "./" then relPath.drop 2 else relPath

structure Entry where
  path    : JsString
  content : Bytes
  abs     : Option JsString

structure Pair where
  path        : JsString
  abs         : Option JsString
  contentHash : JsString
  leaf        : JsString

structure DirTree extends Tree where
  sortedPairs : List Pair

section Dir

-- The function `toUtf8Bytes` of `ethers`, which throws if a surrogate is not paired.
variable (keccak256 : Bytes → Bytes32) (toUtf8Bytes : JsString → Except JsString Bytes) (sep : UInt16)

def DIR_LEAF_DOMAIN : JsString :=
  hashBytes keccak256 <| .ofAscii DIR_LEAF_DOMAIN_STR

def pathInput (relBytes : Bytes) (contentDigest : JsString) : Bytes :=
  getBytes (DIR_LEAF_DOMAIN keccak256) ++ relBytes ++ getBytes PATH_SEP ++ getBytes contentDigest

def pathLeaf (relPath contentDigest : JsString) : Except JsString JsString := do
  let relBytes ← toUtf8Bytes <| toPosixRel sep relPath
  return hashBytes keccak256 <| pathInput keccak256 relBytes contentDigest

def Entry.toPair (e : Entry) : Except JsString Pair := do
  let rel := toPosixRel sep e.path
  let contentHash := hashBytes keccak256 e.content
  let leaf ← pathLeaf keccak256 toUtf8Bytes sep rel contentHash
  return { path := rel, abs := e.abs, contentHash, leaf }

def hashEntries (entries : List Entry) : Except JsString DirTree :=
  if entries.length = 0 then
    .error <| js "cannot build a directory root from zero files"
  else do
    let pairs ← entries.mapM fun e => e.toPair keccak256 toUtf8Bytes sep
    let tree ← buildTree keccak256 <| pairs.map (·.leaf)
    let sortedPairs := sortBy Pair.leaf pairs
    return { tree with sortedPairs }

end Dir

namespace DirTree

-- What `hashEntries` returns per file.
def leaves (t : DirTree) : List (JsString × JsString × JsString) :=
  t.sortedPairs.map fun p => (p.path, p.leaf, p.contentHash)

variable (isAbsolute : JsString → Bool) (sep : UInt16)

def indexFor (t : DirTree) (target : JsString) : Option ℕ :=
  if isHex32 target then
    t.sortedLeaves.findIdx? fun l => bigInt l = bigInt target
  else if isAbsolute target then
    t.sortedPairs.findIdx? fun p => p.abs = some target
  else
    let normTarget := toPosixRel sep target
    t.sortedPairs.findIdx? fun p => p.path = normTarget

def notFound (target : JsString) : JsString :=
  js "target not found in directory tree: " ++ target

def proofFor (t : DirTree) (target : JsString) : Except JsString (List (Option JsString)) :=
  match t.indexFor isAbsolute sep target with
  | some index => .ok <| proofForIndex t.layers index
  | none       => .error <| notFound target

def leafFor (t : DirTree) (target : JsString) : Except JsString (Option JsString) :=
  match t.indexFor isAbsolute sep target with
  | some index => .ok <| t.sortedPairs[index]?.map (·.leaf)
  | none       => .error <| notFound target

end DirTree

end Cli
