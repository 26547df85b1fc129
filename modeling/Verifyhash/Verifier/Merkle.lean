import Verifyhash.Data.Unicode
import Verifyhash.Hash.Basic
import Verifyhash.Library.Fallible
import Verifyhash.Library.PairTree.Basic

-- The Merkle root of `verifier/lib/merkle.js`.
namespace Verifier

open Hex

def LEAF_TAG : Bytes := [0x00]
def NODE_TAG : Bytes := [0x01]
def PATH_SEP : Bytes := [0x00]

def DIR_LEAF_DOMAIN_STR : JsString := js "verifyhash/dir-leaf/v1"

def hexToBuf32 (hex : JsString) : Except JsString Bytes :=
  if isHex32 hex then
    .ok <| getBytes hex
  else
    .error <| js "expected a 0x-prefixed 32-byte hex string, got: " ++ hex

def toPosixRel (relPath : JsString) : JsString :=
  if relPath.take 2 = js "./" then relPath.drop 2 else relPath

-- The sort throws if a comparison does, that is if there is something else than a hash.
def sortLeaves (leaves : List JsString) : Except JsString (List JsString) := do
  let bufs ← leaves.mapM fun l => return (l, ← hexToBuf32 l)
  return bufs.insertionSort (fun a b => (Bytes.compare a.snd b.snd).isLE) |>.map (·.fst)

-- The function `keccak256` of `js-sha3`.
variable (keccak256 : Bytes → Bytes32)

def DIR_LEAF_DOMAIN : Bytes :=
  .ofBytes32 <| keccak256 <| Unicode.bufferFrom DIR_LEAF_DOMAIN_STR

def pathLeaf (relPath contentDigest : JsString) : Except JsString JsString := do
  let relBytes := Unicode.bufferFrom <| toPosixRel relPath
  let c ← hexToBuf32 contentDigest
  return hashBytes keccak256 <| DIR_LEAF_DOMAIN keccak256 ++ relBytes ++ PATH_SEP ++ c

def leafHash (c : JsString) : Except JsString JsString := do
  return hashBytes keccak256 <| LEAF_TAG ++ (← hexToBuf32 c)

def nodeHash (a b : JsString) : Except JsString JsString := do
  let A ← hexToBuf32 a
  let B ← hexToBuf32 b
  let (lo, hi) := if (Bytes.compare A B).isLE then (A, B) else (B, A)
  return hashBytes keccak256 <| NODE_TAG ++ lo ++ hi

-- The layer above a layer.
def nextLayer (layer : List JsString) : Except JsString (List JsString) :=
  (PairTree.pairs layer).mapM fun (left, right) => nodeHash keccak256 left right

theorem length_nextLayer {layer : List JsString} (h : nextLayer keccak256 layer = .ok next) :
    next.length = (layer.length + 1) / 2 := by
  rw [←PairTree.length_pairs]
  exact Fallible.length_mapM h

def reduceLayers (layer : List JsString) : Except JsString (List JsString) :=
  if 1 < layer.length then
    match _ : nextLayer keccak256 layer with
    | .ok next => reduceLayers next
    | .error e => .error e
  else
    .ok layer
termination_by layer.length
decreasing_by
  have := length_nextLayer keccak256 ‹_›
  omega

def rootFromLeaves (leaves : List JsString) : Except JsString (Option JsString) :=
  if leaves.length = 0 then
    .error <| js "cannot build a Merkle tree from zero leaves"
  else do
    let sorted ← sortLeaves leaves
    let layer ← sorted.mapM <| leafHash keccak256
    let layer ← reduceLayers keccak256 layer
    return layer.head?

-- Pairs of a relative path and the hash of the content.
def rootFromFlat (flat : List (JsString × JsString)) : Except JsString (Option JsString) := do
  let leaves ← flat.mapM fun (relPath, contentHash) => pathLeaf keccak256 relPath contentHash
  rootFromLeaves keccak256 leaves

end Verifier
