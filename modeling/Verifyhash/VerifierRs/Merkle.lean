import Verifyhash.Library.PairTree.Basic
import Verifyhash.Verifier.Keccak
import Verifyhash.Data.Unicode

-- The Merkle root of `verifier-rs/src/merkle.rs`. A Rust string is a list of Unicode scalar values.
namespace VerifierRs

def dirLeafDomain : Digest :=
  keccak256 <| .ofAscii "verifyhash/dir-leaf/v1"

def toPosixRel (relPath : List Char) : List Char :=
  if ['.', '/'].isPrefixOf relPath then relPath.drop 2 else relPath

def pathLeaf (relPath : List Char) (contentDigest : Digest) : Digest :=
  keccak256 <|
    dirLeafDomain.toList ++ Unicode.utf8 (toPosixRel relPath) ++ [0x00] ++ contentDigest.toList

def leafHash (leaf : Digest) : Digest :=
  keccak256 <| 0x00 :: leaf.toList

-- Arrays are compared lexicographically.
def le (a b : Digest) : Bool :=
  (Bytes.compare a.toList b.toList).isLE

def nodeHash (a b : Digest) : Digest :=
  let (lo, hi) := if le a b then (a, b) else (b, a)
  keccak256 <| 0x01 :: (lo.toList ++ hi.toList)

def rootFromFlat (flat : List (List Char × Digest)) : Option Digest :=
  if flat.isEmpty then
    none
  else
    let leaves := flat.map fun (rel, digest) => pathLeaf rel digest
    let leaves := leaves.insertionSort fun a b => le a b
    let layer := leaves.map leafHash
    (PairTree.reduce nodeHash layer).head?

end VerifierRs
