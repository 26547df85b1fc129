import Verifyhash.Data.Bytes

-- The verification of a leaf against an anchored root.
namespace Registry

def LEAF_TAG : UInt8 := 0x00
def NODE_TAG : UInt8 := 0x01

variable (keccak256 : Bytes → Bytes32)

def leafHash (contentHash : Bytes32) : Bytes32 :=
  keccak256 <| LEAF_TAG :: Bytes.ofBytes32 contentHash

def nodeHash (a b : Bytes32) : Bytes32 :=
  if a ≤ b then
    keccak256 <| NODE_TAG :: (Bytes.ofBytes32 a ++ Bytes.ofBytes32 b)
  else
    keccak256 <| NODE_TAG :: (Bytes.ofBytes32 b ++ Bytes.ofBytes32 a)

def verifyLeaf (root contentHash : Bytes32) (proof : List Bytes32) : Bool :=
  proof.foldl (nodeHash keccak256) (leafHash keccak256 contentHash) = root

end Registry
