import Verifyhash.Data.Hex
import Verifyhash.Library.Hashing

-- The hash function of `ethers` is taken as a parameter, which maps byte strings to 32 bytes.
variable (keccak256 : Bytes → Bytes32)

def hashBytes (bytes : Bytes) : JsString :=
  Hex.hexlify (keccak256 bytes)

@[simp]
theorem isHex32_hashBytes : Hex.isHex32 (hashBytes keccak256 bytes) :=
  Hex.isHex32_hexlify _

@[simp]
theorem toBytes32_hashBytes : Hex.toBytes32 (hashBytes keccak256 bytes) = keccak256 bytes :=
  Hex.toBytes32_hexlify _

-- The inputs of leaves and interior nodes start with different bytes.
def tagged : Scheme Bytes Bytes32 Bytes32 where
  hash           := keccak256
  leafInput w    := 0 :: Bytes.ofBytes32 w
  nodeInput l r  := 1 :: (Bytes.ofBytes32 l ++ Bytes.ofBytes32 r)
  leaf_inj _ _ h := Bytes.ofBytes32_inj <| List.tail_eq_of_cons_eq h
  node_inj h     :=
    have ⟨hl, hr⟩ := Bytes.ofBytes32_append_inj <| List.tail_eq_of_cons_eq h
    ⟨hl, Bytes.ofBytes32_inj hr⟩
  leaf_ne h      := by simpa using List.head_eq_of_cons_eq h
