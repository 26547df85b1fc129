import Verifyhash.Data.Unicode
import Verifyhash.Verifier.Keccak
import Verifyhash.VerifierRs.Field

-- The recovery of signers of `verifier-rs/src/secp256k1.rs`. The fuel is that of `inv_mod`, and there is no
-- result if it runs out.
namespace Secp256k1

open FieldArith U256

def GX : U256 :=
  ⟨[0x59f2815b16f81798, 0x029bfcdb2dce28d9, 0x55a06295ce870b07, 0x79be667ef9dcbbac], rfl⟩

def GY : U256 :=
  ⟨[0x9c47d08ffb10d4b8, 0xfd17b448a6855419, 0x5da4fbfc0e1108a8, 0x483ada7726a3c465], rfl⟩

-- An affine point, or the point at infinity.
abbrev Point := Option (U256 × U256)

variable (fuel : ℕ)

-- The slope of the line through two points, or of the tangent if they are the same.
def slope (x1 y1 x2 y2 : U256) : Option U256 :=
  if x1 = x2 ∧ y1 = y2 then do
    let x_sq := mul_mod x1 x1 P
    let three_x_sq := add_mod (add_mod x_sq x_sq P) x_sq P
    let two_y := add_mod y1 y1 P
    return mul_mod three_x_sq (← inv_mod fuel two_y P) P
  else do
    let num := sub_mod y2 y1 P
    let den := sub_mod x2 x1 P
    return mul_mod num (← inv_mod fuel den P) P

def point_add (p1 p2 : Point) : Option Point :=
  match p1, p2 with
  | none, p2 => some p2
  | p1, none => some p1
  | some (x1, y1), some (x2, y2) =>
    if x1 = x2 ∧ (add_mod y1 y2 P).is_zero then
      some none
    else do
      let lambda ← slope fuel x1 y1 x2 y2
      let lambda_sq := mul_mod lambda lambda P
      let x3 := sub_mod (sub_mod lambda_sq x1 P) x2 P
      let y3 := sub_mod (mul_mod lambda (sub_mod x1 x3 P) P) y1 P
      return some (x3, y3)

-- The loop of `scalar_mul` over the bits below `i`.
def scalarLoop (k : U256) (point : Point) : (i : ℕ) → (result : Point) → Option Point
  | 0,     result => some result
  | i + 1, result => do
    let result ← point_add fuel result result
    if k.bit i then
      scalarLoop k point i (← point_add fuel result point)
    else
      scalarLoop k point i result

def scalar_mul (k : U256) (point : Point) : Option Point :=
  let k := if k.ge N then (k.sbb N).fst else k
  scalarLoop fuel k point 256 none

def sqrt_exponent : U256 :=
  (P.adc ONE).fst.shr1.shr1

-- The point with the abscissa `x` whose ordinate has the given lowest bit.
def lift_x (x : U256) (y_parity : UInt64) : Option (U256 × U256) :=
  let x2 := mul_mod x x P
  let x3 := mul_mod x2 x P
  let seven : U256 := ⟨[7, 0, 0, 0], rfl⟩
  let alpha := add_mod x3 seven P
  let y := pow_mod alpha sqrt_exponent P
  if mul_mod y y P ≠ alpha then
    none
  else
    some (x, if y.limbs.headD 0 &&& 1 ≠ y_parity then (P.sbb y).fst else y)

-- The abscissa of the point, unless it is not below `P`.
def abscissa (r : U256) (rec_id : UInt8) : Option U256 :=
  if rec_id >>> 1 = 1 then
    let (sum, carry) := r.adc N
    if carry ∨ sum.ge P then none else some sum
  else
    if r.ge P then none else some r

-- `Q = r⁻¹ * (s * R - e * G)`
def recoverFrom (msg_hash : Digest) (r s : U256) (point_r : Point) : Option Point := do
  let e_full := from_be_bytes msg_hash
  let e := if e_full.ge N then (e_full.sbb N).fst else e_full
  let r_inv ← inv_mod fuel r N
  let s_r ← scalar_mul fuel s point_r
  let e_g ← scalar_mul fuel e <| some (GX, GY)
  let neg_e_g := e_g.map fun c => (c.fst, (P.sbb c.snd).fst)
  scalar_mul fuel r_inv (← point_add fuel s_r neg_e_g)

def recover_pubkey (msg_hash : Digest) (r s : U256) (rec_id : UInt8) : Option Point :=
  if r.is_zero ∨ r.ge N then
    some none
  else if s.is_zero ∨ s.ge N then
    some none
  else if rec_id > 3 then
    some none
  else
    match (abscissa r rec_id).bind fun x => lift_x x (rec_id &&& 1).toUInt64 with
    | none         => some none
    | some point_r => recoverFrom fuel msg_hash r s <| some point_r

-- The digest of a message: `\x19` is the byte 25.
def eip191_hash (message : Bytes) : Digest :=
  let prefixed := 0x19 :: Bytes.ofAscii "Ethereum Signed Message:\n" ++ Bytes.ofAscii (toString message.length)
  VerifierRs.keccak256 <| prefixed ++ message

-- `format!("{:02x}", b)`
def hexByte (b : UInt8) : List Char :=
  (Numeral.digits 16 2 b.toNat).map Nat.digitChar

def address (q : U256 × U256) : List Char :=
  let raw := q.fst.to_be_bytes.val ++ q.snd.to_be_bytes.val
  let h := VerifierRs.keccak256 raw
  "0x".toList ++ (h.val.drop 12).flatMap hexByte

-- The recovery identifier of the last byte of a signature.
def recIdOf (v : UInt8) : UInt8 :=
  let v := if v ≥ 27 then v - 27 else v
  if v ≠ 0 ∧ v ≠ 1 then v &&& 1 else v

def recover_personal_sign (message sig : Bytes) : Option (Option (List Char)) :=
  if h : sig.length = 65 then do
    let r := from_be_bytes ⟨sig.take 32, by simp [h]⟩
    let s := from_be_bytes ⟨(sig.drop 32).take 32, by simp [h]⟩
    let q ← recover_pubkey fuel (eip191_hash message) r s <| recIdOf <| sig.getD 64 0
    return q.map address
  else
    some none

-- The loop of `hex0x_to_bytes`: a byte stands for the character with its number.
def hexLoop : Bytes → Option Bytes
  | hi :: lo :: b => do
    let hi ← Hex.digit? hi.toUInt16
    let lo ← Hex.digit? lo.toUInt16
    return .ofNat (hi * 16 + lo) :: (← hexLoop b)
  | _ => some []

-- `verifier-rs/src/main.rs`
def hex0x_to_bytes (s : List Char) : Option Bytes :=
  match s with
  | '0' :: 'x' :: h => if (Unicode.utf8 h).length % 2 ≠ 0 then none else hexLoop <| Unicode.utf8 h
  | _               => none

-- The signer of the text of a message by the text of a signature, in the function `verify`.
def recovered (message signature : List Char) : Option (Option (List Char)) :=
  match hex0x_to_bytes signature with
  | some sig_bytes => recover_personal_sign fuel (Unicode.utf8 message) sig_bytes
  | none           => some none

end Secp256k1
