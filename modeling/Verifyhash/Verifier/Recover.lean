import Verifyhash.Data.Unicode
import Verifyhash.Hash.Basic

-- The recovery of signers of `verifier/lib/secp256k1-recover.js`. The operators `/` and `%` of BigInt round to zero,
-- and the numbers which are shifted are not negative.
namespace Recover

open Hex

def P : ℤ := 0xfffffffffffffffffffffffffffffffffffffffffffffffffffffffefffffc2f
def N : ℤ := 0xfffffffffffffffffffffffffffffffebaaedce6af48a03bbfd25e8cd0364141
def A : ℤ := 0
def B : ℤ := 7
def GX : ℤ := 0x79be667ef9dcbbac55a06295ce870b07029bfcdb2dce28d959f2815b16f81798
def GY : ℤ := 0x483ada7726a3c4655da4fbfc0e1108a8fd17b448a68554199c47d08ffb10d4b8

def mod (a m : ℤ) : ℤ :=
  let r := a.tmod m
  if r ≥ 0 then r else r + m

-- The loop of `invmod`.
def invLoop (old_r r old_s s : ℤ) : ℤ :=
  if r ≠ 0 then
    let q := old_r.tdiv r
    invLoop r (old_r - q * r) s (old_s - q * s)
  else
    old_s
termination_by r.natAbs
decreasing_by
  have h : old_r - old_r.tdiv r * r = old_r.tmod r := by
    rw [Int.tmod_def, mul_comm]
  rw [h, Int.natAbs_tmod]
  exact Nat.mod_lt _ <| Int.natAbs_pos.mpr ‹_›

def invmod (a m : ℤ) : Except JsString ℤ :=
  let a := mod a m
  if a = 0 then
    .error <| js "secp256k1: inverse of zero"
  else
    .ok <| mod (invLoop a m 1 0) m

-- The loop of `powmod`.
def powLoop (m result base exp : ℤ) : ℤ :=
  if exp > 0 then
    powLoop m (if exp % 2 = 1 then mod (result * base) m else result) (mod (base * base) m) (exp / 2)
  else
    result
termination_by exp.toNat
decreasing_by omega

def powmod (base exp m : ℤ) : ℤ :=
  powLoop m 1 (mod base m) exp

def sqrtmod (a : ℤ) : Except JsString ℤ :=
  let r := powmod a ((P + 1) / 4) P
  if mod (r * r) P ≠ mod a P then
    .error <| js "secp256k1: no square root (x not on curve)"
  else
    .ok r

-- An affine point, or `INF`.
abbrev Point := Option (ℤ × ℤ)

-- The slope of the line through two points, or of the tangent if they are the same.
def slope (x1 y1 x2 y2 : ℤ) : Except JsString ℤ :=
  if x1 = x2 ∧ y1 = y2 then do
    return mod ((3 * x1 * x1 + A) * (← invmod (2 * y1) P)) P
  else do
    return mod ((y2 - y1) * (← invmod (x2 - x1) P)) P

def pointAdd (p1 p2 : Point) : Except JsString Point :=
  match p1, p2 with
  | none, p2 => .ok p2
  | p1, none => .ok p1
  | some (x1, y1), some (x2, y2) =>
    if x1 = x2 ∧ mod (y1 + y2) P = 0 then
      .ok none
    else do
      let m ← slope x1 y1 x2 y2
      let x3 := mod (m * m - x1 - x2) P
      let y3 := mod (m * (x1 - x3) - y1) P
      return some (x3, y3)

-- The loop of `scalarMul`.
def scalarLoop (result addend : Point) (k : ℤ) : Except JsString Point :=
  if k > 0 then do
    let result ← if k % 2 = 1 then pointAdd result addend else pure result
    let addend ← pointAdd addend addend
    scalarLoop result addend (k / 2)
  else
    .ok result
termination_by k.toNat
decreasing_by omega

def scalarMul (k : ℤ) (point : Point) : Except JsString Point :=
  scalarLoop none point (mod k N)

def liftX (x yParity : ℤ) : Except JsString (ℤ × ℤ) := do
  let alpha := mod (x * x * x + A * x + B) P
  let y ← sqrtmod alpha
  return (x, if y % 2 ≠ yParity then mod (P - y) P else y)

def bufToBig (buf : Bytes) : ℤ :=
  buf.foldl (fun n b => n * 256 + b.toNat) 0

-- The 32 lowest bytes.
def bigTo32 (n : ℤ) : Bytes :=
  .ofNat 32 n.toNat

-- `Q = r⁻¹ * (s * R - e * G)`
def recoverFrom (msgHash : Bytes) (r s : ℤ) (R : Point) : Except JsString Point := do
  let e := mod (bufToBig msgHash) N
  let rInv ← invmod r N
  let sR ← scalarMul s R
  let eG ← scalarMul e <| some (GX, GY)
  let negEG := eG.map fun c => (c.fst, mod (P - c.snd) P)
  scalarMul rInv (← pointAdd sR negEG)

def recoverPublicKey (msgHash : Bytes) (r s recId : ℤ) : Except JsString (ℤ × ℤ) :=
  if r ≤ 0 ∨ r ≥ N then
    .error <| js "secp256k1: r out of range"
  else if s ≤ 0 ∨ s ≥ N then
    .error <| js "secp256k1: s out of range"
  else if recId < 0 ∨ recId > 3 then
    .error <| js "secp256k1: invalid recovery id"
  else
    let x := r + if recId / 2 ≠ 0 then N else 0
    if x ≥ P then
      .error <| js "secp256k1: recovered x not in field"
    else do
      let R ← liftX x (recId % 2)
      match ← recoverFrom msgHash r s <| some R with
      | none   => .error <| js "secp256k1: recovered point at infinity"
      | some Q => return Q

-- `hash.slice(12).toString("hex")`
def hexByte (b : UInt8) : JsString :=
  (Numeral.digits 16 2 b.toNat).map lowerDigit

-- What a message or a signature is given as.
inductive Input
  | buffer (bytes : Bytes)
  | string (s : JsString)

def Input.bytes : Input → Bytes
  | buffer bytes => bytes
  | string s     => Unicode.bufferFrom s

-- The function `keccak256` of `js-sha3`.
variable (keccak256 : Bytes → Bytes32)

def pubKeyToAddress (pub : ℤ × ℤ) : JsString :=
  let raw := bigTo32 pub.fst ++ bigTo32 pub.snd
  let hash := Bytes.ofBytes32 <| keccak256 raw
  js "0x" ++ (hash.drop 12).flatMap hexByte

def eip191Hash (message : Input) : Bytes :=
  let msgBytes := message.bytes
  let pre := Unicode.bufferFrom <| [25] ++ js "Ethereum Signed Message:\n" ++ js (toString msgBytes.length)
  .ofBytes32 <| keccak256 <| pre ++ msgBytes

-- `Buffer.from(hex, "hex")` for an even number of digits.
def ofHex : JsString → Bytes
  | a :: b :: s => .ofNat ((digit? a).getD 0 * 16 + (digit? b).getD 0) :: ofHex s
  | _           => []

def normalizeSig (signature : Input) : Except JsString Bytes := do
  let buf ←
    match signature with
    | .buffer bytes => pure bytes
    | .string s     =>
      let hex := if s.take 2 = js "0x" ∨ s.take 2 = js "0X" then s.drop 2 else s
      if ¬ (hex.all fun u => (digit? u).isSome) ∨ hex.length % 2 ≠ 0 then
        .error <| js "secp256k1: signature must be 0x-hex (even length)"
      else
        pure <| ofHex hex
  if buf.length ≠ 65 then
    .error <| js "secp256k1: eip191-personal-sign signature must be 65 bytes (r||s||v), got " ++ js (toString buf.length)
  else
    return buf

-- The recovery identifier of the last byte of a signature.
def recIdOf (v : ℤ) : ℤ :=
  let v := if v ≥ 27 then v - 27 else v
  if v ≠ 0 ∧ v ≠ 1 then v % 2 else v

def recoverPersonalSignAddress (message signature : Input) : Except JsString JsString := do
  let sig ← normalizeSig signature
  let r := bufToBig <| sig.take 32
  let s := bufToBig <| (sig.drop 32).take 32
  let v := recIdOf <| (sig.getD 64 0).toNat
  let digest := eip191Hash keccak256 message
  let pub ← recoverPublicKey digest r s v
  return pubKeyToAddress keccak256 pub

end Recover
