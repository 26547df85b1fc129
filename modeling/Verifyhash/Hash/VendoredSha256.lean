import Verifyhash.Data.Bitwise
import Verifyhash.Data.Unicode
import Verifyhash.Library.Fips180

-- The arithmetic of `trustledger/lib/sha256-vendored.js`: the sums of words are exact, and an array which is
-- too long is not created.
namespace VendoredSha256

open Bitwise
open Fips180 (Registers)

def K : List ℤ := [
  0x428a2f98, 0x71374491, 0xb5c0fbcf, 0xe9b5dba5, 0x3956c25b, 0x59f111f1, 0x923f82a4, 0xab1c5ed5,
  0xd807aa98, 0x12835b01, 0x243185be, 0x550c7dc3, 0x72be5d74, 0x80deb1fe, 0x9bdc06a7, 0xc19bf174,
  0xe49b69c1, 0xefbe4786, 0x0fc19dc6, 0x240ca1cc, 0x2de92c6f, 0x4a7484aa, 0x5cb0a9dc, 0x76f988da,
  0x983e5152, 0xa831c66d, 0xb00327c8, 0xbf597fc7, 0xc6e00bf3, 0xd5a79147, 0x06ca6351, 0x14292967,
  0x27b70a85, 0x2e1b2138, 0x4d2c6dfc, 0x53380d13, 0x650a7354, 0x766a0abb, 0x81c2c92e, 0x92722c85,
  0xa2bfe8a1, 0xa81a664b, 0xc24b8b70, 0xc76c51a3, 0xd192e819, 0xd6990624, 0xf40e3585, 0x106aa070,
  0x19a4c116, 0x1e376c08, 0x2748774c, 0x34b0bcb5, 0x391c0cb3, 0x4ed8aa4a, 0x5b9cca4f, 0x682e6ff3,
  0x748f82ee, 0x78a5636f, 0x84c87814, 0x8cc70208, 0x90befffa, 0xa4506ceb, 0xbef9a3f7, 0xc67178f2
]

def rotr (x : ℤ) (n : ℕ) : ℤ :=
  ushr (or (ushr x n) (shl x (32 - n))) 0

-- `Math.ceil((len + 9) / 64) * 64`. The sum is only rounded where the array is too long anyway.
def paddedLength (len : ℕ) : ℕ :=
  (len + 9 + 63) / 64 * 64

-- `new Uint8Array(length)`, which throws if the length is not a safe integer.
def newUint8Array (length : ℕ) : Option Bytes :=
  if length ≤ 2 ^ 53 - 1 then some <| .replicate length 0 else none

def byteAt (bytes : Bytes) (i : ℕ) : ℤ :=
  (bytes.getD i 0).toNat

-- The message with its padding, in the zero-filled array `msg`.
def padInto (msg bytes : Bytes) : Bytes :=
  let len := bytes.length
  let total := msg.length
  let msg := (List.range len).foldl (fun msg i => msg.set i <| toByte <| and (byteAt bytes i) 0xff) msg
  let msg := msg.set len 0x80
  let hiBits : ℤ := (len / 0x20000000 : ℕ)
  let loBits := ushr (shl len 3) 0
  let msg := msg.set (total - 8) <| toByte <| and (ushr hiBits 24) 0xff
  let msg := msg.set (total - 7) <| toByte <| and (ushr hiBits 16) 0xff
  let msg := msg.set (total - 6) <| toByte <| and (ushr hiBits 8) 0xff
  let msg := msg.set (total - 5) <| toByte <| and hiBits 0xff
  let msg := msg.set (total - 4) <| toByte <| and (ushr loBits 24) 0xff
  let msg := msg.set (total - 3) <| toByte <| and (ushr loBits 16) 0xff
  let msg := msg.set (total - 2) <| toByte <| and (ushr loBits 8) 0xff
  msg.set (total - 1) <| toByte <| and loBits 0xff

def initial : Registers ℤ where
  a := 0x6a09e667
  b := 0xbb67ae85
  c := 0x3c6ef372
  d := 0xa54ff53a
  e := 0x510e527f
  f := 0x9b05688c
  g := 0x1f83d9ab
  h := 0x5be0cd19

-- The word of four bytes in a block.
def word (msg : Bytes) (b : ℕ) : ℤ :=
  ushr (or (or (or (shl (byteAt msg b) 24) (shl (byteAt msg (b + 1)) 16)) (shl (byteAt msg (b + 2)) 8))
    (byteAt msg (b + 3))) 0

-- `w[i]` for the next index `i` of the message schedule.
def nextWord (w : List ℤ) (i : ℕ) : ℤ :=
  let w₁₅ := w.getD (i - 15) 0
  let w₂ := w.getD (i - 2) 0
  let s₀ := ushr (xor (xor (rotr w₁₅ 7) (rotr w₁₅ 18)) (ushr w₁₅ 3)) 0
  let s₁ := ushr (xor (xor (rotr w₂ 17) (rotr w₂ 19)) (ushr w₂ 10)) 0
  ushr (w.getD (i - 16) 0 + s₀ + w.getD (i - 7) 0 + s₁) 0

-- The message schedule of the block at an offset.
def schedule (msg : Bytes) (off : ℕ) : List ℤ :=
  let w := (List.range 16).map fun i => word msg (off + i * 4)
  (List.range' 16 48).foldl (fun w i => w ++ [nextWord w i]) w

def round (r : Registers ℤ) (k w : ℤ) : Registers ℤ :=
  let S₁ := ushr (xor (xor (rotr r.e 6) (rotr r.e 11)) (rotr r.e 25)) 0
  let ch := ushr (xor (and r.e r.f) (and (not r.e) r.g)) 0
  let temp₁ := ushr (r.h + S₁ + ch + k + w) 0
  let S₀ := ushr (xor (xor (rotr r.a 2) (rotr r.a 13)) (rotr r.a 22)) 0
  let maj := ushr (xor (xor (and r.a r.b) (and r.a r.c)) (and r.b r.c)) 0
  let temp₂ := ushr (S₀ + maj) 0
  {
    a := ushr (temp₁ + temp₂) 0
    b := r.a
    c := r.b
    d := r.c
    e := ushr (r.d + temp₁) 0
    f := r.e
    g := r.f
    h := r.g
  }

-- One turn of the loop over the blocks.
def compress (msg : Bytes) (h : Registers ℤ) (off : ℕ) : Registers ℤ :=
  let w := schedule msg off
  let r := (List.range 64).foldl (fun r i => round r (K.getD i 0) (w.getD i 0)) h
  {
    a := ushr (h.a + r.a) 0
    b := ushr (h.b + r.b) 0
    c := ushr (h.c + r.c) 0
    d := ushr (h.d + r.d) 0
    e := ushr (h.e + r.e) 0
    f := ushr (h.f + r.f) 0
    g := ushr (h.g + r.g) 0
    h := ushr (h.h + r.h) 0
  }

def wordBytes (h : ℤ) : Bytes :=
  [toByte <| and (ushr h 24) 0xff, toByte <| and (ushr h 16) 0xff, toByte <| and (ushr h 8) 0xff,
    toByte <| and h 0xff]

def digest (msg : Bytes) : Bytes :=
  let offsets := (List.range <| msg.length / 64).map (64 * ·)
  (offsets.foldl (compress msg) initial).toList.flatMap wordBytes

def sha256Bytes (bytes : Bytes) : Option Bytes := do
  let msg ← newUint8Array <| paddedLength bytes.length
  return digest <| padInto msg bytes

-- The digits of a number below 256, of which none leads if it is zero.
def toString16 (b : ℕ) : JsString :=
  if b < 16 then [Hex.lowerDigit b] else [Hex.lowerDigit (b / 16), Hex.lowerDigit (b % 16)]

def toHex (bytes : Bytes) : JsString :=
  bytes.flatMap fun b => (if b.toNat < 16 then js "0" else []) ++ toString16 b.toNat

-- What is pushed for a code point.
def encode (cp : ℤ) : List ℤ :=
  if cp < 0x80 then
    [cp]
  else if cp < 0x800 then
    [or 0xc0 (sshr cp 6), or 0x80 (and cp 0x3f)]
  else if cp < 0x10000 then
    [or 0xe0 (sshr cp 12), or 0x80 (and (sshr cp 6) 0x3f), or 0x80 (and cp 0x3f)]
  else
    [or 0xf0 (sshr cp 18), or 0x80 (and (sshr cp 12) 0x3f), or 0x80 (and (sshr cp 6) 0x3f), or 0x80 (and cp 0x3f)]

-- The code point of a code unit which is not paired.
def unpaired (u : UInt16) : ℤ :=
  if 0xd800 ≤ u ∧ u ≤ 0xdbff then 0xfffd
  else if 0xdc00 ≤ u ∧ u ≤ 0xdfff then 0xfffd
  else u.toNat

-- The array `out`, for the rest of a string.
def codes : JsString → List ℤ
  | u :: next :: s =>
    if (0xd800 ≤ u ∧ u ≤ 0xdbff) ∧ 0xdc00 ≤ next ∧ next ≤ 0xdfff then
      encode (0x10000 + shl (u.toNat - 0xd800) 10 + (next.toNat - 0xdc00)) ++ codes s
    else
      encode (unpaired u) ++ codes (next :: s)
  | [u]            => encode (unpaired u)
  | []             => []

-- `Uint8Array.from(out)`, where no array has as many elements as there are words of 32 bits.
def utf8Bytes (str : JsString) : Option Bytes :=
  if (codes str).length < 2 ^ 32 then some <| (codes str).map toByte else none

def sha256Hex (bytes : Bytes) : Option JsString :=
  (sha256Bytes bytes).map toHex

def sha256HexUtf8 (str : JsString) : Option JsString := do
  let bytes ← utf8Bytes str
  let digest ← sha256Bytes bytes
  return toHex digest

end VendoredSha256
