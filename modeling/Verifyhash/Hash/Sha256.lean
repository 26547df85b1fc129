import Verifyhash.Data.Unicode

-- `trustledger/lib/sha256-vendored.js`
namespace Sha256

def K : List UInt32 := [
  0x428a2f98, 0x71374491, 0xb5c0fbcf, 0xe9b5dba5, 0x3956c25b, 0x59f111f1, 0x923f82a4, 0xab1c5ed5,
  0xd807aa98, 0x12835b01, 0x243185be, 0x550c7dc3, 0x72be5d74, 0x80deb1fe, 0x9bdc06a7, 0xc19bf174,
  0xe49b69c1, 0xefbe4786, 0x0fc19dc6, 0x240ca1cc, 0x2de92c6f, 0x4a7484aa, 0x5cb0a9dc, 0x76f988da,
  0x983e5152, 0xa831c66d, 0xb00327c8, 0xbf597fc7, 0xc6e00bf3, 0xd5a79147, 0x06ca6351, 0x14292967,
  0x27b70a85, 0x2e1b2138, 0x4d2c6dfc, 0x53380d13, 0x650a7354, 0x766a0abb, 0x81c2c92e, 0x92722c85,
  0xa2bfe8a1, 0xa81a664b, 0xc24b8b70, 0xc76c51a3, 0xd192e819, 0xd6990624, 0xf40e3585, 0x106aa070,
  0x19a4c116, 0x1e376c08, 0x2748774c, 0x34b0bcb5, 0x391c0cb3, 0x4ed8aa4a, 0x5b9cca4f, 0x682e6ff3,
  0x748f82ee, 0x78a5636f, 0x84c87814, 0x8cc70208, 0x90befffa, 0xa4506ceb, 0xbef9a3f7, 0xc67178f2
]

def rotr (x : UInt32) (n : UInt32) : UInt32 :=
  x >>> n ||| x <<< (32 - n)

-- The big-endian word of four bytes.
def word : Bytes → UInt32
  | [a, b, c, d] => a.toUInt32 <<< 24 ||| b.toUInt32 <<< 16 ||| c.toUInt32 <<< 8 ||| d.toUInt32
  | _            => 0

-- The message with its padding, and its length in bits at the end.
def pad (bytes : Bytes) : Bytes :=
  let zeros := (64 - (bytes.length + 9) % 64) % 64
  bytes ++ 0x80 :: .replicate zeros 0 ++ Bytes.ofNat 8 (8 * bytes.length)

-- The message schedule of a block.
def schedule (block : Bytes) : List UInt32 :=
  (List.range 48).foldl (fun w i =>
    let w₁ := w.getD (i + 1) 0
    let w₁₄ := w.getD (i + 14) 0
    let s₀ := rotr w₁ 7 ^^^ rotr w₁ 18 ^^^ w₁ >>> 3
    let s₁ := rotr w₁₄ 17 ^^^ rotr w₁₄ 19 ^^^ w₁₄ >>> 10
    w ++ [w.getD i 0 + s₀ + w.getD (i + 9) 0 + s₁]) <| (block.toChunks 4).map word

structure State where
  (a b c d e f g h : UInt32)
  deriving DecidableEq

def initial : State where
  a := 0x6a09e667
  b := 0xbb67ae85
  c := 0x3c6ef372
  d := 0xa54ff53a
  e := 0x510e527f
  f := 0x9b05688c
  g := 0x1f83d9ab
  h := 0x5be0cd19

def round (s : State) (k w : UInt32) : State :=
  let S₁ := rotr s.e 6 ^^^ rotr s.e 11 ^^^ rotr s.e 25
  let ch := (s.e &&& s.f) ^^^ (~~~s.e &&& s.g)
  let temp₁ := s.h + S₁ + ch + k + w
  let S₀ := rotr s.a 2 ^^^ rotr s.a 13 ^^^ rotr s.a 22
  let maj := (s.a &&& s.b) ^^^ (s.a &&& s.c) ^^^ (s.b &&& s.c)
  let temp₂ := S₀ + maj
  { a := temp₁ + temp₂, b := s.a, c := s.b, d := s.c, e := s.d + temp₁, f := s.e, g := s.f, h := s.g }

def compress (s : State) (block : Bytes) : State :=
  let r := (K.zip <| schedule block).foldl (fun r (k, w) => round r k w) s
  { a := s.a + r.a, b := s.b + r.b, c := s.c + r.c, d := s.d + r.d,
    e := s.e + r.e, f := s.f + r.f, g := s.g + r.g, h := s.h + r.h }

def sha256Bytes (bytes : Bytes) : Bytes :=
  let s := ((pad bytes).toChunks 64).foldl compress initial
  [s.a, s.b, s.c, s.d, s.e, s.f, s.g, s.h].flatMap fun h => Bytes.ofNat 4 h.toNat

-- The lower-case digits of bytes.
def toHex (bytes : Bytes) : JsString :=
  bytes.flatMap fun b => [Hex.lowerDigit (b.toNat / 16), Hex.lowerDigit (b.toNat % 16)]

def sha256HexUtf8 (s : JsString) : JsString :=
  toHex <| sha256Bytes <| Unicode.bufferFrom s

example : sha256HexUtf8 (js "abc") =
    js "ba7816bf8f01cfea414140de5dae2223b00361a396177a9cb410ff61f20015ad" := by
  decide +kernel

end Sha256
