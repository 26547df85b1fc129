import Mathlib

-- The hash function SHA-256 of the standard FIPS 180-4, for messages which are sequences of bytes.
namespace Fips180

abbrev Word := BitVec 32

def Ch (x y z : Word) : Word :=
  (x &&& y) ^^^ (~~~x &&& z)

def Maj (x y z : Word) : Word :=
  (x &&& y) ^^^ (x &&& z) ^^^ (y &&& z)

def bigSigma0 (x : Word) : Word :=
  x.rotateRight 2 ^^^ x.rotateRight 13 ^^^ x.rotateRight 22

def bigSigma1 (x : Word) : Word :=
  x.rotateRight 6 ^^^ x.rotateRight 11 ^^^ x.rotateRight 25

def smallSigma0 (x : Word) : Word :=
  x.rotateRight 7 ^^^ x.rotateRight 18 ^^^ x >>> 3

def smallSigma1 (x : Word) : Word :=
  x.rotateRight 17 ^^^ x.rotateRight 19 ^^^ x >>> 10

-- The first 32 bits of the fractional parts of the cube roots of the first 64 primes.
def constants : List Word := [
  0x428a2f98, 0x71374491, 0xb5c0fbcf, 0xe9b5dba5, 0x3956c25b, 0x59f111f1, 0x923f82a4, 0xab1c5ed5,
  0xd807aa98, 0x12835b01, 0x243185be, 0x550c7dc3, 0x72be5d74, 0x80deb1fe, 0x9bdc06a7, 0xc19bf174,
  0xe49b69c1, 0xefbe4786, 0x0fc19dc6, 0x240ca1cc, 0x2de92c6f, 0x4a7484aa, 0x5cb0a9dc, 0x76f988da,
  0x983e5152, 0xa831c66d, 0xb00327c8, 0xbf597fc7, 0xc6e00bf3, 0xd5a79147, 0x06ca6351, 0x14292967,
  0x27b70a85, 0x2e1b2138, 0x4d2c6dfc, 0x53380d13, 0x650a7354, 0x766a0abb, 0x81c2c92e, 0x92722c85,
  0xa2bfe8a1, 0xa81a664b, 0xc24b8b70, 0xc76c51a3, 0xd192e819, 0xd6990624, 0xf40e3585, 0x106aa070,
  0x19a4c116, 0x1e376c08, 0x2748774c, 0x34b0bcb5, 0x391c0cb3, 0x4ed8aa4a, 0x5b9cca4f, 0x682e6ff3,
  0x748f82ee, 0x78a5636f, 0x84c87814, 0x8cc70208, 0x90befffa, 0xa4506ceb, 0xbef9a3f7, 0xc67178f2
]

def K (t : ℕ) : Word :=
  constants.getD t 0

-- The eight working variables, or the eight words of a hash value.
structure Registers (α : Type*) where
  (a b c d e f g h : α)

-- The first 32 bits of the fractional parts of the square roots of the first 8 primes.
def initial : Registers Word where
  a := 0x6a09e667
  b := 0xbb67ae85
  c := 0x3c6ef372
  d := 0xa54ff53a
  e := 0x510e527f
  f := 0x9b05688c
  g := 0x1f83d9ab
  h := 0x5be0cd19

-- The least number of zero bytes after which eight bytes are left in a block.
def zeros (length : ℕ) : ℕ :=
  (119 - length % 64) % 64

-- The length in bits, as eight bytes of which the first one is the greatest.
def lengthField (length : ℕ) : List UInt8 :=
  [56, 48, 40, 32, 24, 16, 8, 0].map fun k => ⟨(BitVec.ofNat 64 (8 * length) >>> k).setWidth 8⟩

def pad (message : List UInt8) : List UInt8 :=
  message ++ 0x80 :: List.replicate (zeros message.length) 0 ++ lengthField message.length

-- The word which starts at a byte of the padded message.
def word (padded : List UInt8) (i : ℕ) : Word :=
  (padded.getD i 0).toBitVec ++ (padded.getD (i + 1) 0).toBitVec ++ (padded.getD (i + 2) 0).toBitVec ++
    (padded.getD (i + 3) 0).toBitVec

-- The message schedule of a block, which is given by its words.
def schedule (block : ℕ → Word) (t : ℕ) : Word :=
  if t < 16 then
    block t
  else
    smallSigma1 (schedule block (t - 2)) + schedule block (t - 7) + smallSigma0 (schedule block (t - 15)) +
      schedule block (t - 16)

def step (r : Registers Word) (k w : Word) : Registers Word :=
  let T₁ := r.h + bigSigma1 r.e + Ch r.e r.f r.g + k + w
  let T₂ := bigSigma0 r.a + Maj r.a r.b r.c
  { a := T₁ + T₂, b := r.a, c := r.b, d := r.c, e := r.d + T₁, f := r.e, g := r.f, h := r.g }

-- The working variables after some steps.
def working (hash : Registers Word) (block : ℕ → Word) : ℕ → Registers Word
  | 0     => hash
  | t + 1 => step (working hash block t) (K t) (schedule block t)

def compress (hash : Registers Word) (block : ℕ → Word) : Registers Word :=
  let r := working hash block 64
  {
    a := r.a + hash.a
    b := r.b + hash.b
    c := r.c + hash.c
    d := r.d + hash.d
    e := r.e + hash.e
    f := r.f + hash.f
    g := r.g + hash.g
    h := r.h + hash.h
  }

-- The hash value after some blocks of the padded message.
def hashValue (padded : List UInt8) : ℕ → Registers Word
  | 0     => initial
  | n + 1 => compress (hashValue padded n) fun i => word padded (64 * n + 4 * i)

def Registers.toList (r : Registers α) : List α :=
  [r.a, r.b, r.c, r.d, r.e, r.f, r.g, r.h]

-- The bytes of a word, of which the first one is the greatest.
def wordBytes (w : Word) : List UInt8 :=
  [24, 16, 8, 0].map fun k => ⟨(w >>> k).setWidth 8⟩

def sha256 (message : List UInt8) : List UInt8 :=
  (hashValue (pad message) ((pad message).length / 64)).toList.flatMap wordBytes

theorem zeros_spec (length : ℕ) :
    (length + 1 + zeros length) % 64 = 56 ∧ ∀ k, (length + 1 + k) % 64 = 56 → zeros length ≤ k := by
  rw [zeros]
  exact ⟨by omega, fun k h => by omega⟩

@[simp]
theorem length_lengthField (length : ℕ) : (lengthField length).length = 8 :=
  rfl

theorem length_pad (message : List UInt8) :
    (pad message).length = message.length + 1 + zeros message.length + 8 := by
  simp [pad]
  omega

theorem schedule_of_lt {block : ℕ → Word} (h : t < 16) : schedule block t = block t := by
  rw [schedule, if_pos h]

theorem schedule_of_le {block : ℕ → Word} (h : 16 ≤ t) : schedule block t =
    smallSigma1 (schedule block (t - 2)) + schedule block (t - 7) + smallSigma0 (schedule block (t - 15)) +
      schedule block (t - 16) := by
  rw [schedule, if_neg (by omega)]

end Fips180
