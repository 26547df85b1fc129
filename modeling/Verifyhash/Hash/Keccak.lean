import Verifyhash.Data.Bytes

-- The implementation of keccak256 in `verifier-py/verify_vh.py`. Lanes of 64 bits are natural numbers.
namespace Keccak

-- A list of five values, such as the lanes with the same `x`.
structure Five (α : Type) where
  (v₀ v₁ v₂ v₃ v₄ : α)

namespace Five

def map (f : α → β) (s : Five α) : Five β :=
  ⟨f s.v₀, f s.v₁, f s.v₂, f s.v₃, f s.v₄⟩

def zip (f : α → β → γ) (s : Five α) (t : Five β) : Five γ :=
  ⟨f s.v₀ t.v₀, f s.v₁ t.v₁, f s.v₂ t.v₂, f s.v₃ t.v₃, f s.v₄ t.v₄⟩

-- The value at `(x + 1) % 5` comes to `x`.
def next (s : Five α) : Five α :=
  ⟨s.v₁, s.v₂, s.v₃, s.v₄, s.v₀⟩

-- The value at `(x - 1) % 5` comes to `x`.
def prev (s : Five α) : Five α :=
  ⟨s.v₄, s.v₀, s.v₁, s.v₂, s.v₃⟩

end Five

-- `state[x][y]`
abbrev State := Five (Five ℕ)

def ROUND_CONSTANTS : List ℕ := [
    0x0000000000000001, 0x0000000000008082, 0x800000000000808A, 0x8000000080008000,
    0x000000000000808B, 0x0000000080000001, 0x8000000080008081, 0x8000000000008009,
    0x000000000000008A, 0x0000000000000088, 0x0000000080008009, 0x000000008000000A,
    0x000000008000808B, 0x800000000000008B, 0x8000000000008089, 0x8000000000008003,
    0x8000000000008002, 0x8000000000000080, 0x000000000000800A, 0x800000008000000A,
    0x8000000080008081, 0x8000000000008080, 0x0000000080000001, 0x8000000080008008
  ]

def ROTATION_OFFSETS : State := ⟨
    ⟨0, 36, 3, 41, 18⟩,
    ⟨1, 44, 10, 45, 2⟩,
    ⟨62, 6, 43, 15, 61⟩,
    ⟨28, 55, 25, 21, 56⟩,
    ⟨27, 20, 39, 8, 14⟩
  ⟩

def MASK64 : ℕ :=
  (1 <<< 64) - 1

def rotl64 (value shift : ℕ) : ℕ :=
  ((value <<< shift) ||| (value >>> (64 - shift))) &&& MASK64

def theta (state : State) : State :=
  let c := state.map fun s => s.v₀ ^^^ s.v₁ ^^^ s.v₂ ^^^ s.v₃ ^^^ s.v₄
  let d := c.prev.zip (fun p n => p ^^^ rotl64 n 1) c.next
  state.zip (fun s d => s.map (· ^^^ d)) d

-- `b[y][(2 * x + 3 * y) % 5]` gets the rotated lane at `x`, `y`.
def rhoPi (state : State) : State :=
  let r := state.zip (Five.zip rotl64) ROTATION_OFFSETS
  ⟨
    ⟨r.v₀.v₀, r.v₃.v₀, r.v₁.v₀, r.v₄.v₀, r.v₂.v₀⟩,
    ⟨r.v₁.v₁, r.v₄.v₁, r.v₂.v₁, r.v₀.v₁, r.v₃.v₁⟩,
    ⟨r.v₂.v₂, r.v₀.v₂, r.v₃.v₂, r.v₁.v₂, r.v₄.v₂⟩,
    ⟨r.v₃.v₃, r.v₁.v₃, r.v₄.v₃, r.v₂.v₃, r.v₀.v₃⟩,
    ⟨r.v₄.v₄, r.v₂.v₄, r.v₀.v₄, r.v₃.v₄, r.v₁.v₄⟩
  ⟩

-- The complement of a lane is its exclusive or with the mask.
def chi (b : State) : State :=
  let rest := b.next.zip (Five.zip fun n nn => (n ^^^ MASK64) &&& nn) b.next.next
  b.zip (Five.zip fun b r => b ^^^ r) rest

def iota (state : State) (rc : ℕ) : State :=
  { state with v₀ := { state.v₀ with v₀ := state.v₀.v₀ ^^^ rc } }

def keccakF1600 (state : State) : State :=
  ROUND_CONSTANTS.foldl (fun state rc => iota (chi <| rhoPi <| theta state) rc) state

def rate : ℕ := 136

def pad (data : Bytes) : Bytes :=
  let padded := data ++ [0x01]
  let padded := padded ++ .replicate ((rate - padded.length % rate) % rate) 0x00
  padded.modify (padded.length - 1) (· ^^^ 0x80)

def lanes (block : Bytes) : List ℕ :=
  (List.range <| rate / 8).map fun i =>
    Numeral.value 256 <| ((block.drop (i * 8)).take 8).reverse.map UInt8.toNat

-- `state[i % 5][i // 5]` absorbs the lane at `i`, for the lanes which there are.
def absorb (state : State) (block : Bytes) : State :=
  let lanes := lanes block
  let lane i := lanes.getD i 0
  keccakF1600 <| state.zip (Five.zip fun s l => s ^^^ l) ⟨
    ⟨lane 0, lane 5, lane 10, lane 15, 0⟩,
    ⟨lane 1, lane 6, lane 11, lane 16, 0⟩,
    ⟨lane 2, lane 7, lane 12, 0, 0⟩,
    ⟨lane 3, lane 8, lane 13, 0, 0⟩,
    ⟨lane 4, lane 9, lane 14, 0, 0⟩
  ⟩

def squeeze (state : State) : List ℕ :=
  [state.v₀.v₀, state.v₁.v₀, state.v₂.v₀, state.v₃.v₀].flatMap fun lane =>
    (Numeral.digits 256 8 lane).reverse

-- The padding fills the last block.
theorem rate_dvd_length_pad : rate ∣ (pad data).length := by
  simp only [pad, rate, List.length_modify, List.length_append, List.length_replicate,
    List.length_singleton]
  omega

def keccak256 (data : Bytes) : Bytes32 :=
  let padded := pad data
  let zero : Five ℕ := ⟨0, 0, 0, 0, 0⟩
  let state := (List.range <| padded.length / rate).foldl (fun state k =>
    absorb state <| (padded.drop (k * rate)).take rate) ⟨zero, zero, zero, zero, zero⟩
  .ofNat 256 <| Numeral.value 256 (squeeze state)

example :
    keccak256 [] = 0xc5d2460186f7233c927e7db2dcc703c0e500b653ca82273b7bfad8045d85a470 := by
  decide +kernel

end Keccak
