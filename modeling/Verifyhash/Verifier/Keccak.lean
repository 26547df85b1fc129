import Verifyhash.Hash.Keccak
import Verifyhash.Library.Arrays

-- The bit pattern of a number in the 32-bit operators of JavaScript.
abbrev U32 := BitVec 32

-- The keccak256 of `verifier/lib/keccak256-vendored.js`. A conversion by `>>> 0` keeps the bit pattern.
namespace Verifier.Keccak

open Arrays

def RC_HI : List U32 := [
    0x00000000, 0x00000000, 0x80000000, 0x80000000, 0x00000000, 0x00000000, 0x80000000, 0x80000000,
    0x00000000, 0x00000000, 0x00000000, 0x00000000, 0x00000000, 0x80000000, 0x80000000, 0x80000000,
    0x80000000, 0x80000000, 0x00000000, 0x80000000, 0x80000000, 0x80000000, 0x00000000, 0x80000000
  ]

def RC_LO : List U32 := [
    0x00000001, 0x00008082, 0x0000808a, 0x80008000, 0x0000808b, 0x80000001, 0x80008080 + 1, 0x00008009,
    0x0000008a, 0x00000088, 0x80008009, 0x8000000a, 0x8000808b, 0x0000008b, 0x00008089, 0x00008003,
    0x00008002, 0x00000080, 0x0000800a, 0x8000000a, 0x80008080 + 1, 0x00008080, 0x80000001, 0x80008008
  ]

def RHO : Vector ℕ 25 := #v[
    0, 1, 62, 28, 27, 36, 44, 6, 55, 20, 3, 10, 43, 25, 39, 41, 45, 15, 21, 8, 18, 2, 61, 56, 14
  ]

def PI : Vector (Fin 25) 25 := #v[
    0, 10, 20, 5, 15, 16, 1, 11, 21, 6, 7, 17, 2, 12, 22, 23, 8, 18, 3, 13, 14, 24, 9, 19, 4
  ]

-- The lanes, each as two halves in parallel arrays.
structure State where
  lo : Vector U32 25
  hi : Vector U32 25

-- The index of the lane at `x`, where `y` is the row.
def lane (x y : Fin 5) : Fin 25 :=
  ⟨x + 5 * y, by omega⟩

def columns : List (Fin 5 × Fin 5) :=
  (List.finRange 5).flatMap fun x => (List.finRange 5).map fun y => (x, y)

def rows : List (Fin 5 × Fin 5) :=
  (List.finRange 5).flatMap fun y => (List.finRange 5).map fun x => (x, y)

def bc (half : Vector U32 25) : Vector U32 5 := .ofFn fun x =>
  half[lane x 0] ^^^ half[lane x 1] ^^^ half[lane x 2] ^^^ half[lane x 3] ^^^ half[lane x 4]

-- A half of `bc[x-1] XOR rotl1(bc[x+1])`, where `other` has the other halves.
def d (half other : Vector U32 5) (x : Fin 5) : U32 :=
  half[x + 4] ^^^ (half[x + 1] <<< 1 ||| other[x + 1] >>> 31)

def theta (s : State) : State :=
  let bcLo := bc s.lo
  let bcHi := bc s.hi
  {
    lo := s.lo |> overwrite columns (fun p => lane p.1 p.2) fun p lo => lo ^^^ d bcLo bcHi p.1
    hi := s.hi |> overwrite columns (fun p => lane p.1 p.2) fun p hi => hi ^^^ d bcHi bcLo p.1
  }

-- The halves of a lane which is rotated by `r`.
def rotate (r : ℕ) (lo hi : U32) : U32 × U32 :=
  if r = 0 then (lo, hi)
  else if r < 32 then (lo <<< r ||| hi >>> (32 - r), hi <<< r ||| lo >>> (32 - r))
  else if r = 32 then (hi, lo)
  else
    let rr := r - 32
    (hi <<< rr ||| lo >>> (32 - rr), lo <<< rr ||| hi >>> (32 - rr))

-- The elements of `tLo` and `tHi` are all overwritten.
def rhoPi (s : State) : State where
  lo := .replicate 25 0 |> overwrite (List.finRange 25) (PI.get ·) fun i _ => (rotate RHO[i] s.lo[i] s.hi[i]).1
  hi := .replicate 25 0 |> overwrite (List.finRange 25) (PI.get ·) fun i _ => (rotate RHO[i] s.lo[i] s.hi[i]).2

-- `t[x] XOR ((NOT t[x+1]) AND t[x+2])`
def row (half : Vector U32 25) (x y : Fin 5) : U32 :=
  half[lane x y] ^^^ (~~~half[lane (x + 1) y] &&& half[lane (x + 2) y])

def chi (s t : State) : State where
  lo := s.lo |> overwrite rows (fun p => lane p.1 p.2) fun p _ => row t.lo p.1 p.2
  hi := s.hi |> overwrite rows (fun p => lane p.1 p.2) fun p _ => row t.hi p.1 p.2

def iota (s : State) (rcLo rcHi : U32) : State where
  lo := s.lo.set 0 <| s.lo[0] ^^^ rcLo
  hi := s.hi.set 0 <| s.hi[0] ^^^ rcHi

def keccakF (s : State) : State :=
  (RC_LO.zip RC_HI).foldl (fun s rc =>
    let s := theta s
    let t := rhoPi s
    iota (chi s t) rc.1 rc.2) s

def RATE : ℕ := 136

def pad (bytes : Bytes) : Bytes :=
  let inLen := bytes.length
  let padLen := RATE - inLen % RATE
  let total := inLen + padLen
  let msg := bytes ++ .replicate padLen 0x00
  let msg := msg.set inLen 0x01
  msg.modify (total - 1) (· ||| 0x80)

-- The half of a lane which starts at an offset.
def half (msg : Bytes) (b : ℕ) : U32 :=
  let byte i : U32 := (msg.getD (b + i) 0).toBitVec.setWidth 32
  byte 0 ||| byte 1 <<< 8 ||| byte 2 <<< 16 ||| byte 3 <<< 24

-- A block has 17 lanes.
def absorb (msg : Bytes) (s : State) (off : ℕ) : State :=
  let lanes := List.finRange 17
  keccakF {
    lo := s.lo |> overwrite lanes (Fin.castLE (by decide)) fun i lo => lo ^^^ half msg (off + 8 * i)
    hi := s.hi |> overwrite lanes (Fin.castLE (by decide)) fun i hi => hi ^^^ half msg (off + 8 * i + 4)
  }

def bytesOf (half : U32) : Bytes :=
  [0, 8, 16, 24].map fun k => .ofBitVec <| (half >>> k).setWidth 8

def squeeze (s : State) : Bytes :=
  (List.range 4).flatMap fun lane => bytesOf (s.lo[lane]?.getD 0) ++ bytesOf (s.hi[lane]?.getD 0)

def keccak256Bytes (bytes : Bytes) : Bytes :=
  let msg := pad bytes
  let offs := (List.range <| msg.length / RATE).map (RATE * ·)
  squeeze <| offs.foldl (absorb msg) ⟨.replicate 25 0, .replicate 25 0⟩

end Verifier.Keccak

-- A Rust integer of type `u64`.
abbrev U64 := BitVec 64

-- A Rust array of type `[u8; 32]`.
abbrev Digest := List.Vector UInt8 32

def Digest.ofBytes32 (w : Bytes32) : Digest :=
  ⟨Bytes.ofBytes32 w, Bytes.length_ofBytes32⟩

-- The keccak256 of `verifier-rs/src/keccak.rs`.
namespace VerifierRs

def RATE : ℕ := 136

instance instNeZeroFive : NeZero 5 :=
  ⟨by decide⟩

def ROUND_CONSTANTS : List U64 := [
    0x0000000000000001, 0x0000000000008082, 0x800000000000808a, 0x8000000080008000,
    0x000000000000808b, 0x0000000080000001, 0x8000000080008081, 0x8000000000008009,
    0x000000000000008a, 0x0000000000000088, 0x0000000080008009, 0x000000008000000a,
    0x000000008000808b, 0x800000000000008b, 0x8000000000008089, 0x8000000000008003,
    0x8000000000008002, 0x8000000000000080, 0x000000000000800a, 0x800000008000000a,
    0x8000000080008081, 0x8000000000008080, 0x0000000080000001, 0x8000000080008008
  ]

def ROTATION : Vector (Vector ℕ 5) 5 := #v[
    #v[0, 36, 3, 41, 18],
    #v[1, 44, 10, 45, 2],
    #v[62, 6, 43, 15, 61],
    #v[28, 55, 25, 21, 56],
    #v[27, 20, 39, 8, 14]
  ]

abbrev Lanes := Vector U64 25

-- The flat index `x + 5 * y` of the lane at `x`, `y`.
def index (x y : Fin 5) : Fin 25 :=
  ⟨x + 5 * y, by omega⟩

def positions : List (Fin 5 × Fin 5) :=
  (List.finRange 5).flatMap fun x => (List.finRange 5).map fun y => (x, y)

-- The nested loops over `x` and `y`, which replace the lane at `key x y` in each round.
def update (key : Fin 5 → Fin 5 → Fin 25) (f : Fin 5 → Fin 5 → U64 → U64) (a : Lanes) : Lanes :=
  positions.foldl (fun a p => a.set (key p.1 p.2) <| f p.1 p.2 a[key p.1 p.2]) a

def theta (a : Lanes) : Lanes :=
  let c : Vector U64 5 := .ofFn fun x =>
    a[index x 0] ^^^ a[index x 1] ^^^ a[index x 2] ^^^ a[index x 3] ^^^ a[index x 4]
  let d : Vector U64 5 := .ofFn fun x => c.get (x + 4) ^^^ (c.get (x + 1)).rotateLeft 1
  a |> update index fun x _ lane => lane ^^^ d[x]

def rhoPi (a : Lanes) : Lanes :=
  let b : Lanes := .replicate 25 0
  b |> update (fun x y => index y (2 * x + 3 * y)) fun x y _ => a[index x y].rotateLeft ROTATION[x][y]

def chi (a b : Lanes) : Lanes :=
  a |> update index fun x y _ => b[index x y] ^^^ (~~~b[index (x + 1) y] &&& b[index (x + 2) y])

def iota (a : Lanes) (rc : U64) : Lanes :=
  a.set 0 <| a[0] ^^^ rc

def keccakF1600 (a : Lanes) : Lanes :=
  ROUND_CONSTANTS.foldl (fun a rc =>
    let a := theta a
    let b := rhoPi a
    iota (chi a b) rc) a

-- `slice::chunks`
def chunks (size : ℕ) (l : List α) : List (List α) :=
  (List.range <| (l.length + size - 1) / size).map fun k => (l.drop <| k * size).take size

def pad (input : Bytes) : Bytes :=
  let padded := input ++ [0x01]
  let padded := padded ++ .replicate ((RATE - padded.length % RATE) % RATE) 0x00
  padded.modify (padded.length - 1) (· ^^^ 0x80)

def word (lane : Bytes) : U64 :=
  lane.zipIdx.foldl (fun v (byte, j) => v ||| byte.toBitVec.setWidth 64 <<< (8 * j)) 0

-- A block has less lanes than the state.
def absorb (state : Lanes) (block : Bytes) : Lanes :=
  keccakF1600 <| (chunks 8 block).zipIdx.foldl (fun state (lane, i) =>
    state.setIfInBounds i <| state[i]?.getD 0 ^^^ word lane) state

def squeeze (state : Lanes) : Bytes :=
  [state[0], state[1], state[2], state[3]].flatMap fun (lane : U64) =>
    (List.range 8).map fun j => .ofBitVec <| (lane >>> (8 * j)).setWidth 8

def keccak256 (input : Bytes) : Digest :=
  let state := (chunks RATE <| pad input).foldl absorb <| .replicate 25 0
  ⟨squeeze state, by simp [squeeze]⟩

end VerifierRs

open Keccak (Five)

-- The two implementations of keccak256 differ in the layout of the lanes.
namespace VerifierRs

def five (f : Fin 5 → α) : Five α :=
  ⟨f 0, f 1, f 2, f 3, f 4⟩

def state (lane : Fin 5 → Fin 5 → ℕ) : Keccak.State :=
  five fun x => five (lane x)

def toState (a : Lanes) : Keccak.State :=
  state fun x y => a[index x y].toNat

-- The exclusive or of the lanes with the same `x`.
def column (lane : Fin 5 → Fin 5 → ℕ) (x : Fin 5) : ℕ :=
  lane x 0 ^^^ lane x 1 ^^^ lane x 2 ^^^ lane x 3 ^^^ lane x 4

section

variable {lane lane' : Fin 5 → Fin 5 → ℕ}

theorem theta_state : Keccak.theta (state lane) = state fun x y =>
    lane x y ^^^ (column lane (x + 4) ^^^ Keccak.rotl64 (column lane (x + 1)) 1) :=
  rfl

theorem rhoPi_state : Keccak.rhoPi (state lane) = state fun x y =>
    Keccak.rotl64 (lane (x + 3 * y) x) ROTATION[x + 3 * y][x] :=
  rfl

theorem chi_state : Keccak.chi (state lane) = state fun x y =>
    lane x y ^^^ ((lane (x + 1) y ^^^ Keccak.MASK64) &&& lane (x + 2) y) :=
  rfl

theorem state_congr (h : ∀ x y, lane x y = lane' x y) : state lane = state lane' :=
  congrArg state <| funext fun x => funext fun y => h x y

end

theorem toNat_rotateLeft (v : U64) (h : n < 64) :
    (v.rotateLeft n).toNat = Keccak.rotl64 v.toNat n := by
  have hm : Keccak.MASK64 = 2 ^ 64 - 1 := by decide
  have hs : v.toNat >>> (64 - n) < 2 ^ 64 :=
    Nat.lt_of_le_of_lt (Nat.shiftRight_le ..) v.isLt
  rw [BitVec.toNat_rotateLeft, Nat.mod_eq_of_lt h, Keccak.rotl64, hm, Nat.and_two_pow_sub_one_eq_mod,
    Nat.or_mod_two_pow, Nat.mod_eq_of_lt hs]

theorem toNat_not (v : U64) : (~~~v).toNat = v.toNat ^^^ Keccak.MASK64 := by
  rw [←BitVec.xor_allOnes, BitVec.toNat_xor]
  rfl

section

variable {k : Fin 5 → Fin 5 → Fin 25} {f : Fin 5 → Fin 5 → U64 → U64} {x y : Fin 5}

-- If the loops write no lane twice, each of them is computed from the value which it had before.
theorem getElem_update (hk : (positions.map fun p => k p.1 p.2).Nodup) (a : Lanes) (x y : Fin 5) :
    (update k f a)[k x y] = f x y a[k x y] := by
  have hm : ∀ x y, (x, y) ∈ positions := by decide
  have hu : update k f = Arrays.overwrite positions (fun p => k p.1 p.2) fun p => f p.1 p.2 := rfl
  rw [hu]
  exact Arrays.getElem_overwrite hk (hm x y) a

end

section

variable (a b : Lanes)

theorem nodup_index : (positions.map fun p => index p.1 p.2).Nodup := by
  decide

theorem toState_theta : toState (theta a) = Keccak.theta (toState a) := by
  rw [toState, toState, theta_state]
  refine state_congr fun x y => ?_
  rw [theta, getElem_update nodup_index]
  simp [-BitVec.toNat_rotateLeft, toNat_rotateLeft, column]

theorem toState_rhoPi : toState (rhoPi a) = Keccak.rhoPi (toState a) := by
  rw [toState, toState, rhoPi_state]
  refine state_congr fun x y => ?_
  have hk : (positions.map fun p => index p.2 (2 * p.1 + 3 * p.2)).Nodup := by decide
  have hr : ROTATION[x + 3 * y][x] < 64 := by decide +revert
  have hi : index x (2 * (x + 3 * y) + 3 * x) = index x y := by decide +revert
  have := getElem_update (k := fun x y => index y (2 * x + 3 * y)) hk (.replicate 25 0) (x + 3 * y) x
    (f := fun x y _ => a[index x y].rotateLeft ROTATION[x][y])
  simp only [hi] at this
  rw [←toNat_rotateLeft _ hr, ←this, rhoPi]

theorem toState_chi : toState (chi a b) = Keccak.chi (toState b) := by
  rw [toState, toState, chi_state]
  refine state_congr fun x y => ?_
  rw [chi, getElem_update nodup_index]
  simp [-BitVec.toNat_not, toNat_not]

theorem toState_iota (rc : U64) : toState (iota a rc) = Keccak.iota (toState a) rc.toNat := by
  have : Keccak.iota (toState a) rc.toNat = state fun x y =>
      if index x y = 0 then a[index x y].toNat ^^^ rc.toNat else a[index x y].toNat := rfl
  rw [this, toState, iota]
  refine state_congr fun x y => ?_
  split_ifs with h
  case pos => simp [h]
  case neg => exact congrArg _ <| Vector.getElem_set_ne _ _ <| by simpa [Fin.ext_iff, eq_comm] using h

theorem toState_keccakF1600 : toState (keccakF1600 a) = Keccak.keccakF1600 (toState a) := by
  have hc : Keccak.ROUND_CONSTANTS = ROUND_CONSTANTS.map BitVec.toNat := by decide
  rw [keccakF1600, Keccak.keccakF1600, hc]
  induction ROUND_CONSTANTS generalizing a
  case nil => rfl
  case cons rc _ ih =>
    rw [List.foldl_cons, ih, List.map_cons, List.foldl_cons, toState_iota, toState_chi, toState_rhoPi,
      toState_theta]

end

theorem toNat_word {lane : Bytes} (h : lane.length ≤ 8) :
    (word lane).toNat = Numeral.value 256 (lane.reverse.map UInt8.toNat) := by
  induction lane using List.reverseRecOn
  case nil => rfl
  case append_singleton lane byte ih =>
    have hl : lane.length < 8 := by simpa using h
    have ih := ih <| Nat.le_of_lt hl
    have hv : (word lane).toNat < 256 ^ lane.length := by
      have : ∀ d ∈ lane.reverse.map UInt8.toNat, d < 256 := by
        simpa using fun b _ => b.toNat_lt
      simpa [ih] using Numeral.value_lt this
    have hb : byte.toNat < 256 := byte.toNat_lt
    have hs : (byte.toBitVec.setWidth 64 <<< (8 * lane.length)).toNat =
        byte.toNat <<< (8 * lane.length) := by
      have : byte.toNat * 2 ^ (8 * lane.length) < 2 ^ 64 := calc
        _ < 2 ^ 8 * 2 ^ (8 * lane.length) := Nat.mul_lt_mul_of_pos_right hb (by positivity)
        _ = 2 ^ (8 * (lane.length + 1))   := by ring
        _ ≤ 2 ^ 64                        := Nat.pow_le_pow_right (by omega) (by omega)
      simpa [Nat.shiftLeft_eq] using this
    have hw : word (lane ++ [byte]) = word lane ||| byte.toBitVec.setWidth 64 <<< (8 * lane.length) := by
      simp [word, List.zipIdx_append]
    have hp : 256 ^ lane.length = 2 ^ (8 * lane.length) := by rw [Nat.pow_mul]
    rw [hw, BitVec.toNat_or, hs, Nat.lor_comm, ←Nat.shiftLeft_add_eq_or_of_lt (hp ▸ hv), ih,
      Nat.shiftLeft_eq, ←hp]
    simp [Numeral.value_cons]

-- The loop over the lanes of a block changes the lane at each index by the word at that index.
theorem getElem_foldl_xor {ws : List Bytes} (a : Lanes) (k : ℕ) (i : Fin 25) :
    ((ws.zipIdx k).foldl (fun a (w, i) => a.setIfInBounds i <| a[i]?.getD 0 ^^^ word w) a)[i] =
      a[i] ^^^ if k ≤ i then (ws[i - k]?.map word).getD 0 else 0 := by
  induction ws generalizing a k
  case nil => simp
  case cons w ws ih =>
    rw [List.zipIdx_cons, List.foldl_cons, ih]
    rcases Nat.lt_trichotomy k i with h | rfl | h
    · have : i - k = (i - (k + 1)) + 1 := by omega
      simp [this]
      grind
    · simp
    · simp
      grind

theorem chunks_eq {size : ℕ} {l : List α} (hs : 0 < size) (h : size ∣ l.length) :
    chunks size l = (List.range <| l.length / size).map fun k => (l.drop <| k * size).take size := by
  obtain ⟨n, hn⟩ := h
  rw [chunks, hn, Nat.mul_div_cancel_left _ hs, Nat.add_sub_assoc hs, Nat.mul_add_div hs,
    Nat.div_eq_of_lt (by omega), Nat.add_zero]

theorem toState_absorb (a : Lanes) {block : Bytes} (h : block.length = RATE) :
    toState (absorb a block) = Keccak.absorb (toState a) block := by
  have hw (i : Fin 25) :
      (((chunks 8 block)[i]?.map word).getD 0).toNat = (Keccak.lanes block).getD i 0 := by
    rw [chunks_eq (by decide) (by rw [h]; decide), h, Keccak.lanes]
    by_cases hi : i.val < 17
    case pos =>
      have hl : ((block.drop <| i * 8).take 8).length ≤ 8 := by simp
      simp [RATE, Keccak.rate, List.getElem?_range hi, toNat_word hl]
    case neg =>
      have : (List.range 17)[i.val]? = none := List.getElem?_eq_none <| by simpa using hi
      simp [RATE, Keccak.rate, this]
  have hs : Keccak.absorb (toState a) block = Keccak.keccakF1600 (state fun x y =>
      a[index x y].toNat ^^^ (Keccak.lanes block).getD (index x y) 0) :=
    congrArg Keccak.keccakF1600 rfl
  rw [hs, absorb, toState_keccakF1600, toState]
  refine congrArg Keccak.keccakF1600 <| state_congr fun x y => ?_
  rw [←hw, getElem_foldl_xor]
  simp

theorem squeeze_eq (a : Lanes) :
    squeeze a = (Keccak.squeeze <| toState a).map UInt8.ofNat := by
  have hd (v : U64) : ((List.range 8).map fun j => UInt8.ofBitVec <| (v >>> (8 * j)).setWidth 8) =
      (Numeral.digits 256 8 v.toNat).reverse.map UInt8.ofNat := by
    rw [Numeral.reverse_digits, List.map_map]
    refine List.map_congr_left fun j _ => UInt8.toNat_inj.mp ?_
    simp [Nat.shiftRight_eq_div_pow, Nat.pow_mul]
  have hs : Keccak.squeeze (toState a) = [a[0], a[1], a[2], a[3]].flatMap fun (v : U64) =>
      (Numeral.digits 256 8 v.toNat).reverse := rfl
  rw [hs, List.map_flatMap, squeeze]
  simp only [hd]

theorem ofBytes32_value {ds : List ℕ} (hl : ds.length = 32) (h : ∀ d ∈ ds, d < 256) :
    Bytes.ofBytes32 (.ofNat 256 <| Numeral.value 256 ds) = ds.map UInt8.ofNat := by
  have hv : Numeral.value 256 ds < 2 ^ 256 := by simpa [hl] using Numeral.value_lt h
  rw [Bytes.ofBytes32, BitVec.toNat_ofNat, Nat.mod_eq_of_lt hv, Bytes.ofNat, ←hl,
    Numeral.digits_value h]

-- The blocks of the padded input are absorbed in the same order.
theorem toState_foldl_absorb {padded : Bytes} {ks : List ℕ}
    (h : ∀ k ∈ ks, (k + 1) * RATE ≤ padded.length) (a : Lanes) :
    toState ((ks.map fun k => (padded.drop <| k * RATE).take RATE).foldl absorb a) =
      ks.foldl (fun s k => Keccak.absorb s <| (padded.drop <| k * RATE).take RATE) (toState a) := by
  induction ks generalizing a
  case nil => rfl
  case cons k ks ih =>
    have ⟨hk, h⟩ := List.forall_mem_cons.mp h
    have hl : ((padded.drop <| k * RATE).take RATE).length = RATE := by
      rw [Nat.add_one_mul] at hk
      rw [List.length_take, List.length_drop]
      omega
    rw [List.map_cons, List.foldl_cons, ih h, toState_absorb a hl, List.foldl_cons]

theorem squeeze_lt (s : Keccak.State) : ∀ d ∈ Keccak.squeeze s, d < 256 := by
  intro d hd
  obtain ⟨_, _, hd⟩ := List.mem_flatMap.mp hd
  exact Numeral.digits_lt (by omega) <| List.mem_reverse.mp hd

theorem val_keccak256 (input : Bytes) :
    (keccak256 input).val = squeeze ((chunks RATE <| pad input).foldl absorb <| .replicate 25 0) :=
  rfl

-- The implementation in Rust computes the same bytes as the one in Python.
theorem keccak256_eq (input : Bytes) : keccak256 input = .ofBytes32 (Keccak.keccak256 input) := by
  have hp : pad input = Keccak.pad input := rfl
  have hd : RATE ∣ (Keccak.pad input).length := Keccak.rate_dvd_length_pad
  generalize hs : Keccak.pad input = padded at hp hd
  have hk : ∀ k ∈ List.range (padded.length / RATE), (k + 1) * RATE ≤ padded.length :=
    fun k hk => (Nat.mul_le_mul_right _ <| List.mem_range.mp hk).trans <| Nat.div_mul_le_self ..
  have hv : (keccak256 input).val = (Keccak.squeeze <| (List.range <| padded.length / RATE).foldl
      (fun s k => Keccak.absorb s <| (padded.drop <| k * RATE).take RATE)
      (toState <| .replicate 25 0)).map UInt8.ofNat := by
    rw [val_keccak256, hp, chunks_eq (by decide) hd, squeeze_eq, toState_foldl_absorb hk]
  refine Subtype.ext <| hv.trans ?_
  rw [←ofBytes32_value (by simp [Keccak.squeeze]) (squeeze_lt _), ←hs]
  rfl

end VerifierRs

-- The implementations of keccak256 in JavaScript and in Rust differ in the representation of the lanes.
namespace Verifier.Keccak

open Arrays
open VerifierRs (Lanes index ROTATION ROUND_CONSTANTS)

-- The lane with two halves.
def join (lo hi : U32) : U64 :=
  hi ++ lo

def State.lanes (s : State) : Lanes :=
  .ofFn fun i => join s.lo[i] s.hi[i]

section

variable (lo hi lo' hi' : U32)

theorem join_xor : join lo hi ^^^ join lo' hi' = join (lo ^^^ lo') (hi ^^^ hi') :=
  BitVec.xor_append

theorem join_and : join lo hi &&& join lo' hi' = join (lo &&& lo') (hi &&& hi') :=
  BitVec.and_append

theorem join_not : ~~~join lo hi = join (~~~lo) (~~~hi) :=
  BitVec.not_append

theorem getLsbD_join : (join lo hi).getLsbD i = if i < 32 then lo.getLsbD i else hi.getLsbD (i - 32) := by
  rw [join, BitVec.getLsbD_append]

-- The bits of a half are those of the lane from some position on.
theorem getLsbD_half (x y : U32) (h : 0 < r) (hr : r < 32) (hi : i < 32) :
    (x <<< r ||| y >>> (32 - r)).getLsbD i = if i < r then y.getLsbD (32 + i - r) else x.getLsbD (i - r) := by
  rw [BitVec.getLsbD_or, BitVec.getLsbD_shiftLeft, BitVec.getLsbD_ushiftRight]
  split_ifs with hir
  case pos =>
    have : 32 - r + i = 32 + i - r := by omega
    simp [hir, this]
  case neg =>
    have : y.getLsbD (32 - r + i) = false := BitVec.getLsbD_of_ge _ _ <| by omega
    simp [hir, hi, this]

theorem join_rotate (h : r < 64) :
    (join lo hi).rotateLeft r = join (rotate r lo hi).1 (rotate r lo hi).2 := by
  have hb (v : U64) {i : ℕ} (hi : i < 64) : (v.rotateLeft r).getLsbD i = v.getLsbD (if i < r then 64 + i - r else i - r) := by
    rw [BitVec.getLsbD_rotateLeft, Nat.mod_eq_of_lt h]
    split_ifs with hir
    · have : 64 - r + i = 64 + i - r := by omega
      simp [hir, this]
    · simp [hir, hi]
  apply BitVec.eq_of_getLsbD_eq
  intro i hi
  rw [hb _ hi, getLsbD_join, getLsbD_join]
  by_cases h0 : r = 0
  case pos => simp [rotate, h0]
  case neg =>
    by_cases hr : r < 32
    case pos =>
      simp only [rotate, h0, hr, if_true, if_false]
      by_cases hi' : i < 32
      case pos => 
        rw [if_pos hi', getLsbD_half _ _ (by omega) hr hi']
        grind
      case neg =>
        rw [if_neg hi', getLsbD_half _ _ (by omega) hr (by omega)]
        grind
    case neg =>
      by_cases hr' : r = 32
      case pos =>
        simp only [rotate, hr']
        grind
      case neg =>
        simp only [rotate, h0, hr, hr', if_false]
        by_cases hi' : i < 32
        case pos => 
          rw [if_pos hi', getLsbD_half _ _ (by omega) (by omega) hi']
          grind
        case neg =>
          rw [if_neg hi', getLsbD_half _ _ (by omega) (by omega) (by omega)]
          grind

end

@[simp]
theorem State.getElem_lanes (s : State) (i : Fin 25) : s.lanes[i] = join s.lo[i] s.hi[i] := by
  simp [lanes]

theorem lanes_ext {a b : Lanes} {k : Fin 5 → Fin 5 → Fin 25} (hk : ∀ i, ∃ x y, k x y = i)
    (h : ∀ x y, a[k x y] = b[k x y]) : a = b := by
  have hab (i : Fin 25) : a[i] = b[i] := by
    obtain ⟨x, y, rfl⟩ := hk i
    exact h x y
  exact Vector.ext fun i hlt => hab ⟨i, hlt⟩

theorem exists_index : ∀ i, ∃ x y, index x y = i := by
  decide

section

variable {f : Fin 5 × Fin 5 → U32 → U32} (a : Vector U32 25) (x y : Fin 5)

theorem getElem_columns : (overwrite columns (fun p => lane p.1 p.2) f a)[index x y] = f (x, y) a[index x y] := by
  have hm : ∀ x y, (x, y) ∈ columns := by decide
  exact getElem_overwrite (by decide) (hm x y) a

theorem getElem_rows : (overwrite rows (fun p => lane p.1 p.2) f a)[index x y] = f (x, y) a[index x y] := by
  have hm : ∀ x y, (x, y) ∈ rows := by decide
  exact getElem_overwrite (by decide) (hm x y) a

end

section

variable (s t : State)

theorem lane_eq : lane = index :=
  rfl

theorem getElem_bc (half : Vector U32 25) : (bc half)[x] = half[index x 0] ^^^ half[index x 1] ^^^
    half[index x 2] ^^^ half[index x 3] ^^^ half[index x 4] := by
  rw [bc, Fin.getElem_fin, Vector.getElem_ofFn]
  rfl

theorem lanes_theta : (theta s).lanes = VerifierRs.theta s.lanes := by
  apply lanes_ext exists_index
  intro x y
  have hr (lo hi : U32) : (join lo hi).rotateLeft 1 = join (lo <<< 1 ||| hi >>> 31) (hi <<< 1 ||| lo >>> 31) :=
    join_rotate lo hi (by decide)
  rw [VerifierRs.theta, VerifierRs.getElem_update VerifierRs.nodup_index]
  have hf (g : Fin 5 → U64) : (Vector.ofFn g)[x] = g x := by simp
  simp only [State.getElem_lanes, theta, getElem_columns, d, getElem_bc, Vector.get_ofFn, hf, join_xor, hr]

theorem lanes_chi : (chi s t).lanes = VerifierRs.chi s.lanes t.lanes := by
  apply lanes_ext exists_index
  intro x y
  rw [VerifierRs.chi, VerifierRs.getElem_update VerifierRs.nodup_index]
  simp only [State.getElem_lanes, chi, getElem_rows, row]
  simp only [lane_eq, join_xor, join_and, join_not]

theorem lanes_rhoPi : (rhoPi s).lanes = VerifierRs.rhoPi s.lanes := by
  have hr : ∀ x y, RHO[index x y] = ROTATION[x][y] ∧ RHO[index x y] < 64 ∧
      PI.get (index x y) = index y (2 * x + 3 * y) := by decide
  have hk : (VerifierRs.positions.map fun p => index p.2 (2 * p.1 + 3 * p.2)).Nodup := by decide
  have he : ∀ i, ∃ x y, index y (2 * x + 3 * y) = i := by decide
  apply lanes_ext he
  intro x y
  have hp {f : Fin 25 → U32 → U32} (a : Vector U32 25) :
      (overwrite (List.finRange 25) (PI.get ·) f a)[index y (2 * x + 3 * y)] =
        f (index x y) a[index y (2 * x + 3 * y)] := by
    have h : (overwrite (List.finRange 25) (PI.get ·) f a)[PI.get <| index x y] = f (index x y) a[PI.get <| index x y] :=
      getElem_overwrite (by decide) (List.mem_finRange <| index x y) a
    simpa only [(hr x y).2.2] using h
  have hu := VerifierRs.getElem_update (k := fun x y => index y (2 * x + 3 * y)) hk (.replicate 25 0) x y
    (f := fun x y _ => s.lanes[index x y].rotateLeft ROTATION[x][y])
  rw [VerifierRs.rhoPi, hu]
  simp only [State.getElem_lanes, rhoPi, hp, ←(hr x y).1, join_rotate _ _ (hr x y).2.1]

theorem lanes_iota (rcLo rcHi : U32) : (iota s rcLo rcHi).lanes = VerifierRs.iota s.lanes (join rcLo rcHi) := by
  apply Vector.ext
  intro i hi
  simp only [iota, VerifierRs.iota, State.lanes, Vector.getElem_ofFn, Vector.getElem_set]
  split_ifs with h
  case pos => simp [h, join_xor]
  case neg => simp [h]

theorem lanes_keccakF : (keccakF s).lanes = VerifierRs.keccakF1600 s.lanes := by
  have hc : ROUND_CONSTANTS = (RC_LO.zip RC_HI).map fun rc => join rc.1 rc.2 := by decide
  rw [keccakF, VerifierRs.keccakF1600, hc]
  induction RC_LO.zip RC_HI generalizing s
  case nil => rfl
  case cons rc _ ih =>
    rw [List.foldl_cons, ih, List.map_cons, List.foldl_cons, lanes_iota, lanes_chi, lanes_rhoPi, lanes_theta]

-- The bits of a number which is spelled by bytes, the least significant one first.
theorem getLsbD_shift (byte : UInt8) (hq : 8 * q + 8 ≤ n) (h : r < 8) :
    (byte.toBitVec.setWidth n <<< (8 * j)).getLsbD (8 * q + r) = (decide (q = j) && byte.toBitVec.getLsbD r) := by
  rw [BitVec.getLsbD_shiftLeft, BitVec.getLsbD_setWidth]
  rcases Nat.lt_trichotomy q j with hj | rfl | hj
  · have : 8 * q + r < 8 * j := by omega
    simp [this, hj.ne]
  · have h₁ : 8 * q + r < n := by omega
    have h₂ : r < n := by omega
    simp [h₁, h₂]
  · have : byte.toBitVec.getLsbD (8 * q + r - 8 * j) = false := BitVec.getLsbD_of_ge _ _ <| by omega
    simp [this, hj.ne']

theorem getLsbD_word (lane : Bytes) (hq : q < 8) (h : r < 8) :
    (VerifierRs.word lane).getLsbD (8 * q + r) = (lane.getD q 0).toBitVec.getLsbD r := by
  induction lane using List.reverseRecOn
  case nil => simp [VerifierRs.word]
  case append_singleton lane byte ih =>
    have hw : VerifierRs.word (lane ++ [byte]) =
        VerifierRs.word lane ||| byte.toBitVec.setWidth 64 <<< (8 * lane.length) := by
      simp [VerifierRs.word, List.zipIdx_append]
    rw [hw, BitVec.getLsbD_or, ih, getLsbD_shift byte (by omega) h]
    rcases Nat.lt_trichotomy q lane.length with hl | rfl | hl
    · simp [List.getElem?_append_left hl, hl.ne]
    · simp
    · have : lane.length + 1 ≤ q := hl
      simp [List.getElem?_eq_none hl.le, hl.ne', List.getElem?_append_right hl.le, show q - lane.length ≠ 0 by omega]

-- The halves of a lane, one after the other, are the bytes of the lane.
theorem join_half (msg : Bytes) (b : ℕ) :
    join (half msg b) (half msg (b + 4)) = VerifierRs.word ((List.range 8).map fun j => msg.getD (b + j) 0) := by
  have hh (b : ℕ) {q r} (hq : q < 4) (h : r < 8) :
      (half msg b).getLsbD (8 * q + r) = (msg.getD (b + q) 0).toBitVec.getLsbD r := by
    have := fun byte j => getLsbD_shift byte (n := 32) (q := q) (j := j) (by omega) h
    have h₀ := fun byte => this byte 0
    have h₁ := fun byte => this byte 1
    have h₂ := fun byte => this byte 2
    have h₃ := fun byte => this byte 3
    simp only [Nat.mul_zero, Nat.mul_one, BitVec.shiftLeft_zero, Nat.reduceMul] at h₀ h₁ h₂ h₃
    simp only [half, BitVec.getLsbD_or, h₀, h₁, h₂, h₃]
    interval_cases q <;> simp
  apply BitVec.eq_of_getLsbD_eq
  intro i hi
  obtain ⟨q, r, rfl, hr⟩ : ∃ q r, i = 8 * q + r ∧ r < 8 := ⟨i / 8, i % 8, by omega, by omega⟩
  rw [getLsbD_join, getLsbD_word _ (by omega) hr, List.getD_eq_getElem?_getD, List.getElem?_map,
    List.getElem?_range (by omega), Option.map_some, Option.getD_some]
  split_ifs with hq
  case pos => exact hh b (by omega) hr
  case neg =>
    have hi : 8 * q + r - 32 = 8 * (q - 4) + r := by omega
    have hb : b + 4 + (q - 4) = b + q := by omega
    rw [hi, hh _ (by omega) hr, hb]

theorem take_drop_eq {msg : Bytes} (h : b + n ≤ msg.length) :
    (msg.drop b).take n = (List.range n).map fun j => msg.getD (b + j) 0 := by
  apply List.ext_getElem
  · simp
    omega
  · intro i h₁ h₂
    have hi : i < n := by simpa using h₂
    have : b + i < msg.length := by omega
    simp [this]

theorem getElem_block (f : Fin 17 → U32 → U32) (a : Vector U32 25) (i : Fin 25) :
    (overwrite (List.finRange 17) (Fin.castLE (by decide)) f a)[i] =
      if h : i.val < 17 then f ⟨i, h⟩ a[i] else a[i] := by
  split_ifs with h
  case pos => exact getElem_overwrite (List.nodup_finRange 17 |>.map <| Fin.castLE_injective _) (List.mem_finRange ⟨i, h⟩) a
  case neg =>
    refine getElem_overwrite_ne (fun hm => h ?_) a
    obtain ⟨j, -, rfl⟩ := List.mem_map.mp hm
    exact j.isLt

theorem lanes_absorb {msg : Bytes} (h : off + RATE ≤ msg.length) :
    (absorb msg s off).lanes = VerifierRs.absorb s.lanes ((msg.drop off).take RATE) := by
  have hl : ((msg.drop off).take RATE).length = RATE := by
    rw [List.length_take, List.length_drop]
    omega
  have hr : RATE = 136 := rfl
  rw [absorb, VerifierRs.absorb, lanes_keccakF]
  refine congrArg VerifierRs.keccakF1600 ?_
  apply lanes_ext (k := index) exists_index
  intro x y
  rw [VerifierRs.getElem_foldl_xor, State.getElem_lanes, VerifierRs.chunks_eq (by decide) (by rw [hl]; decide), hl]
  simp only [getElem_block, Nat.zero_le, if_true, Nat.sub_zero, State.getElem_lanes]
  by_cases hi : (index x y).val < 17
  case pos =>
    have hc : (((msg.drop off).take RATE).drop (index x y * 8)).take 8 =
        (List.range 8).map fun j => msg.getD (off + 8 * (index x y) + j) 0 := by
      rw [←take_drop_eq (by omega), List.drop_take, List.drop_drop, List.take_take]
      congr 1
      · omega
      · rw [Nat.mul_comm]
    rw [dif_pos hi, dif_pos hi, List.getElem?_map, List.getElem?_range (by simpa [hr] using hi), Option.map_some,
      Option.map_some, Option.getD_some, hc, ←join_half, join_xor]
  case neg =>
    have : (List.range (RATE / 8))[(index x y).val]? = none := List.getElem?_eq_none <| by simpa [hr] using hi
    rw [dif_neg hi, dif_neg hi, List.getElem?_map, this]
    simp

theorem bytesOf_append (lo hi : U32) : bytesOf lo ++ bytesOf hi =
    (List.range 8).map fun j => .ofBitVec <| (join lo hi >>> (8 * j)).setWidth 8 := by
  have hb (v : U32) {j k} (hj : ∀ i < 8, (join lo hi).getLsbD (8 * j + i) = v.getLsbD (k + i)) :
      UInt8.ofBitVec ((join lo hi >>> (8 * j)).setWidth 8) = .ofBitVec ((v >>> k).setWidth 8) := by
    refine congrArg UInt8.ofBitVec <| BitVec.eq_of_getLsbD_eq fun i hi => ?_
    simp [hj i hi, hi]
  have hl {j} (h : j < 4) : UInt8.ofBitVec ((join lo hi >>> (8 * j)).setWidth 8) =
      .ofBitVec ((lo >>> (8 * j)).setWidth 8) :=
    hb lo fun i hi => by rw [getLsbD_join, if_pos (by omega)]
  have hh {j} (h : j < 4) : UInt8.ofBitVec ((join lo hi >>> (8 * (j + 4))).setWidth 8) =
      .ofBitVec ((hi >>> (8 * j)).setWidth 8) :=
    hb hi fun i hi => by rw [getLsbD_join, if_neg (by omega)]; congr 1; omega
  have hs : (List.range 8).map (fun j => UInt8.ofBitVec <| (join lo hi >>> (8 * j)).setWidth 8) =
      (List.range 4).map (fun j => UInt8.ofBitVec <| (join lo hi >>> (8 * j)).setWidth 8) ++
      (List.range 4).map fun j => UInt8.ofBitVec <| (join lo hi >>> (8 * (j + 4))).setWidth 8 := rfl
  rw [hs, List.map_congr_left fun j hj => hl <| List.mem_range.mp hj, List.map_congr_left fun j hj => hh <| List.mem_range.mp hj]
  rfl

theorem squeeze_eq : squeeze s = VerifierRs.squeeze s.lanes := by
  have h : VerifierRs.squeeze s.lanes = [join s.lo[0] s.hi[0], join s.lo[1] s.hi[1], join s.lo[2] s.hi[2],
      join s.lo[3] s.hi[3]].flatMap fun v => (List.range 8).map fun j => .ofBitVec <| (v >>> (8 * j)).setWidth 8 := by
    simp [VerifierRs.squeeze, State.lanes]
  rw [h]
  simp only [List.flatMap_cons, ←bytesOf_append]
  rfl

end

theorem modify_congr {f g : α → α} {l : List α} (h : ∀ a, l[n]? = some a → f a = g a) :
    l.modify n f = l.modify n g := by
  apply List.ext_getElem?
  intro i
  rw [List.getElem?_modify, List.getElem?_modify]
  split_ifs with hi
  case pos =>
    subst hi
    cases hl : l[n]?
    case none => rfl
    case some a => simp [h a hl]
  case neg => rfl

-- The last byte before its high bit is set is `0x00` or `0x01`.
theorem pad_eq (bytes : Bytes) : pad bytes = VerifierRs.pad bytes := by
  obtain ⟨m, hm⟩ : ∃ m, RATE - bytes.length % RATE = m + 1 :=
    Nat.exists_eq_add_one.mpr <| Nat.sub_pos_of_lt <| Nat.mod_lt _ (by decide)
  have hr : (VerifierRs.RATE - (bytes.length + 1) % VerifierRs.RATE) % VerifierRs.RATE = m := by
    simp only [RATE, VerifierRs.RATE] at hm ⊢
    omega
  have hs : (bytes ++ List.replicate (m + 1) 0x00).set bytes.length 0x01 = bytes ++ 0x01 :: List.replicate m 0x00 := by
    simp [List.set_append_right, List.replicate_succ]
  have hl : bytes.length + (m + 1) - 1 = bytes.length + m := by omega
  simp only [pad, VerifierRs.pad, hm, hs, hl, hr, List.length_append, List.length_singleton, List.append_assoc,
    List.singleton_append]
  have hl' : bytes.length + (0x01 :: List.replicate m (0x00 : UInt8)).length - 1 = bytes.length + m := by simp
  rw [hl']
  refine modify_congr fun byte hb => ?_
  cases m
  case zero =>
    obtain rfl : 1 = byte := by simpa using hb
    rfl
  case succ m =>
    obtain rfl : 0 = byte := by simpa [List.getElem?_append_right] using hb
    rfl

theorem lanes_foldl_absorb {msg : Bytes} {ks : List ℕ} (h : ∀ k ∈ ks, (k + 1) * RATE ≤ msg.length) (s : State) :
    ((ks.map (RATE * ·)).foldl (absorb msg) s).lanes =
      (ks.map fun k => (msg.drop <| k * RATE).take RATE).foldl VerifierRs.absorb s.lanes := by
  induction ks generalizing s
  case nil => rfl
  case cons k ks ih =>
    have ⟨hk, h⟩ := List.forall_mem_cons.mp h
    rw [Nat.add_one_mul, Nat.mul_comm] at hk
    rw [List.map_cons, List.foldl_cons, ih h, lanes_absorb _ hk, List.map_cons, List.foldl_cons, Nat.mul_comm]

-- The two implementations compute the same bytes.
theorem keccak256Bytes_eq (bytes : Bytes) : keccak256Bytes bytes = (VerifierRs.keccak256 bytes).val := by
  have hd : VerifierRs.RATE ∣ (VerifierRs.pad bytes).length := Keccak.rate_dvd_length_pad
  have hk : ∀ k ∈ List.range ((pad bytes).length / RATE), (k + 1) * RATE ≤ (pad bytes).length :=
    fun k hk => (Nat.mul_le_mul_right _ <| List.mem_range.mp hk).trans <| Nat.div_mul_le_self ..
  have hz : State.lanes ⟨.replicate 25 0, .replicate 25 0⟩ = .replicate 25 0 := by decide
  rw [keccak256Bytes, squeeze_eq, lanes_foldl_absorb hk, hz, VerifierRs.val_keccak256, VerifierRs.chunks_eq (by decide) hd,
    pad_eq]
  rfl

end Verifier.Keccak
