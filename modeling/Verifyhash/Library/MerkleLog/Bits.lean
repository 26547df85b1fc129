import Verifyhash.Library.MerkleLog.Proofs

-- The way up from a leaf can be read off the bits of its index: at the levels below the highest bit
-- in which the index differs from the index of the last leaf, each bit tells the side, and at the
-- levels above it each one bit stands for a left sibling.
namespace MerkleLog

-- The number of one bits.
def ones (x : ℕ) : ℕ :=
  if x = 0 then 0 else x % 2 + ones (x / 2)

def bitSide (i level : ℕ) : Side :=
  if i.testBit level then .right else .left

def bitSides (i start len : ℕ) : List Side :=
  (List.range' start len).map (bitSide i)

-- The number of levels below the highest bit in which `i` differs from `n - 1`.
def inner (i n : ℕ) : ℕ :=
  (i ^^^ (n - 1)).size

def border (i n : ℕ) : ℕ :=
  ones (i >>> inner i n)

theorem ones_zero : ones 0 = 0 := by
  rw [ones, if_pos rfl]

theorem ones_eq (x : ℕ) : ones x = x % 2 + ones (x / 2) := by
  by_cases h : x = 0
  case pos => simp [h, ones_zero]
  case neg => rw [ones, if_neg h]

theorem ones_two_pow_add (h : y < 2 ^ j) : ones (2 ^ j + y) = ones y + 1 := by
  induction j generalizing y
  case zero =>
    obtain rfl : y = 0 := by omega
    simp [ones_eq 1, ones_zero]
  case succ j ih =>
    rw [Nat.pow_succ] at *
    have hd : (2 ^ j * 2 + y) / 2 = 2 ^ j + y / 2 := by omega
    have hm : (2 ^ j * 2 + y) % 2 = y % 2 := by omega
    rw [ones_eq, hd, hm, ih (by omega), ones_eq y]
    omega

theorem ones_shiftRight (h : x < 2 ^ t) (hs : s ≤ t) :
    ones ((2 ^ t + x) >>> s) = ones (x >>> s) + 1 := by
  obtain ⟨d, rfl⟩ := Nat.exists_eq_add_of_le hs
  have hx : x >>> s < 2 ^ d := by
    rw [Nat.shiftRight_eq_div_pow]
    exact Nat.div_lt_of_lt_mul <| by rwa [←Nat.pow_add]
  rw [←ones_two_pow_add hx]
  simp only [Nat.shiftRight_eq_div_pow, Nat.pow_add]
  rw [Nat.mul_add_div (Nat.two_pow_pos s)]

theorem xor_two_pow_add (hx : x < 2 ^ t) (hy : y < 2 ^ t) :
    (2 ^ t + x) ^^^ (2 ^ t + y) = x ^^^ y := by
  apply Nat.eq_of_testBit_eq
  intro j
  rw [Nat.testBit_xor, Nat.testBit_xor]
  rcases lt_trichotomy j t with h | rfl | h
  · rw [Nat.testBit_two_pow_add_gt h, Nat.testBit_two_pow_add_gt h]
  · rw [Nat.testBit_two_pow_add_eq, Nat.testBit_two_pow_add_eq]
    simp
  · have h : 2 ^ (t + 1) ≤ 2 ^ j := Nat.pow_le_pow_right (by omega) (by omega)
    rw [Nat.pow_succ] at h
    rw [Nat.testBit_lt_two_pow (x := 2 ^ t + x), Nat.testBit_lt_two_pow (x := 2 ^ t + y),
      Nat.testBit_lt_two_pow (x := x), Nat.testBit_lt_two_pow (x := y)] <;> omega

theorem size_xor_two_pow_add (hx : x < 2 ^ t) (hy : y < 2 ^ t) :
    (x ^^^ (2 ^ t + y)).size = t + 1 := by
  apply le_antisymm
  · exact Nat.size_le.mpr <| Nat.xor_lt_two_pow (by omega) (by omega)
  · apply Nat.lt_size.mpr
    apply Nat.ge_two_pow_of_testBit
    rw [Nat.testBit_xor, Nat.testBit_two_pow_add_eq, Nat.testBit_lt_two_pow hx,
      Nat.testBit_lt_two_pow hy]
    rfl

theorem bitSides_cons : bitSides i s (len + 1) = bitSide i s :: bitSides i (s + 1) len :=
  rfl

theorem bitSides_succ : bitSides i s (len + 1) = bitSides i s len ++ [bitSide i (s + len)] := by
  simp [bitSides, List.range'_concat]

@[simp]
theorem length_bitSides : (bitSides i s len).length = len := by
  simp [bitSides]

theorem bitSides_two_pow_add (h : len ≤ t) : bitSides (2 ^ t + i) 0 len = bitSides i 0 len := by
  apply List.map_congr_left
  intro j hj
  rw [bitSide, bitSide, Nat.testBit_two_pow_add_gt (by simp at hj; omega)]

theorem bitSides_shiftRight : bitSides (i >>> z) 0 len = bitSides i z len := by
  rw [bitSides, bitSides, ←Nat.add_zero z, ←List.map_add_range', List.map_map]
  apply List.map_congr_left
  intro j _
  simp [bitSide]

theorem bitSides_drop : (bitSides i 0 len).drop z = bitSides i z (len - z) := by
  simp [bitSides, ←List.map_drop, List.drop_range']

-- In a complete tree every bit tells the side.
theorem sides_two_pow (h : i < 2 ^ t) : sides i (2 ^ t) = bitSides i 0 t := by
  induction t generalizing i
  case zero => simp [sides_of_lt_two, bitSides]
  case succ t ih =>
    have hp := Nat.two_pow_pos t
    have hs := Nat.pow_succ 2 t
    by_cases hi : i < 2 ^ t
    case pos =>
      rw [sides_left (by omega) (by rwa [split_two_pow]), split_two_pow, ih hi, bitSides_succ]
      simp [bitSide, Nat.testBit_lt_two_pow hi]
    case neg =>
      obtain ⟨x, rfl⟩ := Nat.exists_eq_add_of_le (show 2 ^ t ≤ i by omega)
      have hd : 2 ^ (t + 1) - 2 ^ t = 2 ^ t := by omega
      rw [sides_right (by omega) (by rw [split_two_pow]; omega), split_two_pow, hd,
        Nat.add_sub_cancel_left, ih (by omega), bitSides_succ, bitSides_two_pow_add le_rfl]
      simp [bitSide, Nat.testBit_lt_two_pow (show x < 2 ^ t by omega), Nat.testBit_two_pow_add_eq]

theorem sides_eq_bits (h : i < n) :
    sides i n = bitSides i 0 (inner i n) ++ .replicate (border i n) .right := by
  induction n using Nat.strong_induction_on generalizing i
  case h n ih =>
    by_cases h₂ : n < 2
    case pos =>
      obtain ⟨rfl, rfl⟩ : n = 1 ∧ i = 0 := by omega
      simp [sides_of_lt_two, bitSides, inner, border, ones_zero]
    case neg =>
      have hk := split_lt (n := n) (by omega)
      have hn := le_two_mul_split (n := n)
      obtain ⟨t, ht⟩ : ∃ t, split n = 2 ^ t := ⟨_, rfl⟩
      obtain ⟨y, hy⟩ := Nat.exists_eq_add_of_le (show 2 ^ t ≤ n - 1 by omega)
      by_cases hi : i < split n
      case pos =>
        have hl : inner i n = t + 1 := by
          rw [inner, hy]
          exact size_xor_two_pow_add (by omega) (by omega)
        have hb : border i n = 0 := by
          rw [border, hl, Nat.shiftRight_eq_div_pow, Nat.div_eq_of_lt, ones_zero]
          rw [Nat.pow_succ]
          omega
        rw [sides_left (by omega) hi, ht, sides_two_pow (by omega), hl, hb, bitSides_succ]
        simp [bitSide, Nat.testBit_lt_two_pow (ht ▸ hi)]
      case neg =>
        obtain ⟨x, rfl⟩ := Nat.exists_eq_add_of_le (show 2 ^ t ≤ i by omega)
        have hl : inner (2 ^ t + x) n = inner x (n - 2 ^ t) := by
          rw [inner, inner, hy, xor_two_pow_add (by omega) (by omega)]
          congr 2
          omega
        have ht' : inner x (n - 2 ^ t) ≤ t :=
          Nat.size_le.mpr <| Nat.xor_lt_two_pow (by omega) (by omega)
        have hb : border (2 ^ t + x) n = border x (n - 2 ^ t) + 1 := by
          rw [border, border, hl]
          exact ones_shiftRight (by omega) ht'
        rw [sides_right (by omega) (by omega), ht, Nat.add_sub_cancel_left,
          ih (n - 2 ^ t) (by omega) (by omega), hl, hb, bitSides_two_pow_add ht',
          List.replicate_succ', List.append_assoc]

theorem trailing_unique (h : 2 ^ z * (2 * q + 1) = 2 ^ t) : z = t := by
  have hd : 2 * q + 1 ∣ 2 ^ t := ⟨2 ^ z, by rw [←h, Nat.mul_comm]⟩
  obtain ⟨d, _, hd⟩ := (Nat.dvd_prime_pow Nat.prime_two).mp hd
  cases d
  case zero   => exact Nat.pow_right_injective le_rfl <| by simpa [show q = 0 by omega] using h
  case succ d => rw [Nat.pow_succ] at hd; omega

theorem trailing_lt (h₁ : 2 ^ t < 2 ^ z * (2 * q + 1)) (h₂ : 2 ^ z * (2 * q + 1) < 2 * 2 ^ t) :
    z < t := by
  by_contra hz
  obtain ⟨d, rfl⟩ := Nat.exists_eq_add_of_le (Nat.le_of_not_lt hz)
  rw [Nat.pow_add, Nat.mul_assoc] at h₁ h₂
  have h₁ : 1 < 2 ^ d * (2 * q + 1) := Nat.lt_of_mul_lt_mul_left (a := 2 ^ t) <| by simpa using h₁
  have h₂ : 2 ^ d * (2 * q + 1) < 2 := Nat.lt_of_mul_lt_mul_left (a := 2 ^ t) <| by omega
  omega

-- Clearing the highest bit of `m` keeps its trailing zeros.
theorem trailing_sub (hz : z < t) (h : 2 ^ t + m = 2 ^ z * (2 * q + 1)) :
    ∃ q', m = 2 ^ z * (2 * q' + 1) := by
  obtain ⟨d, rfl⟩ := Nat.exists_eq_add_of_lt hz
  have hp : 2 ^ (z + d + 1) = 2 ^ z * (2 * 2 ^ d) := by rw [Nat.pow_succ, Nat.pow_add]; ring
  have hq : 2 ^ z * (2 * 2 ^ d) ≤ 2 ^ z * (2 * q + 1) := by omega
  replace hq := Nat.le_of_mul_le_mul_left hq (by positivity)
  refine ⟨q - 2 ^ d, ?_⟩
  have : 2 * (q - 2 ^ d) + 1 = (2 * q + 1) - 2 * 2 ^ d := by omega
  rw [this, Nat.mul_sub, ←hp]
  omega

theorem trailing_le_inner (hz : m = 2 ^ z * (2 * q + 1)) (h : m < n) : z ≤ inner (m - 1) n := by
  by_contra hi
  have h₀ : 0 < m := by rw [hz]; positivity
  have hp := Nat.two_pow_pos z
  have hx : (m - 1) ^^^ (n - 1) < 2 ^ z := Nat.size_le.mp (by simp only [inner] at hi; omega)
  have hs : ((m - 1) ^^^ (n - 1)) >>> z = 0 := by
    rw [Nat.shiftRight_eq_div_pow, Nat.div_eq_of_lt hx]
  rw [Nat.shiftRight_xor_distrib, Nat.xor_eq_zero_iff, Nat.shiftRight_eq_div_pow,
    Nat.shiftRight_eq_div_pow] at hs
  have hn : 2 * q + 1 ≤ (n - 1) / 2 ^ z :=
    (Nat.le_div_iff_mul_le hp).mpr <| by rw [Nat.mul_comm, ←hz]; omega
  have hm : (m - 1) / 2 ^ z < 2 * q + 1 :=
    Nat.div_lt_of_lt_mul <| by rw [←hz]; omega
  omega

theorem shared_eq_drop (hz : m = 2 ^ z * (2 * q + 1)) (h : m < n) :
    z ≤ (sides (m - 1) n).length ∧ shared m n = (sides (m - 1) n).drop z := by
  induction n using Nat.strong_induction_on generalizing m q
  case h n ih =>
    have h₀ : 0 < m := by rw [hz]; positivity
    have hk := split_lt (n := n) (by omega)
    have hn := le_two_mul_split (n := n)
    obtain ⟨t, ht⟩ : ∃ t, split n = 2 ^ t := ⟨_, rfl⟩
    rw [ht] at hk hn
    rcases lt_trichotomy m (2 ^ t) with hm | rfl | hm
    · have ⟨hl, hd⟩ := ih _ hk hz hm
      rw [shared_left h (by omega) (by omega), sides_left (by omega) (by omega), ht, hd,
        List.drop_append_of_le_length hl]
      exact ⟨by simp; omega, rfl⟩
    · obtain rfl := trailing_unique hz.symm
      have hl : (sides (2 ^ z - 1) (2 ^ z)).length = z := by
        simp [sides_two_pow (show 2 ^ z - 1 < 2 ^ z by omega), bitSides]
      rw [shared_left h (by omega) (by omega), sides_left (by omega) (by omega), ht, shared_self,
        List.drop_left' hl]
      exact ⟨by simp [hl], rfl⟩
    · obtain ⟨m, rfl⟩ := Nat.exists_eq_add_of_le hm.le
      have ⟨q', hq⟩ := trailing_sub (trailing_lt (hz ▸ hm) (by omega)) hz
      have ⟨hl, hd⟩ := ih (n - 2 ^ t) (by omega) hq (by omega)
      have hs : 2 ^ t + m - 1 - 2 ^ t = m - 1 := by omega
      rw [shared_right h (by omega) (by omega), sides_right (by omega) (by omega), ht,
        Nat.add_sub_cancel_left, hs, hd, List.drop_append_of_le_length hl]
      exact ⟨by simp; omega, rfl⟩

theorem shared_eq_bits (hz : m = 2 ^ z * (2 * q + 1)) (h : m < n) :
    shared m n =
      bitSides ((m - 1) >>> z) 0 (inner (m - 1) n - z) ++ .replicate (border (m - 1) n) .right := by
  have hl := trailing_le_inner hz h
  rw [(shared_eq_drop hz h).right, sides_eq_bits (by omega), bitSides_shiftRight,
    List.drop_append_of_le_length (by simpa [bitSides]), bitSides_drop]

end MerkleLog
