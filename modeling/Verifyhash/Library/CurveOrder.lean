import Verifyhash.Library.Pratt
import Verifyhash.Library.ShortCurve

-- The order of the group of a curve over a prime field, from the order of one of its points.
namespace ShortCurve

section

variable {p : ℕ}

-- A point `(X / Z², Y / Z³)` by natural numbers below `p`.
structure Triple where
  X : ℕ
  Y : ℕ
  Z : ℕ

def Triple.double (p : ℕ) (A : Triple) : Triple :=
  let yy := A.Y * A.Y % p
  let s  := 4 * A.X * yy % p
  let m  := 3 * A.X * A.X % p
  let x  := (m * m + (p - s) + (p - s)) % p
  { X := x, Y := (m * (s + (p - x)) + (p - 8 * yy * yy % p)) % p, Z := 2 * A.Y * A.Z % p }

-- The sum with the point `(x, y)`.
def Triple.add (p : ℕ) (A : Triple) (x y : ℕ) : Triple :=
  let zz  := A.Z * A.Z % p
  let h   := (x * zz + (p - A.X % p)) % p
  let r   := (y * zz * A.Z + (p - A.Y % p)) % p
  let hh  := h * h % p
  let hhh := h * hh % p
  let v   := A.X * hh % p
  let x'  := (r * r + (p - hhh) + (p - v) + (p - v)) % p
  { X := x', Y := (r * (v + (p - x')) + (p - A.Y * hhh % p)) % p, Z := A.Z * h % p }

-- The multiples of a point by the bits of `k` below `i`.
def Triple.ladder (p x y k : ℕ) : (i : ℕ) → Triple → Triple
  | 0,     A => A
  | i + 1, A => ladder p x y k i <| if k.testBit i then (A.double p).add p x y else A.double p

variable [Fact p.Prime] {b : ZMod p} {P G : (curve b).Point} {A : Triple} {k x y : ℕ}

-- There is no point if the divisor is zero.
def Triple.Represents (A : Triple) (P : (curve b).Point) : Prop :=
  (A.Z : ZMod p) ≠ 0 → coords P = some ((A.X : ZMod p) / A.Z ^ 2, (A.Y : ZMod p) / A.Z ^ 3)

theorem natCast_mod_sub (a : ℕ) : ((p - a % p : ℕ) : ZMod p) = -(a : ZMod p) := by
  have := (Nat.mod_lt a (Fact.out : p.Prime).pos).le
  rw [Nat.cast_sub this, ZMod.natCast_self, ZMod.natCast_mod, zero_sub]

theorem Triple.Represents.double (h : A.Represents P) : (A.double p).Represents (P + P) := by
  intro hz
  simp only [Triple.double, natCast_mod_sub, Nat.cast_add, Nat.cast_mul, Nat.cast_ofNat, ZMod.natCast_mod] at hz ⊢
  have hZ : (A.Z : ZMod p) ≠ 0 := right_ne_zero_of_mul hz
  rw [coords_double (h hZ) (left_ne_zero_of_mul hz) hZ]
  congr 4 <;> ring

theorem Triple.Represents.add (h : A.Represents P) (hG : coords G = some ((x : ZMod p), (y : ZMod p))) :
    (A.add p x y).Represents (P + G) := by
  intro hz
  simp only [Triple.add, natCast_mod_sub, Nat.cast_add, Nat.cast_mul, ZMod.natCast_mod] at hz ⊢
  have hZ : (A.Z : ZMod p) ≠ 0 := left_ne_zero_of_mul hz
  have he : (x : ZMod p) * (A.Z * A.Z) + -A.X = x * A.Z ^ 2 - A.X := by ring
  rw [he] at hz ⊢
  rw [coords_add_affine (h hZ) hG (right_ne_zero_of_mul hz) hZ]
  congr 4 <;> ring

theorem Triple.Represents.ladder (hG : coords G = some ((x : ZMod p), (y : ZMod p))) {a : ℕ} (h : A.Represents (a • G)) :
    (Triple.ladder p x y k i A).Represents ((a * 2 ^ i + k % 2 ^ i) • G) := by
  induction i generalizing A a
  case zero => simpa [Triple.ladder, Nat.mod_one] using h
  case succ i ih =>
    have hd : (A.double p).Represents ((2 * a) • G) := by
      rw [two_mul, add_nsmul]
      exact h.double
    have hk := Nat.mod_pow_succ (x := k) (b := 2) (k := i)
    rw [Triple.ladder]
    split_ifs with hb
    case pos =>
      have hb : k / 2 ^ i % 2 = 1 := by rwa [Nat.testBit_eq_decide_div_mod_eq, decide_eq_true_eq] at hb
      have ha : ((A.double p).add p x y).Represents ((2 * a + 1) • G) := by
        rw [add_nsmul, one_nsmul]
        exact hd.add hG
      convert ih ha using 2
      rw [hk, hb]
      ring
    case neg =>
      have hb : k / 2 ^ i % 2 = 0 := by
        rw [Nat.testBit_eq_decide_div_mod_eq, decide_eq_true_eq] at hb
        omega
      convert ih hd using 2
      rw [hk, hb]
      ring

-- The multiple of the point `(x, y)` by `n - 1` is its inverse, where `n` has `i + 1` bits.
def closes (p x y n i : ℕ) : Bool :=
  let A := Triple.ladder p x y (n - 1) i ⟨x, y, 1⟩
  2 ^ i + (n - 1) % 2 ^ i + 1 = n ∧ A.Z % p ≠ 0 ∧ A.X % p = x * A.Z ^ 2 % p ∧ (A.Y + y * A.Z ^ 3) % p = 0

theorem nsmul_eq_zero_of_closes (hG : coords G = some ((x : ZMod p), (y : ZMod p))) (h : closes p x y n i) :
    n • G = 0 := by
  simp only [closes, decide_eq_true_eq] at h
  obtain ⟨hn, hz, hx, hy⟩ := h
  have hr : (⟨x, y, 1⟩ : Triple).Represents (1 • G) := fun _ => by simp [hG]
  have hr := hr.ladder hG (k := n - 1) (i := i)
  generalize Triple.ladder p x y (n - 1) i ⟨x, y, 1⟩ = A at hr hz hx hy
  have hz : (A.Z : ZMod p) ≠ 0 := by
    rwa [ne_eq, ZMod.natCast_eq_zero_iff, Nat.dvd_iff_mod_eq_zero]
  have hx : (A.X : ZMod p) = x * A.Z ^ 2 := by
    exact_mod_cast (ZMod.natCast_eq_natCast_iff' A.X (x * A.Z ^ 2) p).mpr hx
  have hy : (A.Y : ZMod p) + y * A.Z ^ 3 = 0 := by
    exact_mod_cast (ZMod.natCast_eq_zero_iff _ p).mpr <| Nat.dvd_of_mod_eq_zero hy
  have hc := hr hz
  rw [hx, eq_neg_of_add_eq_zero_left hy, mul_div_cancel_right₀ _ <| pow_ne_zero 2 hz, neg_div,
    mul_div_cancel_right₀ _ <| pow_ne_zero 3 hz, ←coords_neg hG] at hc
  rw [one_mul] at hc
  rw [←hn, add_nsmul, one_nsmul, coords_inj hc, neg_add_cancel]

end

section

variable {p : ℕ} [Fact p.Prime] {b : ZMod p}

-- The parity of `y` tells the two points with the same `x` apart.
theorem eq_of_parity {P Q : (curve b).Point} {x y₁ y₂ : ZMod p} (hp : p % 2 = 1) (hP : coords P = some (x, y₁))
    (hQ : coords Q = some (x, y₂)) (h : y₁.val % 2 = y₂.val % 2) : P = Q := by
  refine coords_inj ?_
  rw [hP, hQ]
  rcases eq_or_opposite hP hQ with he | he
  case inl => rw [he]
  case inr =>
    have hn : y₂ = -y₁ := eq_neg_of_add_eq_zero_right he
    by_cases h₀ : y₁ = 0
    case pos => rw [hn, h₀, neg_zero]
    case neg =>
      have : NeZero y₁ := ⟨h₀⟩
      have hv := ZMod.val_neg_of_ne_zero y₁
      have := y₁.val_lt
      rw [hn, hv] at h
      omega

def codeOf (P : (curve b).Point) : Option (ZMod p × Bool) :=
  (coords P).map fun c => (c.fst, decide (c.snd.val % 2 = 1))

theorem codeOf_injective (hp : p % 2 = 1) : Function.Injective (codeOf (b := b)) := by
  intro P Q h
  cases hP : coords P <;> cases hQ : coords Q <;> simp only [codeOf, hP, hQ, Option.map_none, Option.map_some] at h
  case none.none => rw [coords_eq_none.mp hP, coords_eq_none.mp hQ]
  case none.some => cases h
  case some.none => cases h
  case some.some c d =>
    obtain ⟨x, y₁⟩ := c
    obtain ⟨x', y₂⟩ := d
    simp only [Option.some.injEq, Prod.mk.injEq, decide_eq_decide] at h
    obtain ⟨rfl, hy⟩ := h
    exact eq_of_parity hp hP hQ (by omega)

theorem finite_point (hp : p % 2 = 1) : Finite (curve b).Point :=
  .of_injective _ <| codeOf_injective hp

theorem card_point_le (hp : p % 2 = 1) : Nat.card (curve b).Point ≤ 2 * p + 1 := by
  have hc : Nat.card (Option (ZMod p × Bool)) = 2 * p + 1 := by
    rw [Nat.card_eq_fintype_card, Fintype.card_option, Fintype.card_prod, ZMod.card, Fintype.card_bool, mul_comm]
  exact hc ▸ Nat.card_le_card_of_injective _ (codeOf_injective hp)

-- A point of order 2 has `y = 0`.
theorem odd_card_point (hp : p % 2 = 1) (hr : ∀ x : ZMod p, x ^ 3 + b ≠ 0) : ¬ 2 ∣ Nat.card (curve b).Point := by
  intro h
  have := finite_point (b := b) hp
  obtain ⟨P, hP⟩ := exists_prime_addOrderOf_dvd_card' 2 h
  have hn : P ≠ 0 := by
    rintro rfl
    simp at hP
  obtain ⟨⟨x, y⟩, hc⟩ := Option.ne_none_iff_exists'.mp <| mt coords_eq_none.mp hn
  have hs : P + P = 0 := by rw [←two_nsmul, ←hP, addOrderOf_nsmul_eq_zero]
  have hy : coords (-P) = coords P := by rw [←eq_neg_of_add_eq_zero_left hs]
  rw [coords_neg hc, hc] at hy
  have hy : -y = y := by simpa using hy
  have : Fact (2 < p) := ⟨by have := (Fact.out : p.Prime).two_le; omega⟩
  have hy : y = 0 := ZMod.neg_eq_self_iff y |>.mp hy |>.resolve_right fun h => by omega
  exact hr x <| by rw [←equation_of_coords hc, hy, sq, mul_zero]

-- The order of the group is a prime `n`, if it is the order of a point and more than a third of what the order can be.
theorem card_point_eq {n : ℕ} {G : (curve b).Point} (hp : p % 2 = 1) (hn : n.Prime) (hl : 2 * p + 1 < 3 * n)
    (hr : ∀ x : ZMod p, x ^ 3 + b ≠ 0) (hG : G ≠ 0) (h : n • G = 0) : Nat.card (curve b).Point = n := by
  have := finite_point (b := b) hp
  have hf : Fact n.Prime := ⟨hn⟩
  have hd : n ∣ Nat.card (curve b).Point := addOrderOf_eq_prime h hG ▸ addOrderOf_dvd_natCard G
  obtain ⟨c, hc⟩ := hd
  have hlt : c < 3 := by
    have := card_point_le (b := b) hp
    by_contra h₃
    have := Nat.mul_le_mul_left n (not_lt.mp h₃)
    omega
  have hodd := odd_card_point (b := b) hp hr
  have hpos := Nat.card_pos (α := (curve b).Point)
  interval_cases c
  case «0» => omega
  case «1» => rw [hc, mul_one]
  case «2» => exact absurd (hc ▸ dvd_mul_left 2 n) hodd

-- Without a cube root of `-b`, no `y` is zero.
theorem cube_add_ne_zero (hp : p % 3 = 1) (h₀ : b ≠ 0) (hb : (-b) ^ ((p - 1) / 3) ≠ 1) (x : ZMod p) : x ^ 3 + b ≠ 0 := by
  intro h
  have hx : x ^ 3 = -b := eq_neg_of_add_eq_zero_left h
  have hx₀ : x ≠ 0 := by
    rintro rfl
    exact h₀ <| by simpa using hx
  refine hb ?_
  rw [←hx, ←pow_mul, Nat.mul_div_cancel' (by omega), ZMod.pow_card_sub_one_eq_one hx₀]

end

end ShortCurve
