import Verifyhash.Library.CurveOrder
import Verifyhash.Library.Ecdsa
import Verifyhash.VerifierRs.Moduli

-- The curve of the signatures which the verifiers recover: `y² = x³ + 7` over the field with `p` elements.
namespace Curve

open ShortCurve

def p : ℕ := 0xfffffffffffffffffffffffffffffffffffffffffffffffffffffffefffffc2f

def n : ℕ := 0xfffffffffffffffffffffffffffffffebaaedce6af48a03bbfd25e8cd0364141

def gx : ℕ := 0x79be667ef9dcbbac55a06295ce870b07029bfcdb2dce28d959f2815b16f81798

def gy : ℕ := 0x483ada7726a3c4655da4fbfc0e1108a8fd17b448a68554199c47d08ffb10d4b8

theorem prime_p : p.Prime :=
  (by decide : FieldArith.P.val = p) ▸ FieldArith.prime_P

theorem prime_n : n.Prime :=
  (by decide : FieldArith.N.val = n) ▸ FieldArith.prime_N

instance : Fact p.Prime := ⟨prime_p⟩
instance : Fact n.Prime := ⟨prime_n⟩

-- The points of the curve.
abbrev Group := (curve (7 : ZMod p)).Point

theorem natCast_ne_zero {m : ℕ} (h : m % p ≠ 0) : (m : ZMod p) ≠ 0 := by
  rwa [ne_eq, ZMod.natCast_eq_zero_iff, Nat.dvd_iff_mod_eq_zero]

theorem exists_point {x y : ZMod p} (h : y ^ 2 = x ^ 3 + 7) : ∃ P : Group, coords P = some (x, y) :=
  exists_coords (by exact_mod_cast natCast_ne_zero (m := 2) (by decide))
    (by exact_mod_cast natCast_ne_zero (m := 3) (by decide))
    (by exact_mod_cast natCast_ne_zero (m := 7) (by decide)) h

theorem exists_generator : ∃ G : Group, coords G = some ((gx : ZMod p), (gy : ZMod p)) := by
  refine exists_point ?_
  have h : gy ^ 2 % p = (gx ^ 3 + 7) % p := by decide
  exact_mod_cast (ZMod.natCast_eq_natCast_iff' (gy ^ 2) (gx ^ 3 + 7) p).mpr h

noncomputable def G : Group :=
  exists_generator.choose

theorem coords_G : coords G = some ((gx : ZMod p), (gy : ZMod p)) :=
  exists_generator.choose_spec

theorem G_ne_zero : G ≠ 0 := by
  intro h
  have := coords_G
  rw [h, coords_zero] at this
  cases this

-- No point has `y = 0`.
theorem cube_ne (x : ZMod p) : x ^ 3 + 7 ≠ 0 := by
  refine cube_add_ne_zero (by decide) (by exact_mod_cast natCast_ne_zero (m := 7) (by decide)) ?_ x
  have hn : (-7 : ZMod p) = (p - 7 : ℕ) := by
    rw [Nat.cast_sub (by decide), ZMod.natCast_self, zero_sub, Nat.cast_ofNat]
  have hlt : (p - 1) / 3 < 2 ^ 256 := by decide
  rw [hn, ne_eq, Pratt.natCast_pow_eq_one prime_p.one_lt, ←Pratt.powMod_eq hlt]
  decide +kernel

-- The root of a square is a power of it.
theorem root_sq {x z : ZMod p} (h : z ^ 2 = x ^ 3 + 7) : ((x ^ 3 + 7) ^ ((p + 1) / 4)) ^ 2 = x ^ 3 + 7 := by
  have hz : z ≠ 0 := by
    rintro rfl
    exact cube_ne x <| by rw [←h, sq, mul_zero]
  have hp : 2 * ((p + 1) / 4) * 2 = p - 1 + 2 := by decide
  rw [←h, ←pow_mul, ←pow_mul, ←mul_assoc, hp, pow_add, ZMod.pow_card_sub_one_eq_one hz, one_mul]

-- The curve has `n` points.
theorem card_group : Nat.card Group = n := by
  have hc : closes p gx gy n 255 := by decide +kernel
  exact card_point_eq (by decide) prime_n (by decide) cube_ne G_ne_zero <| nsmul_eq_zero_of_closes coords_G hc

theorem order_nsmul (P : Group) : n • P = 0 := by
  have := finite_point (b := (7 : ZMod p)) (by decide)
  rw [←card_group]
  exact card_nsmul_eq_zero'

theorem mod_nsmul (k : ℕ) (P : Group) : (k % n) • P = k • P := by
  conv => rhs; rw [←Nat.mod_add_div k n, add_nsmul, mul_comm, mul_nsmul, order_nsmul, add_zero]

noncomputable instance : Module (ZMod n) Group :=
  AddCommGroup.zmodModule order_nsmul

-- The coordinates of a point as numbers below `p`.
def natCoords (P : Group) : Option (ℕ × ℕ) :=
  (coords P).map fun c => (c.fst.val, c.snd.val)

variable {P Q R : Group} {x y e r s id : ℕ}

@[simp]
theorem natCoords_zero : natCoords 0 = none :=
  rfl

@[simp]
theorem natCoords_eq_none : natCoords P = none ↔ P = 0 := by
  rw [natCoords, Option.map_eq_none_iff, coords_eq_none]

theorem natCoords_eq_some : natCoords P = some (x, y) ↔ x < p ∧ y < p ∧ coords P = some ((x : ZMod p), (y : ZMod p)) := by
  rw [natCoords, Option.map_eq_some_iff]
  constructor
  case mp =>
    rintro ⟨⟨x', y'⟩, hc, h⟩
    injection h with hx hy
    subst hx hy
    exact ⟨x'.val_lt, y'.val_lt, by rw [hc, ZMod.natCast_zmod_val, ZMod.natCast_zmod_val]⟩
  case mpr =>
    rintro ⟨hx, hy, hc⟩
    exact ⟨_, hc, by rw [ZMod.val_cast_of_lt hx, ZMod.val_cast_of_lt hy]⟩

theorem natCoords_inj (h : natCoords P = natCoords Q) : P = Q := by
  cases hQ : natCoords Q
  case none => rw [natCoords_eq_none.mp hQ, natCoords_eq_none.mp <| h.trans hQ]
  case some c => exact coords_inj <| (natCoords_eq_some.mp <| h.trans hQ).right.right.trans (natCoords_eq_some.mp hQ).right.right.symm

theorem natCoords_some : natCoords P = some (x, y) → x < p ∧ y < p ∧ y ^ 2 % p = (x ^ 3 + 7) % p := by
  intro h
  obtain ⟨hx, hy, hc⟩ := natCoords_eq_some.mp h
  refine ⟨hx, hy, (ZMod.natCast_eq_natCast_iff' _ _ p).mp ?_⟩
  push_cast
  exact equation_of_coords hc

-- Every solution of the equation is a point.
theorem exists_natCoords (hx : x < p) (hy : y < p) (h : y ^ 2 % p = (x ^ 3 + 7) % p) : ∃ P, natCoords P = some (x, y) := by
  have he := (ZMod.natCast_eq_natCast_iff' _ _ p).mpr h
  push_cast at he
  obtain ⟨P, hP⟩ := exists_point he
  exact ⟨P, natCoords_eq_some.mpr ⟨hx, hy, hP⟩⟩

theorem natCoords_G : natCoords G = some (gx, gy) :=
  natCoords_eq_some.mpr ⟨by decide, by decide, coords_G⟩

-- Every point is a multiple of the generator.
theorem exists_nsmul_eq (P : Group) : ∃ k < n, k • G = P := by
  have := finite_point (b := (7 : ZMod p)) (by decide)
  have hG : addOrderOf G = n := addOrderOf_eq_prime (order_nsmul G) G_ne_zero
  have hz : P ∈ AddSubgroup.zmultiples G := mem_zmultiples_of_prime_card card_group G_ne_zero
  obtain ⟨k, hk, h⟩ := Finset.mem_image.mp <| mem_zmultiples_iff_mem_range_addOrderOf.mp hz
  exact ⟨k, hG ▸ Finset.mem_range.mp hk, h⟩

theorem nsmul_inj {j k : ℕ} (hj : j < n) (hk : k < n) (h : j • G = k • G) : j = k := by
  have hG : addOrderOf G = n := addOrderOf_eq_prime (order_nsmul G) G_ne_zero
  exact nsmul_injOn_Iio_addOrderOf (hG ▸ hj) (hG ▸ hk) h

-- The opposite point has the same abscissa and the other parity.
theorem natCoords_neg (h : natCoords P = some (x, y)) : natCoords (-P) = some (x, p - y) ∧ 0 < y := by
  obtain ⟨hx, hy, hc⟩ := natCoords_eq_some.mp h
  have hpos : 0 < y := Nat.pos_of_ne_zero fun h₀ => cube_ne x <| by
    rw [←equation_of_coords hc, h₀, Nat.cast_zero, sq, mul_zero]
  refine ⟨natCoords_eq_some.mpr ⟨hx, by omega, ?_⟩, hpos⟩
  rw [Nat.cast_sub hy.le, ZMod.natCast_self, zero_sub]
  exact coords_neg hc

-- Two points with the same abscissa are told apart by the parity of the ordinate.
theorem eq_of_natCoords {y₁ y₂ : ℕ} (hP : natCoords P = some (x, y₁)) (hQ : natCoords Q = some (x, y₂)) (h : y₁ % 2 = y₂ % 2) :
    P = Q := by
  obtain ⟨-, hl₁, hc₁⟩ := natCoords_eq_some.mp hP
  obtain ⟨-, hl₂, hc₂⟩ := natCoords_eq_some.mp hQ
  exact eq_of_parity (by decide) hc₁ hc₂ <| by rw [ZMod.val_cast_of_lt hl₁, ZMod.val_cast_of_lt hl₂, h]

-- The abscissa of a point as a scalar.
def abscissa (P : Group) : Option (ZMod n) :=
  (natCoords P).map fun c => (c.fst : ZMod n)

-- The point of a signature, by the number which tells it apart from the others with the same abscissa.
def IsPoint (r id : ℕ) (R : Group) : Prop :=
  ∃ y, natCoords R = some (r + id / 2 * n, y) ∧ y % 2 = id % 2

theorem IsPoint.unique (hP : IsPoint r id P) (hQ : IsPoint r id Q) : P = Q := by
  obtain ⟨y₁, h₁, hy₁⟩ := hP
  obtain ⟨y₂, h₂, hy₂⟩ := hQ
  exact eq_of_natCoords h₁ h₂ <| hy₁.trans hy₂.symm

-- The key `Q` is recovered from the signature `(r, s)` of `e` with the number `id` of its point.
structure Recovers (e r s id : ℕ) (Q : Group) : Prop where
  r_pos  : 0 < r
  r_lt   : r < n
  s_pos  : 0 < s
  s_lt   : s < n
  id_le  : id ≤ 3
  key_ne : Q ≠ 0
  exists_point : ∃ R, IsPoint r id R ∧ Ecdsa.recovered G (e : ZMod n) (r : ZMod n) (s : ZMod n) R = Q

theorem Recovers.unique (hP : Recovers e r s id P) (hQ : Recovers e r s id Q) : P = Q := by
  obtain ⟨R₁, h₁, rfl⟩ := hP.exists_point
  obtain ⟨R₂, h₂, rfl⟩ := hQ.exists_point
  rw [h₁.unique h₂]

theorem IsPoint.neg {id' : ℕ} (h : IsPoint r id P) (hd : id' / 2 = id / 2) (hm : id' % 2 ≠ id % 2) : IsPoint r id' (-P) := by
  obtain ⟨y, hc, hy⟩ := h
  obtain ⟨hn, hpos⟩ := natCoords_neg hc
  have hlt := (natCoords_eq_some.mp hc).right.left
  have hodd : p % 2 = 1 := by decide
  exact ⟨p - y, by rw [hn, hd], by omega⟩

-- The key is also recovered from the opposite scalar and the opposite point.
theorem Recovers.neg {id' : ℕ} (h : Recovers e r s id Q) (hd : id' / 2 = id / 2) (hm : id' % 2 ≠ id % 2) :
    Recovers e r (n - s) id' Q := by
  obtain ⟨R, hR, hQ⟩ := h.exists_point
  have hs₀ := h.s_pos
  have hs := h.s_lt
  have hid := h.id_le
  refine ⟨h.r_pos, h.r_lt, by omega, by omega, by omega, h.key_ne, -R, hR.neg hd hm, ?_⟩
  rw [Nat.cast_sub hs.le, ZMod.natCast_self, zero_sub, Ecdsa.recovered_neg, hQ]

theorem scalar_ne_zero (h₀ : 0 < r) (h : r < n) : (r : ZMod n) ≠ 0 := by
  rw [ne_eq, ZMod.natCast_eq_zero_iff]
  exact Nat.not_dvd_of_pos_of_lt h₀ h

theorem abscissa_of_isPoint (h : IsPoint r id R) : abscissa R = some (r : ZMod n) := by
  obtain ⟨y, hc, -⟩ := h
  rw [abscissa, hc, Option.map_some, Nat.cast_add, Nat.cast_mul, ZMod.natCast_self, mul_zero, add_zero]

-- Every point with the abscissa has a number.
theorem exists_isPoint (hr : r < n) (h : abscissa R = some (r : ZMod n)) : ∃ id ≤ 3, IsPoint r id R := by
  obtain ⟨⟨x, y⟩, hc, hx⟩ := Option.map_eq_some_iff.mp h
  obtain ⟨hlt, -, -⟩ := natCoords_eq_some.mp hc
  have hp : p < 2 * n := by decide
  have hm : x % n = r := by
    have := (ZMod.natCast_eq_natCast_iff' x r n).mp hx
    rwa [Nat.mod_eq_of_lt hr] at this
  have hd := Nat.div_add_mod x n
  have hq : x / n < 2 := Nat.div_lt_of_lt_mul <| by omega
  have hy : y % 2 < 2 := Nat.mod_lt y (by omega)
  refine ⟨2 * (x / n) + y % 2, by omega, y, ?_, by omega⟩
  rw [hc, show (2 * (x / n) + y % 2) / 2 = x / n by omega, ←hm, add_comm, mul_comm, hd]

-- What is recovered with one of the four numbers are the keys which verify the signature.
theorem exists_recovers_iff (hr : r < n) (hs : s < n) :
    (∃ id, Recovers e r s id Q) ↔ Ecdsa.Verifies G abscissa (e : ZMod n) (r : ZMod n) (s : ZMod n) Q := by
  rw [Ecdsa.verifies_iff]
  constructor
  case mp =>
    rintro ⟨id, h⟩
    obtain ⟨R, hR, hQ⟩ := h.exists_point
    exact ⟨scalar_ne_zero h.r_pos hr, scalar_ne_zero h.s_pos hs, h.key_ne, R, abscissa_of_isPoint hR, hQ⟩
  case mpr =>
    rintro ⟨hr₀, hs₀, hQ, R, ha, h⟩
    obtain ⟨id, hle, hi⟩ := exists_isPoint hr ha
    have hpos {a : ℕ} (h : (a : ZMod n) ≠ 0) : 0 < a := by
      refine Nat.pos_of_ne_zero fun h₀ => h ?_
      rw [h₀, Nat.cast_zero]
    exact ⟨id, hpos hr₀, hr, hpos hs₀, hs, hle, hQ, R, hi, h⟩

-- The number of the point with the coordinates.
def idOf (x y : ℕ) : ℕ :=
  2 * (x / n) + y % 2

theorem isPoint_idOf (h : natCoords R = some (x, y)) : IsPoint (x % n) (idOf x y) R := by
  have hy : y % 2 < 2 := Nat.mod_lt y (by omega)
  refine ⟨y, ?_, by rw [idOf]; omega⟩
  rw [h, idOf, show (2 * (x / n) + y % 2) / 2 = x / n by omega, add_comm, mul_comm, Nat.div_add_mod]

-- The key of the secret `d` is recovered from what is signed with the nonce `k`.
theorem recovers_sign {d k : ℕ} (hd : d % n ≠ 0) (h : natCoords (k • G) = some (x, y)) (hr : 0 < x % n) (hs₀ : 0 < s) (hs : s < n)
    (he : s * k % n = (e + x % n * d) % n) : Recovers e (x % n) s (idOf x y) (d • G) := by
  have hx := (natCoords_eq_some.mp h).left
  have hp : p < 2 * n := by decide
  have hq : x / n < 2 := Nat.div_lt_of_lt_mul <| by omega
  have hy : y % 2 < 2 := Nat.mod_lt y (by omega)
  have hk : (k : ZMod n) ≠ 0 := by
    intro hk
    rw [←Nat.cast_smul_eq_nsmul (ZMod n), hk, zero_smul, natCoords_zero] at h
    cases h
  have hd₀ : (d : ZMod n) ≠ 0 := fun h₀ => hd <| Nat.mod_eq_zero_of_dvd <| (ZMod.natCast_eq_zero_iff d n).mp h₀
  have hr' := Nat.mod_lt x prime_n.pos
  have hse : (s : ZMod n) = (k : ZMod n)⁻¹ * (e + ((x % n : ℕ) : ZMod n) * d) := by
    have := (ZMod.natCast_eq_natCast_iff' _ _ n).mpr he
    push_cast at this ⊢
    rw [←this]
    field_simp
  have hQ : (d : ZMod n) • G ≠ 0 := smul_ne_zero hd₀ G_ne_zero
  rw [Nat.cast_smul_eq_nsmul] at hQ
  refine ⟨hr, hr', hs₀, hs, by rw [idOf]; omega, hQ, k • G, isPoint_idOf h, ?_⟩
  rw [hse, ←Nat.cast_smul_eq_nsmul (ZMod n) k, Ecdsa.recovered_sign hk <| scalar_ne_zero hr hr', Nat.cast_smul_eq_nsmul]

end Curve
