import Mathlib

-- The group of a curve `y² = x³ + b`, by the coordinates of its points.
namespace ShortCurve

variable {F : Type*} [Field F]

def curve (b : F) : WeierstrassCurve.Affine F where
  a₁ := 0
  a₂ := 0
  a₃ := 0
  a₄ := 0
  a₆ := b

variable {b x y x₁ y₁ x₂ y₂ m : F}

-- The coordinates of a point which is not at infinity.
def coords : (curve b).Point → Option (F × F)
  | .zero       => none
  | .some x y _ => some (x, y)

variable {P Q : (curve b).Point}

@[simp]
theorem coords_zero : coords (0 : (curve b).Point) = none :=
  rfl

@[simp]
theorem coords_eq_none : coords P = none ↔ P = 0 := by
  cases P
  case zero => exact iff_of_true rfl rfl
  case some => exact iff_of_false nofun nofun

theorem coords_inj (h : coords P = coords Q) : P = Q := by
  cases P <;> cases Q
  case zero.zero => rfl
  case zero.some => cases h
  case some.zero => cases h
  case some.some =>
    injection h with h
    injection h with hx hy
    subst hx hy
    rfl

theorem eq_some_of_coords (h : coords P = some (x, y)) : ∃ hs, P = .some x y hs := by
  cases P
  case zero => cases h
  case some hs =>
    injection h with h
    injection h with hx hy
    subst hx hy
    exact ⟨hs, rfl⟩

theorem equation_iff : (curve b).Equation x y ↔ y ^ 2 = x ^ 3 + b := by
  simp [WeierstrassCurve.Affine.equation_iff, curve]

theorem equation_of_coords (h : coords P = some (x, y)) : y ^ 2 = x ^ 3 + b := by
  obtain ⟨hs, -⟩ := eq_some_of_coords h
  exact equation_iff.mp hs.left

theorem nonsingular_iff (h₂ : (2 : F) ≠ 0) (h₃ : (3 : F) ≠ 0) (hb : b ≠ 0) :
    (curve b).Nonsingular x y ↔ y ^ 2 = x ^ 3 + b := by
  have hd : (curve b).Δ = -(2 ^ 4 * 3 ^ 3 * b ^ 2) := by
    simp only [WeierstrassCurve.Δ, WeierstrassCurve.b₂, WeierstrassCurve.b₄, WeierstrassCurve.b₆, WeierstrassCurve.b₈,
      curve]
    ring
  have hd : (curve b).Δ ≠ 0 := by
    rw [hd]
    simp [h₂, h₃, hb]
  rw [←WeierstrassCurve.Affine.equation_iff_nonsingular_of_Δ_ne_zero hd, equation_iff]

-- Every solution of the equation is a point.
theorem exists_coords (h₂ : (2 : F) ≠ 0) (h₃ : (3 : F) ≠ 0) (hb : b ≠ 0) (h : y ^ 2 = x ^ 3 + b) :
    ∃ P : (curve b).Point, coords P = some (x, y) :=
  ⟨.some x y <| (nonsingular_iff h₂ h₃ hb).mpr h, rfl⟩

theorem coords_neg (h : coords P = some (x, y)) : coords (-P) = some (x, -y) := by
  obtain ⟨hs, rfl⟩ := eq_some_of_coords h
  rw [WeierstrassCurve.Affine.Point.neg_some, coords]
  simp [WeierstrassCurve.Affine.negY, curve]

-- The points with the same `x` are a point and its inverse.
theorem eq_or_opposite (hP : coords P = some (x, y₁)) (hQ : coords Q = some (x, y₂)) : y₁ = y₂ ∨ y₁ + y₂ = 0 := by
  have h : y₁ ^ 2 = y₂ ^ 2 := (equation_of_coords hP).trans (equation_of_coords hQ).symm
  exact (sq_eq_sq_iff_eq_or_eq_neg.mp h).imp_right fun h => by rw [h, neg_add_cancel]

section

variable [DecidableEq F]

theorem add_opposite (hP : coords P = some (x, y₁)) (hQ : coords Q = some (x, y₂)) (h : y₁ + y₂ = 0) : P + Q = 0 := by
  have hn : coords (-Q) = coords P := by rw [coords_neg hQ, hP, eq_neg_of_add_eq_zero_left h]
  rw [←coords_inj hn, neg_add_cancel]

-- The sum of two points on a line of slope `m`.
theorem coords_add_chord (hP : coords P = some (x₁, y₁)) (hQ : coords Q = some (x₂, y₂)) (hx : x₁ ≠ x₂)
    (hm : m * (x₂ - x₁) = y₂ - y₁) :
    coords (P + Q) = some (m ^ 2 - x₁ - x₂, m * (x₁ - (m ^ 2 - x₁ - x₂)) - y₁) := by
  obtain ⟨hs₁, rfl⟩ := eq_some_of_coords hP
  obtain ⟨hs₂, rfl⟩ := eq_some_of_coords hQ
  have hs : (curve b).slope x₁ x₂ y₁ y₂ = m := by
    rw [WeierstrassCurve.Affine.slope_of_X_ne hx, div_eq_iff <| sub_ne_zero.mpr hx]
    linear_combination hm
  rw [WeierstrassCurve.Affine.Point.add_of_X_ne hx, coords, hs]
  simp only [WeierstrassCurve.Affine.addX, WeierstrassCurve.Affine.addY, WeierstrassCurve.Affine.negAddY,
    WeierstrassCurve.Affine.negY, curve, Option.some.injEq, Prod.mk.injEq]
  constructor <;> ring

-- The double of a point whose tangent has the slope `m`.
theorem coords_add_tangent (hP : coords P = some (x, y)) (hy : 2 * y ≠ 0) (hm : m * (2 * y) = 3 * x ^ 2) :
    coords (P + P) = some (m ^ 2 - x - x, m * (x - (m ^ 2 - x - x)) - y) := by
  obtain ⟨hs, rfl⟩ := eq_some_of_coords hP
  have hn : y ≠ (curve b).negY x y := by
    intro h
    simp only [WeierstrassCurve.Affine.negY, curve] at h
    exact hy <| by linear_combination h
  have hs : (curve b).slope x x y y = m := by
    rw [WeierstrassCurve.Affine.slope_of_Y_ne rfl hn, div_eq_iff <| sub_ne_zero.mpr hn]
    simp only [WeierstrassCurve.Affine.negY, curve]
    linear_combination -hm
  rw [WeierstrassCurve.Affine.Point.add_self_of_Y_ne hn, coords, hs]
  simp only [WeierstrassCurve.Affine.addX, WeierstrassCurve.Affine.addY, WeierstrassCurve.Affine.negAddY,
    WeierstrassCurve.Affine.negY, curve, Option.some.injEq, Prod.mk.injEq]
  constructor <;> ring

-- What the slope of the line through two points is divided by, where the line is the tangent if they are the same.
def run (x₁ y₁ x₂ y₂ : F) : F :=
  if x₁ = x₂ ∧ y₁ = y₂ then 2 * y₁ else x₂ - x₁

def rise (x₁ y₁ x₂ y₂ : F) : F :=
  if x₁ = x₂ ∧ y₁ = y₂ then 3 * x₁ ^ 2 else y₂ - y₁

-- Two points which are not opposite have a slope.
theorem run_ne_zero (hP : coords P = some (x₁, y₁)) (hQ : coords Q = some (x₂, y₂)) (h : ¬ (x₁ = x₂ ∧ y₁ + y₂ = 0)) :
    run x₁ y₁ x₂ y₂ ≠ 0 := by
  rw [run]
  split_ifs with hs
  case pos =>
    obtain ⟨rfl, rfl⟩ := hs
    exact fun h₀ => h ⟨rfl, two_mul y₁ ▸ h₀⟩
  case neg =>
    refine sub_ne_zero.mpr fun hx => ?_
    subst hx
    rcases eq_or_opposite hP hQ with he | he
    case inl => exact hs ⟨rfl, he⟩
    case inr => exact h ⟨rfl, he⟩

theorem coords_add (hP : coords P = some (x₁, y₁)) (hQ : coords Q = some (x₂, y₂)) (h : ¬ (x₁ = x₂ ∧ y₁ + y₂ = 0))
    (hm : m * run x₁ y₁ x₂ y₂ = rise x₁ y₁ x₂ y₂) :
    coords (P + Q) = some (m ^ 2 - x₁ - x₂, m * (x₁ - (m ^ 2 - x₁ - x₂)) - y₁) := by
  have hr := run_ne_zero hP hQ h
  rw [run] at hr hm
  rw [rise] at hm
  split_ifs at hr hm with hs
  case pos =>
    obtain ⟨rfl, rfl⟩ := hs
    obtain rfl := coords_inj <| hP.trans hQ.symm
    exact coords_add_tangent hP hr hm
  case neg => exact coords_add_chord hP hQ (fun hx => hr <| sub_eq_zero.mpr hx.symm) hm

-- The double of the point `(X / Z², Y / Z³)`, without a division.
theorem coords_double {X Y Z : F} (h : coords P = some (X / Z ^ 2, Y / Z ^ 3)) (hY : 2 * Y ≠ 0) (hZ : Z ≠ 0) :
    let s := 4 * X * Y ^ 2
    let x := (3 * X ^ 2) ^ 2 - s - s
    let z := 2 * Y * Z
    coords (P + P) = some (x / z ^ 2, (3 * X ^ 2 * (s - x) - 8 * Y ^ 4) / z ^ 3) := by
  have h₂ : (2 : F) ≠ 0 := left_ne_zero_of_mul hY
  have hY' : Y ≠ 0 := right_ne_zero_of_mul hY
  have hy : 2 * (Y / Z ^ 3) ≠ 0 := by
    rw [←mul_div_assoc]
    exact div_ne_zero hY <| pow_ne_zero 3 hZ
  rw [coords_add_tangent (m := 3 * X ^ 2 / (2 * Y * Z)) h hy (by field_simp)]
  simp only [Option.some.injEq, Prod.mk.injEq]
  constructor
  case left =>
    field_simp
    ring
  case right =>
    field_simp
    ring

-- The sum of the point `(X / Z², Y / Z³)` and the point `(x, y)`, without a division.
theorem coords_add_affine {X Y Z : F} (h : coords P = some (X / Z ^ 2, Y / Z ^ 3)) (hQ : coords Q = some (x, y))
    (hh : x * Z ^ 2 - X ≠ 0) (hZ : Z ≠ 0) :
    let h := x * Z ^ 2 - X
    let r := y * Z ^ 3 - Y
    let x' := r ^ 2 - h ^ 3 - X * h ^ 2 - X * h ^ 2
    let z := Z * h
    coords (P + Q) = some (x' / z ^ 2, (r * (X * h ^ 2 - x') - Y * h ^ 3) / z ^ 3) := by
  have hx : X / Z ^ 2 ≠ x := by
    rw [ne_eq, div_eq_iff <| pow_ne_zero 2 hZ]
    intro hx
    exact hh <| by linear_combination -hx
  intro h' r x' z
  have hm : r / z * (x - X / Z ^ 2) = y - Y / Z ^ 3 := by
    have : x - X / Z ^ 2 = h' / Z ^ 2 := by rw [sub_div, mul_div_cancel_right₀ _ <| pow_ne_zero 2 hZ]
    rw [this]
    have hr : y - Y / Z ^ 3 = r / Z ^ 3 := by rw [sub_div, mul_div_cancel_right₀ _ <| pow_ne_zero 3 hZ]
    rw [hr, div_mul_div_comm, div_eq_div_iff (mul_ne_zero (mul_ne_zero hZ hh) <| pow_ne_zero 2 hZ) <| pow_ne_zero 3 hZ]
    ring
  rw [coords_add_chord h hQ hx hm]
  have hx₂ : x = (h' + X) / Z ^ 2 := by rw [sub_add_cancel, mul_div_cancel_right₀ _ <| pow_ne_zero 2 hZ]
  have hh' : h' ≠ 0 := hh
  have hz : z = Z * h' := rfl
  have hx' : x' = r ^ 2 - h' ^ 3 - X * h' ^ 2 - X * h' ^ 2 := rfl
  clear_value h' r x' z
  subst hz hx'
  rw [hx₂]
  simp only [Option.some.injEq, Prod.mk.injEq]
  constructor
  case left =>
    field_simp
    ring
  case right =>
    field_simp
    ring

end

end ShortCurve
