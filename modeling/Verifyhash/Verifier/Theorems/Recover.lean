import Verifyhash.Library.Fallible
import Verifyhash.Verifier.Curve
import Verifyhash.Verifier.Recover

-- The arithmetic of the verifier with points is that of the group of the curve.
namespace Recover

open Hex ShortCurve
open Curve (Group natCoords natCoords_eq_some G)

section

variable {a m : ℤ}

theorem mod_eq (hm : 0 < m) : mod a m = a % m := by
  have ht := Int.tmod_def a m
  have hl := Int.tmod_lt_of_pos a hm
  have hg := Int.lt_tmod_of_pos a hm
  rw [mod]
  split_ifs with h
  case pos =>
    rw [←Int.emod_eq_of_lt h hl, ht, Int.sub_mul_emod_self_left]
  case neg =>
    have h₀ : 0 ≤ a.tmod m + m := by omega
    have h₁ : a.tmod m + m < m := by omega
    rw [←Int.emod_eq_of_lt h₀ h₁, ht, Int.add_emod_right, Int.sub_mul_emod_self_left]

-- The coefficient of a number whose greatest common divisor with `m` is 1.
theorem invLoop_spec {old_r r old_s s : ℤ} (h₀ : 0 ≤ old_r) (hr : 0 ≤ r) (hg : Int.gcd old_r r = 1)
    (h₁ : m ∣ old_s * a - old_r) (h₂ : m ∣ s * a - r) : m ∣ invLoop old_r r old_s s * a - 1 := by
  induction old_r, r, old_s, s using invLoop.induct
  case case1 old_r r old_s s hne q ih =>
    have hq : old_r - old_r.tdiv r * r = old_r.tmod r := by rw [Int.tmod_def, mul_comm]
    rw [invLoop, if_pos hne]
    refine ih hr ?_ ?_ h₂ ?_
    · rw [hq]
      exact Int.tmod_nonneg r h₀
    · have hg' : Int.gcd r (old_r - old_r.tdiv r * r) = Int.gcd old_r r := by
        rw [Int.gcd_comm, Int.gcd_sub_mul_right_left]
      exact hg'.trans hg
    · have hd := dvd_sub h₁ <| h₂.mul_left q
      have he : old_s * a - old_r - q * (s * a - r) = (old_s - q * s) * a - (old_r - q * r) := by ring
      exact he ▸ hd
  case case2 old_r r old_s s hz =>
    obtain rfl : r = 0 := not_not.mp hz
    rw [Int.gcd_zero_right] at hg
    obtain rfl : old_r = 1 := by omega
    rw [invLoop, if_neg hz]
    exact h₁

theorem invmod_spec (hm : 1 < m) (hp : Prime m) (h : ¬ m ∣ a) :
    ∃ b, invmod a m = .ok b ∧ 0 ≤ b ∧ b < m ∧ m ∣ a * b - 1 := by
  have hm₀ : 0 < m := by omega
  have hne : a % m ≠ 0 := fun h₀ => h <| Int.dvd_of_emod_eq_zero h₀
  have hc : Int.gcd (a % m) m = 1 := by
    have : IsCoprime m a := (Prime.coprime_iff_not_dvd hp).mpr h
    rw [Int.gcd_emod, Int.gcd_comm]
    exact Int.isCoprime_iff_gcd_eq_one.mp this
  have hl := invLoop_spec (a := a) (m := m) (Int.emod_nonneg a hm₀.ne') hm₀.le hc
    (by rw [one_mul]; exact Int.dvd_self_sub_emod) (by rw [zero_mul, zero_sub]; exact dvd_neg.mpr dvd_rfl)
  rw [invmod, mod_eq hm₀]
  rw [if_neg hne]
  generalize invLoop (a % m) m 1 0 = b at hl
  rw [mod_eq hm₀]
  refine ⟨b % m, rfl, Int.emod_nonneg b hm₀.ne', Int.emod_lt_of_pos b hm₀, ?_⟩
  have hd := dvd_sub hl <| (Int.dvd_self_sub_emod (x := b) (m := m)).mul_left a
  have he : b * a - 1 - a * (b - b % m) = a * (b % m) - 1 := by ring
  exact he ▸ hd

end

theorem P_eq : P = (Curve.p : ℤ) := by
  decide

theorem N_eq : N = (Curve.n : ℤ) := by
  decide

-- The element of the field which a number stands for.
def fe (a : ℤ) : ZMod Curve.p :=
  (a : ZMod Curve.p)

def Reduced (a : ℤ) : Prop :=
  0 ≤ a ∧ a < P

variable {a b x y x1 y1 x2 y2 m : ℤ}

theorem P_pos : 0 < P := by
  decide

theorem mod_spec (a : ℤ) : Reduced (mod a P) ∧ fe (mod a P) = fe a := by
  rw [mod_eq P_pos]
  refine ⟨⟨Int.emod_nonneg a P_pos.ne', Int.emod_lt_of_pos a P_pos⟩, ?_⟩
  rw [fe, P_eq, ZMod.intCast_mod, fe]

theorem fe_inj (ha : Reduced a) (hb : Reduced b) (h : fe a = fe b) : a = b := by
  have := (ZMod.intCast_eq_intCast_iff' a b Curve.p).mp h
  rwa [←P_eq, Int.emod_eq_of_lt ha.left ha.right, Int.emod_eq_of_lt hb.left hb.right] at this

theorem fe_add (a b : ℤ) : fe (a + b) = fe a + fe b :=
  Int.cast_add a b

theorem fe_sub (a b : ℤ) : fe (a - b) = fe a - fe b :=
  Int.cast_sub a b

theorem fe_mul (a b : ℤ) : fe (a * b) = fe a * fe b :=
  Int.cast_mul a b

theorem fe_P : fe P = 0 := by
  rw [fe, P_eq, Int.cast_natCast, ZMod.natCast_self]

theorem mod_eq_zero_iff (a : ℤ) : mod a P = 0 ↔ fe a = 0 := by
  rw [mod_eq P_pos, P_eq, fe, ZMod.intCast_zmod_eq_zero_iff_dvd, Int.dvd_iff_emod_eq_zero]

theorem fe_eq_natCast (h : Reduced a) : fe a = (a.toNat : ZMod Curve.p) := by
  rw [fe, ←Int.cast_natCast, Int.toNat_of_nonneg h.left]

-- There is an inverse of every number which is not zero.
theorem invmod_fe (h : fe a ≠ 0) : ∃ b, invmod a P = .ok b ∧ fe a * fe b = 1 := by
  have hd : ¬ P ∣ a := by rwa [P_eq, ←ZMod.intCast_zmod_eq_zero_iff_dvd]
  obtain ⟨b, hb, -, -, hm⟩ := invmod_spec (by decide) (P_eq ▸ Nat.prime_iff_prime_int.mp Curve.prime_p) hd
  refine ⟨b, hb, ?_⟩
  rw [P_eq, ←ZMod.intCast_zmod_eq_zero_iff_dvd, Int.cast_sub, Int.cast_mul, Int.cast_one, sub_eq_zero] at hm
  exact hm

theorem powLoop_spec {r b e : ℤ} (hr : Reduced r) (h₀ : 0 ≤ e) :
    Reduced (powLoop P r b e) ∧ fe (powLoop P r b e) = fe r * fe b ^ e.toNat := by
  induction hn : e.toNat using Nat.strongRecOn generalizing r b e
  case ind n ih =>
    rw [powLoop]
    split_ifs with hpos hodd
    case pos =>
      have hs := mod_spec (r * b)
      obtain ⟨hred, hv⟩ := ih (e / 2).toNat (by omega) (b := mod (b * b) P) hs.left (by omega) rfl
      refine ⟨hred, ?_⟩
      rw [hv, hs.right, (mod_spec _).right, fe_mul, fe_mul, ←sq, ←pow_mul, mul_assoc, ←pow_succ']
      congr 2
      omega
    case neg =>
      obtain ⟨hred, hv⟩ := ih (e / 2).toNat (by omega) (b := mod (b * b) P) hr (by omega) rfl
      refine ⟨hred, ?_⟩
      rw [hv, (mod_spec _).right, fe_mul, ←sq, ←pow_mul]
      congr 2
      omega
    case neg =>
      obtain rfl : n = 0 := by omega
      rw [pow_zero, mul_one]
      exact ⟨hr, rfl⟩

-- The point which a pair of numbers stands for.
def Stands (q : Point) (Q : Group) : Prop :=
  q = (natCoords Q).map fun c => ((c.fst : ℤ), (c.snd : ℤ))

variable {p1 p2 point result : Point} {Q Q₁ Q₂ : Group}

theorem stands_none : Stands none Q ↔ Q = 0 := by
  rw [Stands, eq_comm, Option.map_eq_none_iff, Curve.natCoords_eq_none]

theorem stands_some : Stands (some (x, y)) Q ↔ Reduced x ∧ Reduced y ∧ coords Q = some (fe x, fe y) := by
  rw [Stands, eq_comm, Option.map_eq_some_iff]
  constructor
  case mp =>
    rintro ⟨⟨x', y'⟩, hc, h⟩
    injection h with hx hy
    subst hx hy
    obtain ⟨hx, hy, hc⟩ := natCoords_eq_some.mp hc
    refine ⟨⟨by omega, by rw [P_eq]; exact_mod_cast hx⟩, ⟨by omega, by rw [P_eq]; exact_mod_cast hy⟩, ?_⟩
    rw [hc, fe, fe, Int.cast_natCast, Int.cast_natCast]
  case mpr =>
    rintro ⟨hx, hy, hc⟩
    rw [fe_eq_natCast hx, fe_eq_natCast hy] at hc
    have hP := P_eq
    refine ⟨(x.toNat, y.toNat), natCoords_eq_some.mpr ⟨?_, ?_, hc⟩, ?_⟩
    · have h₀ := hx.left
      have := hx.right
      omega
    · have h₀ := hy.left
      have := hy.right
      omega
    · rw [Int.toNat_of_nonneg hx.left, Int.toNat_of_nonneg hy.left]

-- The inverse which `slope` asks for exists unless the points are opposite.
theorem slope_spec (h₁ : Stands (some (x1, y1)) Q₁) (h₂ : Stands (some (x2, y2)) Q₂)
    (h : ¬ (fe x1 = fe x2 ∧ fe y1 + fe y2 = 0)) :
    ∃ m, slope x1 y1 x2 y2 = .ok m ∧
      fe m * run (fe x1) (fe y1) (fe x2) (fe y2) = rise (fe x1) (fe y1) (fe x2) (fe y2) := by
  obtain ⟨hx₁, hy₁, hc₁⟩ := stands_some.mp h₁
  obtain ⟨hx₂, hy₂, hc₂⟩ := stands_some.mp h₂
  have hr := run_ne_zero hc₁ hc₂ h
  have hs : fe x1 = fe x2 ∧ fe y1 = fe y2 ↔ x1 = x2 ∧ y1 = y2 :=
    and_congr ⟨fe_inj hx₁ hx₂, congrArg fe⟩ ⟨fe_inj hy₁ hy₂, congrArg fe⟩
  rw [run] at hr ⊢
  rw [rise, slope]
  by_cases he : x1 = x2 ∧ y1 = y2
  case pos =>
    rw [if_pos <| hs.mpr he] at hr ⊢
    rw [if_pos he, if_pos <| hs.mpr he]
    have hd : fe (2 * y1) = 2 * fe y1 := by
      rw [fe_mul]
      rfl
    obtain ⟨i, hi, hm⟩ := invmod_fe (a := 2 * y1) (by rwa [hd])
    rw [hi]
    refine ⟨_, rfl, ?_⟩
    rw [hd] at hm
    have h3 : fe (3 * x1 * x1 + A) = 3 * fe x1 * fe x1 := by
      rw [A, add_zero, fe_mul, fe_mul]
      rfl
    rw [(mod_spec _).right, fe_mul, h3]
    linear_combination (3 * fe x1 ^ 2) * hm
  case neg =>
    rw [if_neg <| mt hs.mp he] at hr ⊢
    rw [if_neg he, if_neg <| mt hs.mp he]
    obtain ⟨i, hi, hm⟩ := invmod_fe (a := x2 - x1) (by rwa [fe_sub])
    rw [hi]
    refine ⟨_, rfl, ?_⟩
    rw [fe_sub] at hm
    rw [(mod_spec _).right, fe_mul, fe_sub]
    linear_combination (fe y2 - fe y1) * hm

-- `pointAdd` returns the sum.
theorem pointAdd_spec (h₁ : Stands p1 Q₁) (h₂ : Stands p2 Q₂) : ∃ q, pointAdd p1 p2 = .ok q ∧ Stands q (Q₁ + Q₂) := by
  rcases p1 with _ | ⟨x1, y1⟩
  case none =>
    rw [stands_none.mp h₁, zero_add]
    exact ⟨p2, by cases p2 <;> rfl, h₂⟩
  case some =>
    rcases p2 with _ | ⟨x2, y2⟩
    case none =>
      rw [stands_none.mp h₂, add_zero]
      exact ⟨_, rfl, h₁⟩
    case some =>
      obtain ⟨hx₁, hy₁, hc₁⟩ := stands_some.mp h₁
      obtain ⟨hx₂, hy₂, hc₂⟩ := stands_some.mp h₂
      have hz : x1 = x2 ∧ mod (y1 + y2) P = 0 ↔ fe x1 = fe x2 ∧ fe y1 + fe y2 = 0 := by
        rw [mod_eq_zero_iff, fe_add]
        exact and_congr_left' ⟨congrArg fe, fe_inj hx₁ hx₂⟩
      rw [pointAdd]
      by_cases h : fe x1 = fe x2 ∧ fe y1 + fe y2 = 0
      case pos =>
        rw [if_pos <| hz.mpr h, add_opposite hc₁ (h.left ▸ hc₂) h.right]
        exact ⟨_, rfl, stands_none.mpr rfl⟩
      case neg =>
        obtain ⟨m, hm, hl⟩ := slope_spec h₁ h₂ h
        rw [if_neg <| mt hz.mp h, hm]
        refine ⟨_, rfl, stands_some.mpr ⟨(mod_spec _).left, (mod_spec _).left, ?_⟩⟩
        rw [coords_add hc₁ hc₂ h hl, (mod_spec _).right, (mod_spec _).right, fe_sub, fe_sub, fe_mul, fe_sub, fe_mul, fe_sub,
          (mod_spec _).right, fe_sub, fe_sub, fe_mul, sq]

-- The result is the sum of what it was and of the multiple of the point which is added.
theorem scalarLoop_spec {k : ℤ} (hr : Stands result Q₁) (hp : Stands point Q₂) (hk : 0 ≤ k) :
    ∃ q, scalarLoop result point k = .ok q ∧ Stands q (Q₁ + k.toNat • Q₂) := by
  induction hn : k.toNat using Nat.strongRecOn generalizing result point k Q₁ Q₂
  case ind n ih =>
    rw [scalarLoop]
    by_cases hpos : k > 0
    case neg =>
      obtain rfl : n = 0 := by omega
      rw [if_neg hpos, zero_nsmul, add_zero]
      exact ⟨_, rfl, hr⟩
    case pos =>
      rw [if_pos hpos]
      obtain ⟨d, hd, hD⟩ := pointAdd_spec hp hp
      by_cases hb : k % 2 = 1
      case pos =>
        obtain ⟨q, hq, hQ⟩ := pointAdd_spec hr hp
        obtain ⟨q', hq', hQ'⟩ := ih (k / 2).toNat (by omega) hQ hD (by omega) rfl
        refine ⟨q', ?_, ?_⟩
        · rw [if_pos hb, hq, hd]
          exact hq'
        · convert hQ' using 1
          rw [show n = 1 + 2 * (k / 2).toNat by omega, add_nsmul, one_nsmul, mul_nsmul, two_nsmul, add_assoc]
      case neg =>
        obtain ⟨q', hq', hQ'⟩ := ih (k / 2).toNat (by omega) hr hD (by omega) rfl
        refine ⟨q', ?_, ?_⟩
        · rw [if_neg hb, hd]
          exact hq'
        · convert hQ' using 1
          rw [show n = 2 * (k / 2).toNat by omega, mul_nsmul, two_nsmul]

-- `scalarMul` returns the multiple, and the reduction of the factor does not change it.
theorem scalarMul_spec {k : ℤ} (hk : 0 ≤ k) (hp : Stands point Q) :
    ∃ q, scalarMul k point = .ok q ∧ Stands q (k.toNat • Q) := by
  have hm : mod k N = k % Curve.n := by rw [mod_eq (by decide), N_eq]
  obtain ⟨q, hq, hQ⟩ := scalarLoop_spec (stands_none.mpr rfl) hp
    (by rw [hm]; exact Int.emod_nonneg k (by decide) : 0 ≤ mod k N)
  refine ⟨q, hq, ?_⟩
  rw [zero_add, hm, Int.toNat_emod hk (by omega), Int.toNat_natCast, Curve.mod_nsmul] at hQ
  exact hQ

theorem powmod_spec (a : ℤ) : Reduced (powmod a ((P + 1) / 4) P) ∧
    fe (powmod a ((P + 1) / 4) P) = fe a ^ ((Curve.p + 1) / 4) := by
  have h := powLoop_spec (r := 1) (b := mod a P) (e := (P + 1) / 4) ⟨by decide, by decide⟩ (by decide)
  have he : ((P + 1) / 4).toNat = (Curve.p + 1) / 4 := by decide
  have h₁ : fe 1 = 1 := Int.cast_one
  rw [(mod_spec a).right, he, h₁, one_mul] at h
  exact h

theorem val_neg {y : ℤ} (h : Reduced y) (h₀ : fe y ≠ 0) : Reduced (mod (P - y) P) ∧ fe (mod (P - y) P) = -fe y ∧
    mod (P - y) P = P - y := by
  have hs := mod_spec (P - y)
  refine ⟨hs.left, by rw [hs.right, fe_sub, fe_P, zero_sub], ?_⟩
  have hne : y ≠ 0 := fun hy => h₀ <| by rw [hy, fe, Int.cast_zero]
  have h₀ := h.left
  have h₁ := h.right
  rw [mod_eq P_pos, Int.emod_eq_of_lt (by omega) (by omega)]

theorem stands_neg {q : Point} (h : Stands q Q) : Stands (q.map fun c => (c.fst, mod (P - c.snd) P)) (-Q) := by
  rcases q with _ | ⟨x, y⟩
  case none =>
    rw [stands_none.mp h, neg_zero]
    exact stands_none.mpr rfl
  case some =>
    obtain ⟨hx, hy, hc⟩ := stands_some.mp h
    have hne : fe y ≠ 0 := fun h₀ => Curve.cube_ne (fe x) <| by rw [←equation_of_coords hc, h₀, sq, mul_zero]
    obtain ⟨hr, hv, -⟩ := val_neg hy hne
    refine stands_some.mpr ⟨hx, hr, ?_⟩
    rw [hv]
    exact coords_neg hc

-- The point with the abscissa `x` and the parity, if there is one.
theorem liftX_spec {parity : ℤ} (hx : Reduced x) (hp : parity = 0 ∨ parity = 1) :
    (∃ y Q, liftX x parity = .ok (x, y) ∧ Stands (some (x, y)) Q ∧ y % 2 = parity) ∨
      (∃ e, liftX x parity = .error e) ∧ ∀ (Q : Group) y, natCoords Q ≠ some (x.toNat, y) := by
  have hal := mod_spec (x * x * x + A * x + B)
  have halpha : fe (x * x * x + A * x + B) = fe x ^ 3 + 7 := by
    rw [A, zero_mul, add_zero, fe_add, fe_mul, fe_mul]
    change fe x * fe x * fe x + ((7 : ℤ) : ZMod Curve.p) = _
    push_cast
    ring
  rw [halpha] at hal
  have hroot := powmod_spec (mod (x * x * x + A * x + B) P)
  rw [hal.right] at hroot
  rw [liftX, sqrtmod]
  generalize mod (x * x * x + A * x + B) P = alpha at *
  generalize powmod alpha ((P + 1) / 4) P = y at *
  have hsq : mod (y * y) P = mod alpha P ↔ fe y ^ 2 = fe x ^ 3 + 7 := by
    have h₁ := mod_spec (y * y)
    have h₂ := mod_spec alpha
    rw [fe_mul, ←sq (fe y)] at h₁
    rw [hal.right] at h₂
    constructor
    case mp =>
      intro h
      rw [←h₁.right, h, h₂.right]
    case mpr =>
      intro h
      exact fe_inj h₁.left h₂.left <| by rw [h₁.right, h₂.right, h]
  by_cases h : mod (y * y) P = mod alpha P
  case pos =>
    have he := hsq.mp h
    have hne : fe y ≠ 0 := fun h₀ => Curve.cube_ne (fe x) <| by rw [←he, h₀, sq, mul_zero]
    obtain ⟨Q, hQ⟩ := Curve.exists_point he
    rw [if_neg (not_not.mpr h)]
    refine .inl ?_
    by_cases hb : y % 2 = parity
    case pos =>
      refine ⟨y, Q, ?_, stands_some.mpr ⟨hx, hroot.left, hQ⟩, hb⟩
      change Except.ok (x, if y % 2 ≠ parity then mod (P - y) P else y) = _
      rw [if_neg (not_not.mpr hb)]
    case neg =>
      obtain ⟨hr, hf, hv⟩ := val_neg hroot.left hne
      have hodd : P % 2 = 1 := by decide
      refine ⟨mod (P - y) P, -Q, ?_, stands_some.mpr ⟨hx, hr, ?_⟩, ?_⟩
      · change Except.ok (x, if y % 2 ≠ parity then mod (P - y) P else y) = _
        rw [if_pos hb]
      · rw [hf]
        exact coords_neg hQ
      · rw [hv]
        omega
  case neg =>
    rw [if_pos h]
    refine .inr ⟨⟨_, rfl⟩, fun Q z hz => h <| hsq.mpr ?_⟩
    obtain ⟨-, -, hc⟩ := natCoords_eq_some.mp hz
    rw [←fe_eq_natCast hx] at hc
    rw [hroot.right]
    exact Curve.root_sq <| equation_of_coords hc

theorem stands_generator : Stands (some (GX, GY)) G := by
  refine stands_some.mpr ⟨⟨by decide, by decide⟩, ⟨by decide, by decide⟩, ?_⟩
  have hx : GX = (Curve.gx : ℤ) := by decide
  have hy : GY = (Curve.gy : ℤ) := by decide
  rw [Curve.coords_G, fe, fe, hx, hy, Int.cast_natCast, Int.cast_natCast]

theorem bufToBig_eq (buf : Bytes) : bufToBig buf = (Numeral.value 256 (buf.map UInt8.toNat) : ℕ) := by
  rw [bufToBig]
  induction buf using List.reverseRecOn
  case nil => rfl
  case append_singleton buf b ih =>
    rw [List.foldl_append, ih, List.map_append, List.map_singleton, Numeral.value_concat]
    simp

theorem inv_scalar {r : ℤ} (h₀ : 0 < r) (hr : r < N) :
    ∃ b, invmod r N = .ok b ∧ 0 ≤ b ∧ (b.toNat : ZMod Curve.n) = (r.toNat : ZMod Curve.n)⁻¹ := by
  have hd : ¬ N ∣ r := fun hd => (Int.le_of_dvd h₀ hd).not_gt hr
  obtain ⟨b, hb, hn, -, hm⟩ := invmod_spec (by decide) (N_eq ▸ Nat.prime_iff_prime_int.mp Curve.prime_n) hd
  refine ⟨b, hb, hn, eq_inv_of_mul_eq_one_right ?_⟩
  have hcast {a : ℤ} (h : 0 ≤ a) : (a.toNat : ZMod Curve.n) = (a : ZMod Curve.n) := by
    rw [←Int.cast_natCast, Int.toNat_of_nonneg h]
  rw [hcast h₀.le, hcast hn, ←sub_eq_zero]
  rw [N_eq, ←ZMod.intCast_zmod_eq_zero_iff_dvd, Int.cast_sub, Int.cast_mul, Int.cast_one] at hm
  exact hm

variable {r s : ℤ} {R : Group}

theorem recoverFrom_eq (msgHash : Bytes) (R : Point) : recoverFrom msgHash r s R =
    (invmod r N).bind fun rInv => (scalarMul s R).bind fun sR =>
      (scalarMul (mod (bufToBig msgHash) N) <| some (GX, GY)).bind fun eG =>
        (pointAdd sR <| eG.map fun c => (c.fst, mod (P - c.snd) P)).bind <| scalarMul rInv :=
  rfl

theorem recoverFrom_spec (msgHash : Bytes) (h₀ : 0 < r) (hr : r < N) (hs : 0 ≤ s) (hR : Stands point R) :
    ∃ q, recoverFrom msgHash r s point = .ok q ∧
      Stands q (Ecdsa.recovered G ((bufToBig msgHash).toNat : ZMod Curve.n) (r.toNat : ZMod Curve.n)
        (s.toNat : ZMod Curve.n) R) := by
  have he : 0 ≤ bufToBig msgHash := by
    rw [bufToBig_eq]
    exact Int.natCast_nonneg _
  rw [recoverFrom_eq]
  generalize bufToBig msgHash = e at he
  have hm : mod e N = e % Curve.n := by rw [mod_eq (by decide), N_eq]
  obtain ⟨b, hb, hb₀, hbv⟩ := inv_scalar h₀ hr
  obtain ⟨sR, hsR, hSR⟩ := scalarMul_spec hs hR
  obtain ⟨eG, heG, hEG⟩ := scalarMul_spec (k := mod e N) (by rw [hm]; exact Int.emod_nonneg e (by decide)) stands_generator
  rw [hm, Int.toNat_emod he (by omega), Int.toNat_natCast, Curve.mod_nsmul] at hEG
  obtain ⟨d, hd, hD⟩ := pointAdd_spec hSR (stands_neg hEG)
  obtain ⟨q, hq, hQ⟩ := scalarMul_spec hb₀ hD
  refine ⟨q, ?_, ?_⟩
  · rw [hb, Except.bind, hsR, Except.bind, heG, Except.bind, hd]
    exact hq
  · rwa [Ecdsa.recovered, ←hbv, Nat.cast_smul_eq_nsmul, Nat.cast_smul_eq_nsmul, Nat.cast_smul_eq_nsmul, sub_eq_add_neg]

variable {id : ℕ}

theorem point_spec (h₀ : 0 < r) (hx : r + (if (id : ℤ) / 2 ≠ 0 then N else 0) < P) (hid : id ≤ 3) :
    (∃ q R, liftX (r + if (id : ℤ) / 2 ≠ 0 then N else 0) ((id : ℤ) % 2) = .ok q ∧ Stands (some q) R ∧
      Curve.IsPoint r.toNat id R) ∨
      (∃ e, liftX (r + if (id : ℤ) / 2 ≠ 0 then N else 0) ((id : ℤ) % 2) = .error e) ∧
        ∀ R, ¬ Curve.IsPoint r.toNat id R := by
  have hn : N = (Curve.n : ℤ) := N_eq
  have hv : (r + if (id : ℤ) / 2 ≠ 0 then N else 0).toNat = r.toNat + id / 2 * Curve.n := by
    by_cases h : (id : ℤ) / 2 ≠ 0
    case pos =>
      have h₁ : id / 2 = 1 := by omega
      rw [if_pos h, h₁, hn]
      omega
    case neg =>
      have h₁ : id / 2 = 0 := by omega
      rw [if_neg h, h₁]
      omega
  have hpos : 0 ≤ r + if (id : ℤ) / 2 ≠ 0 then N else 0 := by
    have hN : (0 : ℤ) < N := by decide
    split_ifs <;> omega
  generalize (r + if (id : ℤ) / 2 ≠ 0 then N else 0) = x at *
  rcases liftX_spec ⟨hpos, hx⟩ (by omega : (id : ℤ) % 2 = 0 ∨ (id : ℤ) % 2 = 1) with ⟨y, Q, hl, hs, hy⟩ | ⟨hl, hn⟩
  case inl =>
    refine .inl ⟨_, Q, hl, hs, y.toNat, ?_, ?_⟩
    · obtain ⟨hx, hy, hc⟩ := stands_some.mp hs
      rw [fe_eq_natCast hx, fe_eq_natCast hy] at hc
      have hP := P_eq
      have hx₀ := hx.left
      have hx₁ := hx.right
      have hy₀ := hy.left
      have hy₁ := hy.right
      rw [←hv]
      exact natCoords_eq_some.mpr ⟨by omega, by omega, hc⟩
    · have hy₀ := (stands_some.mp hs).right.left.left
      omega
  case inr =>
    refine .inr ⟨hl, ?_⟩
    rintro R ⟨y, hc, -⟩
    exact hn R y <| by rw [hc, hv]

-- The recovery is that of the group.
theorem recoverPublicKey_spec (msgHash : Bytes) (r s : ℤ) (id : ℕ) :
    (∃ pub Q, Curve.Recovers (bufToBig msgHash).toNat r.toNat s.toNat id Q ∧
      recoverPublicKey msgHash r s id = .ok pub ∧ Stands (some pub) Q) ∨
      (∃ e, recoverPublicKey msgHash r s id = .error e) ∧
        ∀ Q, ¬ Curve.Recovers (bufToBig msgHash).toNat r.toNat s.toNat id Q := by
  have hN := N_eq
  have hP := P_eq
  rw [recoverPublicKey]
  by_cases hr : r ≤ 0 ∨ r ≥ N
  case pos =>
    rw [if_pos hr]
    refine .inr ⟨⟨_, rfl⟩, fun Q h => ?_⟩
    have := h.r_pos
    have := h.r_lt
    omega
  case neg =>
    rw [if_neg hr]
    rw [not_or, not_le, ge_iff_le, not_le] at hr
    by_cases hs : s ≤ 0 ∨ s ≥ N
    case pos =>
      rw [if_pos hs]
      refine .inr ⟨⟨_, rfl⟩, fun Q h => ?_⟩
      have := h.s_pos
      have := h.s_lt
      omega
    case neg =>
      rw [if_neg hs]
      rw [not_or, not_le, ge_iff_le, not_le] at hs
      by_cases hid : (id : ℤ) < 0 ∨ (id : ℤ) > 3
      case pos =>
        rw [if_pos hid]
        refine .inr ⟨⟨_, rfl⟩, fun Q h => ?_⟩
        have := h.id_le
        omega
      case neg =>
        rw [if_neg hid]
        have hle : id ≤ 3 := by omega
        dsimp only
        by_cases hx : (r + if (id : ℤ) / 2 ≠ 0 then N else 0) ≥ P
        case pos =>
          rw [if_pos hx]
          refine .inr ⟨⟨_, rfl⟩, fun Q h => ?_⟩
          obtain ⟨R, ⟨y, hc, -⟩, -⟩ := h.exists_point
          have hlt := (natCoords_eq_some.mp hc).left
          by_cases h₂ : (id : ℤ) / 2 ≠ 0
          case pos =>
            have h₁ : id / 2 = 1 := by omega
            rw [if_pos h₂] at hx
            rw [h₁] at hlt
            omega
          case neg =>
            have h₁ : id / 2 = 0 := by omega
            rw [if_neg h₂] at hx
            rw [h₁] at hlt
            omega
        case neg =>
          rw [if_neg hx]
          rcases point_spec hr.left (not_le.mp hx) hle with ⟨q, R, hq, hR, hi⟩ | ⟨⟨e, hq⟩, hn⟩ <;> rw [hq]
          case inr =>
            refine .inr ⟨⟨e, rfl⟩, fun Q h => ?_⟩
            obtain ⟨R, hR, -⟩ := h.exists_point
            exact hn R hR
          case inl =>
            obtain ⟨q', hq', hQ⟩ := recoverFrom_spec msgHash hr.left hr.right hs.left.le hR
            by_cases h₀ : Ecdsa.recovered G ((bufToBig msgHash).toNat : ZMod Curve.n) (r.toNat : ZMod Curve.n)
                (s.toNat : ZMod Curve.n) R = 0
            case pos =>
              rw [h₀] at hQ
              obtain rfl : q' = none := hQ
              refine .inr ⟨⟨js "secp256k1: recovered point at infinity", ?_⟩, fun Q h => ?_⟩
              · change (recoverFrom msgHash r s <| some q).bind _ = _
                rw [hq']
                rfl
              · obtain ⟨R', hR', rfl⟩ := h.exists_point
                exact h.key_ne <| by rwa [hR'.unique hi]
            case neg =>
              cases q'
              case none => exact absurd (stands_none.mp hQ) h₀
              case some pub =>
                refine .inl ⟨pub, _, ⟨by omega, by omega, by omega, by omega, hle, h₀, R, hi, rfl⟩, ?_, hQ⟩
                change (recoverFrom msgHash r s <| some q).bind _ = _
                rw [hq']
                rfl

end Recover
