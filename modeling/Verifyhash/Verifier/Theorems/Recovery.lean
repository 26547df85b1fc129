import Verifyhash.Verifier.Theorems.Recover

-- What `verifier/lib/secp256k1-recover.js` computes with points, and which keys it recovers.
namespace Recover

open Hex
open Curve (Group natCoords G)

-- The points which are on the curve.
def OnCurve : Point → Prop
  | none        => True
  | some (x, y) => (0 ≤ x ∧ x < P) ∧ (0 ≤ y ∧ y < P) ∧ mod (y * y) P = mod (x * x * x + A * x + B) P

-- The representation of a point.
noncomputable def pointOf (Q : Group) : Point :=
  (natCoords Q).map fun c => ((c.fst : ℤ), (c.snd : ℤ))

variable {x y x' yParity : ℤ} {q : Point} {Q : Group}

theorem stands_iff_eq : Stands q Q ↔ q = pointOf Q :=
  Iff.rfl

theorem stands_iff : Stands (some (x, y)) Q ↔ 0 ≤ x ∧ 0 ≤ y ∧ natCoords Q = some (x.toNat, y.toNat) := by
  rw [Stands, eq_comm, Option.map_eq_some_iff]
  constructor
  case mp =>
    rintro ⟨⟨a, b⟩, hc, h⟩
    injection h with ha hb
    subst ha hb
    exact ⟨Int.natCast_nonneg a, Int.natCast_nonneg b, hc⟩
  case mpr =>
    rintro ⟨hx, hy, hc⟩
    exact ⟨_, hc, by rw [Int.toNat_of_nonneg hx, Int.toNat_of_nonneg hy]⟩

theorem equation_iff : mod (y * y) P = mod (x * x * x + A * x + B) P ↔ fe y ^ 2 = fe x ^ 3 + 7 := by
  have hy : fe (y * y) = fe y ^ 2 := by rw [fe_mul, sq]
  have hx : fe (x * x * x + A * x + B) = fe x ^ 3 + 7 := by
    rw [A, zero_mul, add_zero, fe_add, fe_mul, fe_mul]
    change fe x * fe x * fe x + ((7 : ℤ) : ZMod Curve.p) = _
    push_cast
    ring
  rw [←hy, ←hx]
  constructor
  case mp =>
    intro h
    rw [←(mod_spec (y * y)).right, h, (mod_spec _).right]
  case mpr => exact fun h => fe_inj (mod_spec _).left (mod_spec _).left <| by rw [(mod_spec _).right, (mod_spec _).right, h]

theorem onCurve_iff : OnCurve q ↔ ∃ Q, Stands q Q := by
  rcases q with _ | ⟨x, y⟩
  case none => exact iff_of_true trivial ⟨0, stands_none.mpr rfl⟩
  case some =>
    rw [OnCurve, equation_iff]
    constructor
    case mp =>
      rintro ⟨hx, hy, h⟩
      obtain ⟨Q, hQ⟩ := Curve.exists_point h
      exact ⟨Q, stands_some.mpr ⟨hx, hy, hQ⟩⟩
    case mpr =>
      rintro ⟨Q, hQ⟩
      obtain ⟨hx, hy, hc⟩ := stands_some.mp hQ
      exact ⟨hx, hy, ShortCurve.equation_of_coords hc⟩

-- The factor is reduced before the loop, which does not change the multiple.
theorem scalarMul_zsmul (k : ℤ) (Q : Group) : scalarMul k (pointOf Q) = .ok (pointOf (k • Q)) := by
  have hm : mod k N = k % Curve.n := by rw [mod_eq (by decide), N_eq]
  have h₀ : 0 ≤ k % Curve.n := Int.emod_nonneg k (by decide)
  obtain ⟨q, hq, hQ⟩ := scalarLoop_spec (stands_none.mpr rfl) (stands_iff_eq.mpr rfl : Stands (pointOf Q) Q) (hm.symm ▸ h₀)
  have hz : (k % Curve.n).toNat • Q = k • Q := by
    have hn : (Curve.n : ℤ) • Q = 0 := by rw [natCast_zsmul, Curve.order_nsmul]
    rw [←natCast_zsmul, Int.toNat_of_nonneg h₀, Int.emod_def, sub_zsmul, mul_comm, mul_zsmul, hn, zsmul_zero, neg_zero, add_zero]
  rw [zero_add, hm, hz] at hQ
  rw [scalarMul, hq, stands_iff_eq.mp hQ]

-- The points on the curve with `pointAdd` and `scalarMul` are the group, and neither throws.
theorem pointAdd_group_law : Function.Injective pointOf ∧ Set.range pointOf = {q | OnCurve q} ∧
    (∀ Q₁ Q₂, pointAdd (pointOf Q₁) (pointOf Q₂) = .ok (pointOf (Q₁ + Q₂))) ∧
    ∀ (k : ℤ) Q, scalarMul k (pointOf Q) = .ok (pointOf (k • Q)) := by
  refine ⟨fun Q₁ Q₂ h => ?_, Set.ext fun q => ?_, fun Q₁ Q₂ => ?_, scalarMul_zsmul⟩
  · have hi : Function.Injective fun c : ℕ × ℕ => ((c.fst : ℤ), (c.snd : ℤ)) := by
      rintro ⟨a, b⟩ ⟨a', b'⟩ h
      injection h with ha hb
      exact Prod.ext (Int.ofNat_inj.mp ha) (Int.ofNat_inj.mp hb)
    exact Curve.natCoords_inj <| Option.map_injective hi h
  · exact (exists_congr fun Q => eq_comm).trans onCurve_iff.symm
  · obtain ⟨q, hq, hQ⟩ := pointAdd_spec (stands_iff_eq.mpr rfl : Stands (pointOf Q₁) Q₁) (stands_iff_eq.mpr rfl : Stands (pointOf Q₂) Q₂)
    rw [hq, stands_iff_eq.mp hQ]

-- `liftX` returns the only point with the abscissa and the parity.
theorem liftX_iff (hx₀ : 0 ≤ x) (hx : x < P) (hp : yParity = 0 ∨ yParity = 1) :
    liftX x yParity = .ok (x', y) ↔ x' = x ∧ OnCurve (some (x, y)) ∧ y % 2 = yParity := by
  rcases liftX_spec ⟨hx₀, hx⟩ hp with ⟨y', Q, hl, hQ, hy⟩ | ⟨⟨e, hl⟩, hn⟩ <;> rw [hl]
  case inl =>
    constructor
    case mp =>
      intro h
      injection h with h
      injection h with h₁ h₂
      subst h₁ h₂
      exact ⟨rfl, onCurve_iff.mpr ⟨Q, hQ⟩, hy⟩
    case mpr =>
      rintro ⟨rfl, hc, hy'⟩
      obtain ⟨Q', hQ'⟩ := onCurve_iff.mp hc
      obtain ⟨-, h₀, hc⟩ := stands_iff.mp hQ
      obtain ⟨-, h₀', hc'⟩ := stands_iff.mp hQ'
      obtain rfl := Curve.eq_of_natCoords hc hc' <| by omega
      have := (stands_iff_eq.mp hQ).trans (stands_iff_eq.mp hQ').symm
      exact congrArg Except.ok <| Option.some_inj.mp this
  case inr =>
    constructor
    case mp => exact fun h => by cases h
    case mpr =>
      rintro ⟨rfl, hc, -⟩
      obtain ⟨Q', hQ'⟩ := onCurve_iff.mp hc
      exact absurd (stands_iff.mp hQ').right.right <| hn Q' _

theorem liftX_generator : liftX GX 0 = .ok (GX, GY) :=
  (liftX_iff (by decide) (by decide) (.inl rfl)).mpr ⟨rfl, ⟨by decide, by decide, by decide +kernel⟩, by decide⟩

theorem bufToBig_nonneg (buf : Bytes) : 0 ≤ bufToBig buf := by
  rw [bufToBig_eq]
  exact Int.natCast_nonneg _

variable (msgHash : Bytes) (r s : ℤ) (pub : ℤ × ℤ)

theorem recoverPublicKey_eq_ok (id : ℕ) : recoverPublicKey msgHash r s id = .ok pub ↔
    ∃ Q, Stands (some pub) Q ∧ Curve.Recovers (bufToBig msgHash).toNat r.toNat s.toNat id Q := by
  rcases recoverPublicKey_spec msgHash r s id with ⟨pub', Q', hQ', h, hs'⟩ | ⟨⟨e, h⟩, hn⟩ <;> rw [h]
  case inl =>
    constructor
    case mp =>
      intro h
      injection h with h
      subst h
      exact ⟨Q', hs', hQ'⟩
    case mpr =>
      rintro ⟨Q, hs, hQ⟩
      rw [hQ.unique hQ'] at hs
      exact congrArg Except.ok <| Option.some_inj.mp <| (stands_iff_eq.mp hs').trans (stands_iff_eq.mp hs).symm
  case inr =>
    constructor
    case mp => exact fun h => by cases h
    case mpr =>
      rintro ⟨Q, -, hQ⟩
      exact absurd hQ <| hn Q

theorem recoverPublicKey_neg {recId : ℤ} (h : recId < 0) : ∃ e, recoverPublicKey msgHash r s recId = .error e := by
  rw [recoverPublicKey]
  by_cases hr : r ≤ 0 ∨ r ≥ N
  case pos => exact ⟨_, if_pos hr⟩
  case neg =>
    by_cases hs : s ≤ 0 ∨ s ≥ N
    case pos => exact ⟨_, (if_neg hr).trans <| if_pos hs⟩
    case neg => exact ⟨_, (if_neg hr).trans <| (if_neg hs).trans <| if_pos <| .inl h⟩

-- The keys which are recovered with one of the identifiers are those which verify the signature.
theorem recoverPublicKey_verifies_iff : (∃ recId, recoverPublicKey msgHash r s recId = .ok pub) ↔
    (0 < r ∧ r < N) ∧ (0 < s ∧ s < N) ∧ ∃ Q, Stands (some pub) Q ∧
      Ecdsa.Verifies G Curve.abscissa (bufToBig msgHash : ZMod Curve.n) (r : ZMod Curve.n) (s : ZMod Curve.n) Q := by
  have hc {a : ℤ} (h : 0 ≤ a) : (a.toNat : ZMod Curve.n) = a := by rw [←Int.cast_natCast, Int.toNat_of_nonneg h]
  have hN := N_eq
  constructor
  case mp =>
    rintro ⟨recId, h⟩
    have h₀ : 0 ≤ recId := by
      by_contra h₀
      obtain ⟨e, he⟩ := recoverPublicKey_neg msgHash r s (not_le.mp h₀)
      rw [he] at h
      cases h
    obtain ⟨id, rfl⟩ := Int.eq_ofNat_of_zero_le h₀
    obtain ⟨Q, hs, hQ⟩ := (recoverPublicKey_eq_ok ..).mp h
    have hv := (Curve.exists_recovers_iff hQ.r_lt hQ.s_lt).mp ⟨_, hQ⟩
    have := hQ.r_pos
    have := hQ.r_lt
    have := hQ.s_pos
    have := hQ.s_lt
    rw [hc (bufToBig_nonneg msgHash), hc (by omega), hc (by omega)] at hv
    exact ⟨by omega, by omega, Q, hs, hv⟩
  case mpr =>
    rintro ⟨hr, hs, Q, hst, hv⟩
    rw [←hc (bufToBig_nonneg msgHash), ←hc hr.left.le, ←hc hs.left.le] at hv
    obtain ⟨id, hQ⟩ := (Curve.exists_recovers_iff (by omega) (by omega)).mpr hv
    exact ⟨id, (recoverPublicKey_eq_ok ..).mpr ⟨Q, hst, hQ⟩⟩

end Recover
