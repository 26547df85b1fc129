import Verifyhash.Verifier.Curve
import Verifyhash.VerifierRs.Secp256k1
import Verifyhash.VerifierRs.Theorems.Field

-- The arithmetic with points is that of the group of the curve.
namespace Secp256k1

open FieldArith U256 ShortCurve
open Curve (Group natCoords natCoords_eq_some G)

theorem val_P : P.val = Curve.p := by
  decide

theorem val_N : N.val = Curve.n := by
  decide

theorem exact_P : Exact P :=
  exact_of_prime prime_P (by decide)

-- The element of the field which a number stands for.
def fe (a : U256) : ZMod Curve.p :=
  (a.val : ZMod Curve.p)

def Reduced (a : U256) : Prop :=
  a.val < Curve.p

variable {fuel : ℕ} {a b x y x1 y1 x2 y2 : U256}

theorem fe_inj (ha : Reduced a) (hb : Reduced b) (h : fe a = fe b) : a = b := by
  refine val_inj ?_
  have := (ZMod.natCast_eq_natCast_iff' a.val b.val Curve.p).mp h
  rwa [Nat.mod_eq_of_lt ha, Nat.mod_eq_of_lt hb] at this

theorem is_zero_iff (a : U256) : a.is_zero ↔ a.val = 0 := by
  rw [is_zero, decide_eq_true_eq]
  constructor
  case mp =>
    intro h
    rw [val, h]
    rfl
  case mpr => exact fun h => congrArg limbs <| val_inj <| h.trans val_ZERO.symm

theorem is_zero_iff_fe (ha : Reduced a) : a.is_zero ↔ fe a = 0 := by
  rw [is_zero_iff]
  constructor
  case mp =>
    intro h
    rw [fe, h, Nat.cast_zero]
  case mpr => exact fun h => Nat.eq_zero_of_dvd_of_lt (ZMod.natCast_eq_zero_iff _ _ |>.mp h) ha

theorem add_mod_spec (ha : Reduced a) (hb : Reduced b) : Reduced (add_mod a b P) ∧ fe (add_mod a b P) = fe a + fe b := by
  have h := exact_P.add a b (by rwa [val_P]) (by rwa [val_P])
  rw [val_P] at h
  refine ⟨h.trans_lt <| Nat.mod_lt _ Curve.prime_p.pos, ?_⟩
  rw [fe, h, ZMod.natCast_mod, Nat.cast_add, fe, fe]

theorem sub_mod_spec (ha : Reduced a) (hb : Reduced b) : Reduced (sub_mod a b P) ∧ fe (sub_mod a b P) = fe a - fe b := by
  have h := exact_P.sub a b (by rwa [val_P]) (by rwa [val_P])
  rw [val_P] at h
  have hpos : (0 : ℤ) < Curve.p := by exact_mod_cast Curve.prime_p.pos
  constructor
  case left =>
    have := Int.emod_lt_of_pos ((a.val : ℤ) - b.val) hpos
    rw [←h] at this
    exact_mod_cast this
  case right =>
    have hc := congrArg (Int.cast : ℤ → ZMod Curve.p) h
    rw [ZMod.intCast_mod, Int.cast_natCast, Int.cast_sub, Int.cast_natCast, Int.cast_natCast] at hc
    exact hc

theorem mul_mod_spec (a b : U256) : Reduced (mul_mod a b P) ∧ fe (mul_mod a b P) = fe a * fe b := by
  have h := exact_P.mul a b
  rw [val_P] at h
  refine ⟨h.trans_lt <| Nat.mod_lt _ Curve.prime_p.pos, ?_⟩
  rw [fe, h, ZMod.natCast_mod, Nat.cast_mul, fe, fe]

theorem pow_mod_spec (a e : U256) : Reduced (pow_mod a e P) ∧ fe (pow_mod a e P) = fe a ^ e.val := by
  have h := exact_P.pow a e
  rw [val_P] at h
  refine ⟨h.trans_lt <| Nat.mod_lt _ Curve.prime_p.pos, ?_⟩
  rw [fe, h, ZMod.natCast_mod, Nat.cast_pow, fe]

-- There is an inverse of every number which is not zero.
theorem inv_mod_spec (hf : 2 ^ 257 ≤ fuel) (h : fe a ≠ 0) : ∃ b, inv_mod fuel a P = some b ∧ fe a * fe b = 1 := by
  have hv : a.val % P.val ≠ 0 := by
    rw [val_P]
    exact fun h₀ => h <| (ZMod.natCast_eq_zero_iff _ _).mpr <| Nat.dvd_of_mod_eq_zero h₀
  obtain ⟨b, hb, -, hm⟩ := exact_P.inv a hv fuel hf
  refine ⟨b, hb, ?_⟩
  rw [val_P] at hm
  have := congrArg (Nat.cast : ℕ → ZMod Curve.p) hm
  rwa [ZMod.natCast_mod, Nat.cast_mul, Nat.cast_one] at this

-- The point which a pair of numbers stands for.
def Stands (q : Point) (Q : Group) : Prop :=
  q.map (fun c => (c.fst.val, c.snd.val)) = natCoords Q

variable {p1 p2 : Point} {Q Q₁ Q₂ : Group} {lambda : U256}

theorem stands_none : Stands none Q ↔ Q = 0 := by
  rw [Stands, Option.map_none, eq_comm, Curve.natCoords_eq_none]

theorem stands_some : Stands (some (x, y)) Q ↔ Reduced x ∧ Reduced y ∧ coords Q = some (fe x, fe y) := by
  rw [Stands, Option.map_some, eq_comm, natCoords_eq_some]
  rfl

-- The inverse which `slope` asks for exists unless the points are opposite.
theorem slope_spec (hf : 2 ^ 257 ≤ fuel) (h₁ : Stands (some (x1, y1)) Q₁) (h₂ : Stands (some (x2, y2)) Q₂)
    (h : ¬ (fe x1 = fe x2 ∧ fe y1 + fe y2 = 0)) :
    ∃ m, slope fuel x1 y1 x2 y2 = some m ∧
      fe m * run (fe x1) (fe y1) (fe x2) (fe y2) = rise (fe x1) (fe y1) (fe x2) (fe y2) := by
  obtain ⟨hx₁, hy₁, hc₁⟩ := stands_some.mp h₁
  obtain ⟨hx₂, hy₂, hc₂⟩ := stands_some.mp h₂
  have hr := run_ne_zero hc₁ hc₂ h
  have hs : fe x1 = fe x2 ∧ fe y1 = fe y2 ↔ x1 = x2 ∧ y1 = y2 :=
    and_congr ⟨fe_inj hx₁ hx₂, congrArg fe⟩ ⟨fe_inj hy₁ hy₂, congrArg fe⟩
  rw [run] at hr ⊢
  rw [rise, slope]
  by_cases he : x1 = x2 ∧ y1 = y2
  case pos =>
    rw [if_pos <| hs.mpr he] at hr ⊢
    rw [if_pos he, if_pos <| hs.mpr he]
    have hd := add_mod_spec hy₁ hy₁
    rw [←two_mul] at hd
    obtain ⟨i, hi, hm⟩ := inv_mod_spec (a := add_mod y1 y1 P) hf (by rwa [hd.right])
    have hq := mul_mod_spec x1 x1
    have ht := add_mod_spec hq.left hq.left
    have ht' := add_mod_spec ht.left hq.left
    refine ⟨mul_mod (add_mod (add_mod (mul_mod x1 x1 P) (mul_mod x1 x1 P) P) (mul_mod x1 x1 P) P) i P, ?_, ?_⟩
    · simp only [hi, Option.bind_eq_bind, Option.bind_some]
      rfl
    · rw [hd.right] at hm
      rw [(mul_mod_spec _ i).right, ht'.right, ht.right, hq.right]
      linear_combination (3 * fe x1 ^ 2) * hm
  case neg =>
    rw [if_neg <| mt hs.mp he] at hr ⊢
    rw [if_neg he, if_neg <| mt hs.mp he]
    have hd := sub_mod_spec hx₂ hx₁
    obtain ⟨i, hi, hm⟩ := inv_mod_spec (a := sub_mod x2 x1 P) hf (by rwa [hd.right])
    refine ⟨mul_mod (sub_mod y2 y1 P) i P, ?_, ?_⟩
    · simp only [hi, Option.bind_eq_bind, Option.bind_some]
      rfl
    · rw [hd.right] at hm
      rw [(mul_mod_spec _ i).right, (sub_mod_spec hy₂ hy₁).right]
      linear_combination (fe y2 - fe y1) * hm

-- The sum by the slope of a line through the points.
theorem third_point (hx₁ : Reduced x1) (hy₁ : Reduced y1) (hx₂ : Reduced x2)
    (hc : coords Q = some (fe lambda ^ 2 - fe x1 - fe x2, fe lambda * (fe x1 - (fe lambda ^ 2 - fe x1 - fe x2)) - fe y1)) :
    let x3 := sub_mod (sub_mod (mul_mod lambda lambda P) x1 P) x2 P
    Stands (some (x3, sub_mod (mul_mod lambda (sub_mod x1 x3 P) P) y1 P)) Q := by
  intro x3
  have hq := mul_mod_spec lambda lambda
  have h₁ := sub_mod_spec hq.left hx₁
  have h₂ := sub_mod_spec h₁.left hx₂
  have h₃ := sub_mod_spec hx₁ h₂.left
  have hm := mul_mod_spec lambda (sub_mod x1 x3 P)
  have hy := sub_mod_spec hm.left hy₁
  refine stands_some.mpr ⟨h₂.left, hy.left, ?_⟩
  rw [hc, hy.right, hm.right, h₃.right, h₂.right, h₁.right, hq.right, sq]

-- `point_add` returns the sum.
theorem point_add_spec (hf : 2 ^ 257 ≤ fuel) (h₁ : Stands p1 Q₁) (h₂ : Stands p2 Q₂) :
    ∃ q, point_add fuel p1 p2 = some q ∧ Stands q (Q₁ + Q₂) := by
  rcases p1 with _ | ⟨x1, y1⟩
  case none =>
    rw [stands_none.mp h₁, zero_add]
    exact ⟨p2, by cases p2 <;> rfl, h₂⟩
  case some =>
    rcases p2 with _ | ⟨x2, y2⟩
    case none =>
      rw [stands_none.mp h₂, add_zero]
      exact ⟨_, rfl, h₁⟩
    case some =>
      obtain ⟨hx₁, hy₁, hc₁⟩ := stands_some.mp h₁
      obtain ⟨hx₂, hy₂, hc₂⟩ := stands_some.mp h₂
      have hs := add_mod_spec hy₁ hy₂
      have hz : x1 = x2 ∧ (add_mod y1 y2 P).is_zero ↔ fe x1 = fe x2 ∧ fe y1 + fe y2 = 0 := by
        rw [is_zero_iff_fe hs.left, hs.right]
        exact and_congr_left' ⟨congrArg fe, fe_inj hx₁ hx₂⟩
      rw [point_add]
      by_cases h : fe x1 = fe x2 ∧ fe y1 + fe y2 = 0
      case pos =>
        rw [if_pos <| hz.mpr h, add_opposite hc₁ (h.left ▸ hc₂) h.right]
        exact ⟨_, rfl, stands_none.mpr rfl⟩
      case neg =>
        obtain ⟨m, hm, hl⟩ := slope_spec hf h₁ h₂ h
        rw [if_neg <| mt hz.mp h, hm]
        exact ⟨_, rfl, third_point hx₁ hy₁ hx₂ <| coords_add hc₁ hc₂ h hl⟩

-- After the bits from `i` on, the result is the multiple by what they spell.
theorem scalarLoop_spec (hf : 2 ^ 257 ≤ fuel) {k : U256} {point result : Point} {m : ℕ} (hp : Stands point Q)
    (hr : Stands result (m • Q)) :
    ∃ q, scalarLoop fuel k point i result = some q ∧ Stands q ((m * 2 ^ i + k.val % 2 ^ i) • Q) := by
  induction i generalizing result m
  case zero =>
    refine ⟨result, rfl, ?_⟩
    rwa [pow_zero, mul_one, Nat.mod_one, add_zero]
  case succ i ih =>
    have hk := Nat.mod_pow_succ (x := k.val) (b := 2) (k := i)
    have hb := bit_iff k i
    obtain ⟨d, hd, hD⟩ := point_add_spec hf hr hr
    rw [←two_nsmul, smul_smul] at hD
    simp only [scalarLoop, hd, Option.bind_eq_bind, Option.bind_some]
    by_cases h : k.bit i
    case pos =>
      obtain ⟨q, hq, hQ⟩ := point_add_spec hf hD hp
      nth_rewrite 2 [←one_nsmul Q] at hQ
      rw [←add_nsmul] at hQ
      rw [if_pos h, hq]
      obtain ⟨q', hq', hQ'⟩ := ih hQ
      refine ⟨q', hq', ?_⟩
      rw [hb.mp h] at hk
      convert hQ' using 2
      rw [hk]
      ring
    case neg =>
      rw [if_neg h]
      obtain ⟨q', hq', hQ'⟩ := ih hD
      refine ⟨q', hq', ?_⟩
      have h₀ : k.val / 2 ^ i % 2 = 0 := by
        rw [hb] at h
        omega
      rw [h₀] at hk
      convert hQ' using 2
      rw [hk]
      ring

-- `scalar_mul` returns the multiple, and the reduction of the factor does not change it.
theorem scalar_mul_spec (hf : 2 ^ 257 ≤ fuel) {k : U256} {point : Point} (hp : Stands point Q) :
    ∃ q, scalar_mul fuel k point = some q ∧ Stands q (k.val • Q) := by
  have hr : (reduce_once k N).val = k.val % Curve.n := by
    rw [val_reduce_once (by decide), val_N]
  have hlt : (reduce_once k N).val < 2 ^ 256 := val_lt _
  obtain ⟨q, hq, hQ⟩ := scalarLoop_spec (i := 256) (k := reduce_once k N) hf hp
    (by rw [zero_nsmul]; exact stands_none.mpr rfl : Stands none (0 • Q))
  refine ⟨q, hq, ?_⟩
  rwa [zero_mul, zero_add, Nat.mod_eq_of_lt hlt, hr, Curve.mod_nsmul] at hQ

theorem val_sqrt_exponent : sqrt_exponent.val = (Curve.p + 1) / 4 := by
  decide

theorem toNat_low_bit (x : U256) : (x.limbs.headD 0 &&& 1).toNat = x.val % 2 := by
  have h := is_even_iff x
  rw [is_even, decide_eq_true_eq] at h
  have hl : (x.limbs.headD 0 &&& 1).toNat < 2 := by
    rw [UInt64.toNat_and]
    exact Nat.and_lt_two_pow _ (n := 1) (by decide)
  have h₀ : (x.limbs.headD 0 &&& 1).toNat = 0 ↔ x.limbs.headD 0 &&& 1 = 0 := by
    rw [←UInt64.toNat_inj]
    rfl
  rw [←h₀] at h
  omega

-- The point with the abscissa `x` and the parity, if there is one.
theorem lift_x_spec {parity : UInt64} (hx : Reduced x) (hp : parity.toNat < 2) :
    (∃ y Q, lift_x x parity = some (x, y) ∧ Stands (some (x, y)) Q ∧ y.val % 2 = parity.toNat) ∨
      lift_x x parity = none ∧ ∀ (Q : Group) y, natCoords Q ≠ some (x.val, y) := by
  have hsq := mul_mod_spec x x
  have hcu := mul_mod_spec (mul_mod x x P) x
  have h7 : Reduced ⟨[7, 0, 0, 0], rfl⟩ := by
    rw [Reduced]
    decide
  have hal := add_mod_spec hcu.left h7
  have h7v : fe ⟨[7, 0, 0, 0], rfl⟩ = 7 := by
    rw [fe]
    exact congrArg Nat.cast (by decide : val ⟨[7, 0, 0, 0], rfl⟩ = 7)
  rw [hcu.right, hsq.right, h7v] at hal
  have halpha : fe (add_mod (mul_mod (mul_mod x x P) x P) ⟨[7, 0, 0, 0], rfl⟩ P) = fe x ^ 3 + 7 := by
    rw [hal.right]
    ring
  have hroot := pow_mod_spec (add_mod (mul_mod (mul_mod x x P) x P) ⟨[7, 0, 0, 0], rfl⟩ P) sqrt_exponent
  rw [halpha, val_sqrt_exponent] at hroot
  rw [lift_x]
  generalize add_mod (mul_mod (mul_mod x x P) x P) ⟨[7, 0, 0, 0], rfl⟩ P = alpha at *
  have hy := mul_mod_spec (pow_mod alpha sqrt_exponent P) (pow_mod alpha sqrt_exponent P)
  generalize pow_mod alpha sqrt_exponent P = y at *
  by_cases h : mul_mod y y P = alpha
  case pos =>
    have he : fe y ^ 2 = fe x ^ 3 + 7 := by rw [sq, ←hy.right, h, halpha]
    have hne : fe y ≠ 0 := fun h₀ => Curve.cube_ne (fe x) <| by rw [←he, h₀, sq, mul_zero]
    have hpos : 0 < y.val := Nat.pos_of_ne_zero fun h₀ => hne <| by rw [fe, h₀, Nat.cast_zero]
    have hlt : y.val < Curve.p := hroot.left
    have hodd : Curve.p % 2 = 1 := by decide
    obtain ⟨Q, hQ⟩ := Curve.exists_point he
    rw [if_neg (not_not.mpr h)]
    refine .inl ?_
    have hbit : y.limbs.headD 0 &&& 1 = parity ↔ y.val % 2 = parity.toNat := by
      rw [←UInt64.toNat_inj, toNat_low_bit]
    by_cases hb : y.val % 2 = parity.toNat
    case pos =>
      rw [if_neg (not_not.mpr <| hbit.mpr hb)]
      exact ⟨y, Q, rfl, stands_some.mpr ⟨hx, hlt, hQ⟩, hb⟩
    case neg =>
      rw [if_pos <| mt hbit.mp hb]
      have hv : (P.sbb y).fst.val = Curve.p - y.val := by
        rw [val_sbb_of_le (by rw [val_P]; exact hlt.le), val_P]
      have hf : fe (P.sbb y).fst = -fe y := by
        rw [fe, hv, Nat.cast_sub hlt.le, ZMod.natCast_self, zero_sub, fe]
      refine ⟨_, -Q, rfl, stands_some.mpr ⟨hx, ?_, ?_⟩, ?_⟩
      · rw [Reduced, hv]
        omega
      · rw [hf]
        exact coords_neg hQ
      · rw [hv]
        omega
  case neg =>
    rw [if_pos h]
    refine .inr ⟨rfl, fun Q z hz => h ?_⟩
    obtain ⟨-, -, hc⟩ := natCoords_eq_some.mp hz
    have he := equation_of_coords hc
    refine fe_inj hy.left hal.left ?_
    rw [hy.right, hroot.right, halpha, ←sq]
    exact Curve.root_sq he

theorem stands_neg {q : Point} (h : Stands q Q) : Stands (q.map fun c => (c.fst, (P.sbb c.snd).fst)) (-Q) := by
  rcases q with _ | ⟨x, y⟩
  case none =>
    rw [stands_none.mp h, neg_zero]
    exact stands_none.mpr rfl
  case some =>
    obtain ⟨hx, hy, hc⟩ := stands_some.mp h
    have hlt : y.val < Curve.p := hy
    have hv : (P.sbb y).fst.val = Curve.p - y.val := by
      rw [val_sbb_of_le (by rw [val_P]; exact hlt.le), val_P]
    have hf : fe (P.sbb y).fst = -fe y := by
      rw [fe, hv, Nat.cast_sub hlt.le, ZMod.natCast_self, zero_sub, fe]
    have hpos : 0 < y.val := Nat.pos_of_ne_zero fun h₀ => Curve.cube_ne (fe x) <| by
      rw [←equation_of_coords hc, fe, h₀, Nat.cast_zero, sq, mul_zero]
    refine stands_some.mpr ⟨hx, ?_, ?_⟩
    · rw [Reduced, hv]
      omega
    · rw [hf]
      exact coords_neg hc

variable {r s : U256} {rec_id : UInt8}

theorem shift_eq_one : rec_id >>> 1 = 1 ↔ rec_id.toNat / 2 = 1 := by
  rw [←UInt8.toNat_inj, UInt8.toNat_shiftRight]
  exact Iff.rfl

theorem abscissa_spec (hr : r.val < Curve.n) (hid : rec_id.toNat ≤ 3) :
    (∃ x, abscissa r rec_id = some x ∧ Reduced x ∧ x.val = r.val + rec_id.toNat / 2 * Curve.n) ∨
      abscissa r rec_id = none ∧ Curve.p ≤ r.val + rec_id.toNat / 2 * Curve.n := by
  have hp : Curve.n < Curve.p ∧ Curve.p < 2 ^ 256 := by decide
  rw [abscissa]
  by_cases h : rec_id.toNat / 2 = 1
  case pos =>
    rw [if_pos <| (shift_eq_one).mpr h, h, one_mul]
    obtain ⟨hv, hc⟩ := adc_spec r N
    have hg := ge_iff (r.adc N).fst P
    rw [val_N] at hv hc
    rw [val_P] at hg
    rcases hs : r.adc N with ⟨sum, carry⟩
    rw [hs] at hv hc hg
    dsimp only at hv hc hg ⊢
    by_cases hb : carry ∨ sum.ge P
    case pos =>
      rw [if_pos hb]
      refine .inr ⟨rfl, ?_⟩
      rcases hb with hb | hb
      case inl =>
        have := hc.mp hb
        omega
      case inr =>
        have := hg.mp hb
        have := Nat.mod_le (r.val + Curve.n) (2 ^ 256)
        omega
    case neg =>
      rw [not_or, hc, hg, not_le, not_le] at hb
      rw [if_neg (by rw [not_or, hc, hg, not_le, not_le]; exact hb)]
      exact .inl ⟨sum, rfl, hb.right, by rw [hv, Nat.mod_eq_of_lt hb.left]⟩
  case neg =>
    have h₀ : rec_id.toNat / 2 = 0 := by omega
    have hlt : r.val < Curve.p := hr.trans hp.left
    rw [if_neg <| mt (shift_eq_one).mp h, h₀, zero_mul, add_zero, if_neg]
    · exact .inl ⟨r, rfl, hlt, rfl⟩
    · rw [ge_iff, val_P]
      omega

theorem point_spec (hr : r.val < Curve.n) (hid : rec_id.toNat ≤ 3) :
    (∃ q R, (abscissa r rec_id).bind (fun x => lift_x x (rec_id &&& 1).toUInt64) = some q ∧ Stands (some q) R ∧
      Curve.IsPoint r.val rec_id.toNat R) ∨
      (abscissa r rec_id).bind (fun x => lift_x x (rec_id &&& 1).toUInt64) = none ∧
        ∀ R, ¬ Curve.IsPoint r.val rec_id.toNat R := by
  have hb : (rec_id &&& 1).toUInt64.toNat = rec_id.toNat % 2 := by
    rw [UInt8.toNat_toUInt64, UInt8.toNat_and]
    exact Nat.and_one_is_mod _
  rcases abscissa_spec hr hid with ⟨x, hx, hxr, hv⟩ | ⟨hx, hle⟩ <;> rw [hx]
  case inl =>
    rw [Option.bind_some]
    rcases lift_x_spec hxr (by omega : (rec_id &&& 1).toUInt64.toNat < 2) with ⟨y, Q, hl, hs, hy⟩ | ⟨hl, hn⟩
    case inl =>
      refine .inl ⟨_, Q, hl, hs, y.val, ?_, by rw [hy, hb]⟩
      rw [←hv]
      exact hs.symm
    case inr =>
      refine .inr ⟨hl, ?_⟩
      rintro R ⟨y, hc, -⟩
      exact hn R y <| by rw [hc, hv]
  case inr =>
    refine .inr ⟨rfl, ?_⟩
    rintro R ⟨y, hc, -⟩
    have := (natCoords_eq_some.mp hc).left
    omega

theorem stands_generator : Stands (some (GX, GY)) G := by
  refine stands_some.mpr ⟨?_, ?_, ?_⟩
  · rw [Reduced]
    decide
  · rw [Reduced]
    decide
  · rw [Curve.coords_G, fe, fe, (by decide : GX.val = Curve.gx), (by decide : GY.val = Curve.gy)]

theorem inv_scalar (hf : 2 ^ 257 ≤ fuel) (h₀ : 0 < r.val) (hr : r.val < Curve.n) :
    ∃ b, inv_mod fuel r N = some b ∧ (b.val : ZMod Curve.n) = (r.val : ZMod Curve.n)⁻¹ := by
  have hv : r.val % N.val ≠ 0 := by
    rw [val_N, Nat.mod_eq_of_lt hr]
    omega
  obtain ⟨b, hb, -, hm⟩ := (exact_of_prime prime_N (by decide)).inv r hv fuel hf
  refine ⟨b, hb, eq_inv_of_mul_eq_one_right ?_⟩
  rw [val_N] at hm
  have := congrArg (Nat.cast : ℕ → ZMod Curve.n) hm
  rwa [ZMod.natCast_mod, Nat.cast_mul, Nat.cast_one] at this

theorem recoverFrom_eq (msg_hash : Digest) (point_r : Point) : recoverFrom fuel msg_hash r s point_r =
    (inv_mod fuel r N).bind fun r_inv => (scalar_mul fuel s point_r).bind fun s_r =>
      (scalar_mul fuel (reduce_once (from_be_bytes msg_hash) N) <| some (GX, GY)).bind fun e_g =>
        (point_add fuel s_r <| e_g.map fun c => (c.fst, (P.sbb c.snd).fst)).bind <| scalar_mul fuel r_inv :=
  rfl

theorem recoverFrom_spec (hf : 2 ^ 257 ≤ fuel) (msg_hash : Digest) {point_r : Point} {R : Group} (h₀ : 0 < r.val)
    (hr : r.val < Curve.n) (hR : Stands point_r R) :
    ∃ q, recoverFrom fuel msg_hash r s point_r = some q ∧
      Stands q (Ecdsa.recovered G ((from_be_bytes msg_hash).val : ZMod Curve.n) (r.val : ZMod Curve.n)
        (s.val : ZMod Curve.n) R) := by
  rw [recoverFrom_eq]
  generalize from_be_bytes msg_hash = e
  obtain ⟨b, hb, hbv⟩ := inv_scalar hf h₀ hr
  obtain ⟨sR, hsR, hSR⟩ := scalar_mul_spec (k := s) hf hR
  obtain ⟨eG, heG, hEG⟩ := scalar_mul_spec (k := reduce_once e N) hf stands_generator
  rw [val_reduce_once (by decide), val_N, Curve.mod_nsmul] at hEG
  obtain ⟨d, hd, hD⟩ := point_add_spec hf hSR (stands_neg hEG)
  obtain ⟨q, hq, hQ⟩ := scalar_mul_spec (k := b) hf hD
  refine ⟨q, ?_, ?_⟩
  · rw [hb, Option.bind_some, hsR, Option.bind_some, heG, Option.bind_some, hd, Option.bind_some, hq]
  · rwa [Ecdsa.recovered, ←hbv, Nat.cast_smul_eq_nsmul, Nat.cast_smul_eq_nsmul, Nat.cast_smul_eq_nsmul, sub_eq_add_neg]

theorem out_of_range {a : U256} : a.is_zero ∨ a.ge N ↔ ¬ (0 < a.val ∧ a.val < Curve.n) := by
  rw [is_zero_iff, ge_iff, val_N]
  omega

-- The recovery is that of the group, and it does not run out of fuel.
theorem recover_pubkey_spec (hf : 2 ^ 257 ≤ fuel) (msg_hash : Digest) (r s : U256) (rec_id : UInt8) :
    ∃ q, recover_pubkey fuel msg_hash r s rec_id = some q ∧
      ((∃ Q, Curve.Recovers (from_be_bytes msg_hash).val r.val s.val rec_id.toNat Q ∧ Stands q Q) ∨
        q = none ∧ ∀ Q, ¬ Curve.Recovers (from_be_bytes msg_hash).val r.val s.val rec_id.toNat Q) := by
  rw [recover_pubkey]
  by_cases hr : 0 < r.val ∧ r.val < Curve.n
  case neg =>
    rw [if_pos <| out_of_range.mpr hr]
    exact ⟨none, rfl, .inr ⟨rfl, fun Q h => hr ⟨h.r_pos, h.r_lt⟩⟩⟩
  case pos =>
    rw [if_neg <| out_of_range.not_left.mpr hr]
    by_cases hs : 0 < s.val ∧ s.val < Curve.n
    case neg =>
      rw [if_pos <| out_of_range.mpr hs]
      exact ⟨none, rfl, .inr ⟨rfl, fun Q h => hs ⟨h.s_pos, h.s_lt⟩⟩⟩
    case pos =>
      rw [if_neg <| out_of_range.not_left.mpr hs]
      have h3 : rec_id > 3 ↔ ¬ rec_id.toNat ≤ 3 := by
        rw [gt_iff_lt, UInt8.lt_iff_toNat_lt, not_le]
        exact Iff.rfl
      by_cases hid : rec_id.toNat ≤ 3
      case neg =>
        rw [if_pos <| h3.mpr hid]
        exact ⟨none, rfl, .inr ⟨rfl, fun Q h => hid h.id_le⟩⟩
      case pos =>
        rw [if_neg <| h3.not_left.mpr hid]
        rcases point_spec hr.right hid with ⟨q, R, hq, hR, hi⟩ | ⟨hq, hn⟩ <;> rw [hq]
        case inr =>
          refine ⟨none, rfl, .inr ⟨rfl, fun Q h => ?_⟩⟩
          obtain ⟨R, hR, -⟩ := h.exists_point
          exact hn R hR
        case inl =>
          obtain ⟨q', hq', hQ⟩ := recoverFrom_spec (s := s) hf msg_hash hr.left hr.right hR
          refine ⟨q', hq', ?_⟩
          by_cases h₀ : Ecdsa.recovered G ((from_be_bytes msg_hash).val : ZMod Curve.n) (r.val : ZMod Curve.n)
              (s.val : ZMod Curve.n) R = 0
          case pos =>
            refine .inr ⟨?_, fun Q h => ?_⟩
            · rw [h₀, Stands, Curve.natCoords_zero, Option.map_eq_none_iff] at hQ
              exact hQ
            · obtain ⟨R', hR', rfl⟩ := h.exists_point
              exact h.key_ne <| by rwa [hR'.unique hi]
          case neg => exact .inl ⟨_, ⟨hr.left, hr.right, hs.left, hs.right, hid, h₀, R, hi, rfl⟩, hQ⟩

theorem recover_personal_sign_eq (fuel : ℕ) (message : Bytes) {sig : Bytes} (h : sig.length = 65) :
    recover_personal_sign fuel message sig =
      (recover_pubkey fuel (eip191_hash message) (from_be_bytes ⟨sig.take 32, by simp [h]⟩)
        (from_be_bytes ⟨(sig.drop 32).take 32, by simp [h]⟩) <| recIdOf <| sig.getD 64 0).bind fun q => some <| q.map address := by
  rw [recover_personal_sign, dif_pos h]
  rfl

end Secp256k1
