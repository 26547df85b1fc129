import Verifyhash.VerifierRs.Moduli

-- What the operations on four limbs compute.
namespace FieldArith

open U256

namespace U256

variable {a b : U256}

theorem val_lt (a : U256) : a.val < 2 ^ 256 := by
  have := Limbs.value_lt a.limbs
  rwa [a.length] at this

theorem val_inj (h : a.val = b.val) : a = b := by
  cases a
  cases b
  congr
  exact Limbs.value_inj (by simp [*]) h

theorem val_ONE : ONE.val = 1 :=
  rfl

theorem val_ZERO : ZERO.val = 0 :=
  rfl

theorem adc_spec (a b : U256) : (a.adc b).fst.val = (a.val + b.val) % 2 ^ 256 ∧
    ((a.adc b).snd ↔ 2 ^ 256 ≤ a.val + b.val) := by
  have h := (@Limbs.adc_spec a.limbs b.limbs 0 <| a.length.trans b.length.symm).right
  have hl := (a.adc b).fst.val_lt
  have ha := a.val_lt
  have hb := b.val_lt
  rw [a.length] at h
  simp only [adc, val, decide_eq_true_eq] at *
  omega

theorem sbb_spec (a b : U256) : ((a.sbb b).snd ↔ a.val < b.val) ∧
    ((a.sbb b).fst.val : ℤ) = a.val - b.val + if a.val < b.val then 2 ^ 256 else 0 := by
  have ⟨_, h₁, h₂⟩ := Limbs.sbb_spec (a.length.trans b.length.symm) (.inl rfl)
  have hl := (a.sbb b).fst.val_lt
  have ha := a.val_lt
  have hb := b.val_lt
  rw [a.length] at h₂
  simp only [sbb, val, decide_eq_true_eq] at *
  split_ifs <;> omega

theorem ge_iff (a b : U256) : a.ge b ↔ b.val ≤ a.val := by
  rw [ge, cmp, Limbs.cmp_eq (a.length.trans b.length.symm), Ordering.isGE_iff_ne_lt]
  exact (not_congr compare_lt_iff_lt).trans not_lt

theorem val_shr1 (a : U256) : a.shr1.val = a.val / 2 :=
  (Limbs.shr1_spec a.limbs).right

theorem val_setTop (h : a.val < 2 ^ 255) : a.setTop.val = a.val + 2 ^ 255 := by
  have hl := a.length
  have hne : a.limbs ≠ [] := List.ne_nil_of_length_pos <| by omega
  have := Limbs.value_setTop hne
  rw [hl] at this
  exact this h

theorem is_even_iff (a : U256) : a.is_even ↔ a.val % 2 = 0 := by
  obtain ⟨limbs, hl⟩ := a
  cases limbs
  case nil => cases hl
  case cons l ls =>
    have hb : (l &&& 1).toNat = l.toNat % 2 := by
      rw [UInt64.toNat_and]
      exact Nat.and_one_is_mod _
    have hd : l &&& 1 = 0 ↔ l.toNat % 2 = 0 := by
      rw [←UInt64.toNat_inj, hb]
      rfl
    rw [is_even, List.headD_cons, decide_eq_true_eq, hd, val, Limbs.value]
    omega

theorem bit_iff (a : U256) (i : ℕ) : a.bit i ↔ a.val / 2 ^ i % 2 = 1 := by
  rw [bit, Limbs.bit_eq, Nat.testBit_eq_decide_div_mod_eq, decide_eq_true_eq]
  rfl

end U256

section

variable {a b m x : U256} {fuel i : ℕ}

theorem val_reduce_once (hm : 2 ^ 256 ≤ 2 * m.val) : (reduce_once a m).val = a.val % m.val := by
  have ha := a.val_lt
  have ⟨_, hs⟩ := sbb_spec a m
  rw [reduce_once]
  by_cases h : m.val ≤ a.val
  case pos =>
    rw [if_pos <| (ge_iff a m).mpr h, Nat.mod_eq_sub_mod h, Nat.mod_eq_of_lt (by omega)]
    rw [if_neg (by omega)] at hs
    omega
  case neg => rw [if_neg <| mt (ge_iff a m).mp h, Nat.mod_eq_of_lt (by omega)]

theorem val_add_mod (ha : a.val < m.val) (hb : b.val < m.val) : (add_mod a b m).val = (a.val + b.val) % m.val := by
  have hm := m.val_lt
  obtain ⟨hv, hc⟩ := U256.adc_spec a b
  rw [add_mod]
  generalize a.adc b = r at hv hc
  obtain ⟨s, carry⟩ := r
  have ⟨_, hs⟩ := sbb_spec s m
  have hlt := s.val_lt
  dsimp only at hv hc ⊢
  have hg := ge_iff s m
  by_cases h : m.val ≤ a.val + b.val
  case pos =>
    have hcond : carry ∨ s.ge m := by
      rw [hc, hg]
      omega
    rw [if_pos hcond, Nat.mod_eq_sub_mod h, Nat.mod_eq_of_lt (by omega)]
    split_ifs at hs <;> omega
  case neg =>
    have hcond : ¬ (carry ∨ s.ge m) := by
      rw [hc, hg]
      omega
    rw [if_neg hcond, Nat.mod_eq_of_lt (by omega), hv, Nat.mod_eq_of_lt (by omega)]

theorem val_sub_mod (ha : a.val < m.val) (hb : b.val < m.val) :
    ((sub_mod a b m).val : ℤ) = ((a.val : ℤ) - b.val) % m.val := by
  have hm := m.val_lt
  obtain ⟨hc, hv⟩ := U256.sbb_spec a b
  rw [sub_mod]
  generalize a.sbb b = r at hv hc
  obtain ⟨d, borrow⟩ := r
  have ⟨hs, _⟩ := U256.adc_spec d m
  dsimp only at hv hc ⊢
  by_cases h : a.val < b.val
  case pos =>
    rw [if_pos h] at hv
    rw [if_pos (hc.mpr h), ←Int.add_emod_right, Int.emod_eq_of_lt (by omega) (by omega)]
    omega
  case neg =>
    rw [if_neg h] at hv
    rw [if_neg (mt hc.mp h), Int.emod_eq_of_lt (by omega) (by omega)]
    omega

theorem add_mod_lt (ha : a.val < m.val) (hb : b.val < m.val) : (add_mod a b m).val < m.val := by
  rw [val_add_mod ha hb]
  exact Nat.mod_lt _ (by omega)

-- After the bits from `i` on, the sum stands for what they contribute.
theorem val_mulLoop {acc : U256} (ha : a.val < m.val) (hc : acc.val < m.val) :
    (mulLoop a b m i acc).val = (acc.val * 2 ^ i + a.val * (b.val % 2 ^ i)) % m.val := by
  induction i generalizing acc
  case zero => simp [mulLoop, Nat.mod_one, Nat.mod_eq_of_lt hc]
  case succ i ih =>
    have hd := val_add_mod hc hc
    have hdl := add_mod_lt hc hc
    rw [mulLoop, Nat.mod_pow_succ]
    by_cases hb : b.bit i
    case pos =>
      rw [if_pos hb, ih (add_mod_lt hdl ha), val_add_mod hdl ha, hd, (bit_iff b i).mp hb]
      have h₁ : ((acc.val + acc.val) % m.val + a.val) % m.val ≡ acc.val + acc.val + a.val [MOD m.val] :=
        (Nat.mod_modEq _ _).trans <| (Nat.mod_modEq _ _).add_right _
      have h₂ := (h₁.mul_right (2 ^ i)).add_right (a.val * (b.val % 2 ^ i))
      refine Eq.trans h₂ ?_
      congr 1
      ring
    case neg =>
      have hz : b.val / 2 ^ i % 2 = 0 := by
        have := mt (bit_iff b i).mpr hb
        omega
      rw [if_neg hb, ih hdl, hd, hz]
      have h₂ := ((Nat.mod_modEq (acc.val + acc.val) m.val).mul_right (2 ^ i)).add_right (a.val * (b.val % 2 ^ i))
      refine Eq.trans h₂ ?_
      congr 1
      ring

theorem val_mul_mod (hm : 2 ^ 256 ≤ 2 * m.val) : (mul_mod a b m).val = a.val * b.val % m.val := by
  have hr := val_reduce_once (a := a) hm
  have hlt : (reduce_once a m).val < m.val := by
    rw [hr]
    exact Nat.mod_lt _ (by omega)
  rw [mul_mod, val_mulLoop hlt (by rw [val_ZERO]; omega), val_ZERO, Nat.zero_mul, Nat.zero_add,
    Nat.mod_eq_of_lt b.val_lt, hr, Nat.mod_mul_mod]

theorem val_powLoop {exp result : U256} (hm : 2 ^ 256 ≤ 2 * m.val) (hr : result.val < m.val) :
    (powLoop a exp m i result).val = result.val ^ 2 ^ i * a.val ^ (exp.val % 2 ^ i) % m.val := by
  induction i generalizing result
  case zero => simp [powLoop, Nat.mod_one, Nat.mod_eq_of_lt hr]
  case succ i ih =>
    have hsq := val_mul_mod (a := result) (b := result) hm
    have hpos : 0 < m.val := by omega
    rw [powLoop, Nat.mod_pow_succ]
    by_cases hb : exp.bit i
    case pos =>
      have hv := val_mul_mod (a := mul_mod result result m) (b := a) hm
      rw [if_pos hb, ih (by rw [hv]; exact Nat.mod_lt _ hpos), hv, hsq, (bit_iff exp i).mp hb]
      have h₁ : result.val * result.val % m.val * a.val % m.val ≡ result.val * result.val * a.val [MOD m.val] :=
        (Nat.mod_modEq _ _).trans <| (Nat.mod_modEq _ _).mul_right _
      refine Eq.trans ((h₁.pow (2 ^ i)).mul_right _) ?_
      congr 1
      ring
    case neg =>
      have hz : exp.val / 2 ^ i % 2 = 0 := by
        have := mt (bit_iff exp i).mpr hb
        omega
      rw [if_neg hb, ih (by rw [hsq]; exact Nat.mod_lt _ hpos), hsq, hz]
      refine Eq.trans (((Nat.mod_modEq _ _).pow (2 ^ i)).mul_right _) ?_
      congr 1
      ring

theorem val_pow_mod {exp : U256} (hm : 2 ^ 256 ≤ 2 * m.val) : (pow_mod a exp m).val = a.val ^ exp.val % m.val := by
  rw [pow_mod, val_powLoop hm (by rw [val_ONE]; omega), val_ONE, one_pow, one_mul, Nat.mod_eq_of_lt exp.val_lt,
    val_reduce_once hm, ←Nat.pow_mod]

theorem val_half_mod (hx : x.val < m.val) (hm : m.val % 2 = 1) :
    (half_mod x m).val = if x.val % 2 = 0 then x.val / 2 else (x.val + m.val) / 2 := by
  have he := is_even_iff x
  have hlt := m.val_lt
  obtain ⟨hv, hc⟩ := U256.adc_spec x m
  rw [half_mod]
  generalize x.adc m = r at hv hc
  obtain ⟨s, carry⟩ := r
  dsimp only at hv hc ⊢
  by_cases h : x.val % 2 = 0
  case pos => rw [if_pos (he.mpr h), if_pos h, val_shr1]
  case neg =>
    have hs := val_shr1 s
    have hsl := s.val_lt
    rw [if_neg (mt he.mp h), if_neg h]
    cases carry
    case false =>
      have : ¬ 2 ^ 256 ≤ x.val + m.val := by simpa using hc
      rw [if_neg (by simp)]
      omega
    case true =>
      have : 2 ^ 256 ≤ x.val + m.val := by simpa using hc
      rw [if_pos rfl, val_setTop (by omega)]
      omega

-- The half of a residue, and what it is twice.
theorem half_mod_spec (hx : x.val < m.val) (hm : m.val % 2 = 1) :
    (half_mod x m).val < m.val ∧ 2 * (half_mod x m).val ≡ x.val [MOD m.val] := by
  rw [val_half_mod hx hm]
  split_ifs with h
  case pos =>
    have h₂ : 2 * (x.val / 2) = x.val := by omega
    exact ⟨by omega, by rw [h₂]⟩
  case neg =>
    have h₂ : 2 * ((x.val + m.val) / 2) = x.val + m.val := by omega
    refine ⟨by omega, ?_⟩
    rw [h₂]
    exact Nat.add_modEq_right

-- The number whose inverse is asked for, times a coefficient, is congruent to a remainder. Halving the
-- remainder keeps this.
theorem halve_spec {A : ℕ} {u : U256} (hm : m.val % 2 = 1) (hu : 0 < u.val) (hx : x.val < m.val)
    (hb : A * x.val ≡ u.val [MOD m.val]) (hf : u.val ≤ fuel) :
    ∃ u' x', halve m fuel u x = some (u', x') ∧ u'.val ∣ u.val ∧ u'.val % 2 = 1 ∧ x'.val < m.val ∧
      A * x'.val ≡ u'.val [MOD m.val] := by
  induction fuel generalizing u x
  case zero => omega
  case succ fuel ih =>
    rw [halve]
    by_cases h : u.val % 2 = 0
    case pos =>
      rw [if_pos ((is_even_iff u).mpr h)]
      have ⟨hl, h₂⟩ := half_mod_spec hx hm
      have hs := val_shr1 u
      have hu₂ : u.val = 2 * u.shr1.val := by omega
      have hc : Nat.gcd m.val 2 = 1 := Nat.coprime_two_right.mpr <| Nat.odd_iff.mpr hm
      have hb' : 2 * (A * (half_mod x m).val) ≡ 2 * u.shr1.val [MOD m.val] := calc
        _ = A * (2 * (half_mod x m).val) := by ring
        _ ≡ A * x.val [MOD m.val]        := h₂.mul_left A
        _ ≡ u.val [MOD m.val]            := hb
        _ = 2 * u.shr1.val               := hu₂
      obtain ⟨u', x', he, hd, ho, hlt, hb''⟩ := ih (by omega) hl (hb'.cancel_left_of_coprime hc) (by omega)
      exact ⟨u', x', he, hd.trans <| hu₂ ▸ Dvd.intro_left 2 rfl, ho, hlt, hb''⟩
    case neg =>
      rw [if_neg (mt (is_even_iff u).mp h)]
      exact ⟨u, x, rfl, dvd_refl _, by omega, hx, hb⟩

-- The invariant of the loop: the remainders are coprime, and each one is a multiple of the number.
structure Bezout (A : ℕ) (m u v x1 x2 : U256) : Prop where
  coprime : Nat.Coprime u.val v.val
  lt₁     : x1.val < m.val
  lt₂     : x2.val < m.val
  left    : A * x1.val ≡ u.val [MOD m.val]
  right   : A * x2.val ≡ v.val [MOD m.val]

theorem val_sbb_of_le (h : b.val ≤ a.val) : (a.sbb b).fst.val = a.val - b.val := by
  have ⟨_, hv⟩ := sbb_spec a b
  rw [if_neg (by omega)] at hv
  omega

theorem bezout_sub {A u v : ℕ} (ha : a.val < m.val) (hb : b.val < m.val) (hu : A * a.val ≡ u [MOD m.val])
    (hv : A * b.val ≡ v [MOD m.val]) (h : v ≤ u) :
    (sub_mod a b m).val < m.val ∧ A * (sub_mod a b m).val ≡ u - v [MOD m.val] := by
  have hs := val_sub_mod ha hb
  have hpos : (0 : ℤ) < m.val := by omega
  have hl := Int.emod_lt_of_pos ((a.val : ℤ) - b.val) hpos
  refine ⟨by omega, ?_⟩
  rw [←Int.natCast_modEq_iff] at hu hv ⊢
  push_cast [Nat.cast_sub h] at hu hv ⊢
  calc
    _ = (A : ℤ) * (((a.val : ℤ) - b.val) % m.val)    := by rw [hs]
    _ ≡ A * ((a.val : ℤ) - b.val) [ZMOD m.val]       := (Int.mod_modEq _ _).mul_left _
    _ = A * a.val - A * b.val                        := by ring
    _ ≡ u - v [ZMOD m.val]                           := hu.sub hv

-- The loop ends with an inverse, as the sum of the remainders gets smaller.
theorem invLoop_spec {A : ℕ} {u v x1 x2 : U256} (hm : m.val % 2 = 1) (h : Bezout A m u v x1 x2)
    (hf : u.val + v.val < fuel) :
    ∃ b, invLoop m fuel u v x1 x2 = some b ∧ b.val < m.val ∧ A * b.val ≡ 1 [MOD m.val] := by
  induction fuel generalizing u v x1 x2
  case zero => omega
  case succ fuel ih =>
    rw [invLoop]
    split_ifs with hne hu
    case pos =>
      have hu₁ : u.val ≠ 1 := fun hu => hne.left <| val_inj hu
      have hv₁ : v.val ≠ 1 := fun hv => hne.right <| val_inj hv
      have hu₀ : 0 < u.val := by
        refine Nat.pos_of_ne_zero fun hz => hv₁ ?_
        have := h.coprime
        rwa [hz, Nat.coprime_zero_left] at this
      have hv₀ : 0 < v.val := by
        refine Nat.pos_of_ne_zero fun hz => hu₁ ?_
        have := h.coprime
        rwa [hz, Nat.coprime_zero_right] at this
      obtain ⟨u', x1', he₁, hd₁, ho₁, hl₁, hb₁⟩ :=
        halve_spec hm hu₀ h.lt₁ h.left (by omega : u.val ≤ fuel)
      obtain ⟨v', x2', he₂, hd₂, ho₂, hl₂, hb₂⟩ :=
        halve_spec hm hv₀ h.lt₂ h.right (by omega : v.val ≤ fuel)
      have hle₁ := Nat.le_of_dvd hu₀ hd₁
      have hle₂ := Nat.le_of_dvd hv₀ hd₂
      have hco : Nat.Coprime u'.val v'.val := (h.coprime.coprime_dvd_left hd₁).coprime_dvd_right hd₂
      rw [he₁, he₂]
      dsimp only [Option.bind_eq_bind, Option.bind_some]
      by_cases hge : v'.val ≤ u'.val
      case pos =>
        rw [if_pos ((ge_iff u' v').mpr hge)]
        have hs := val_sbb_of_le hge
        have ⟨hl, hb⟩ := bezout_sub hl₁ hl₂ hb₁ hb₂ hge
        refine ih ⟨?_, hl, hl₂, by rwa [hs], hb₂⟩ (by omega)
        rw [hs]
        exact (Nat.coprime_sub_self_left hge).mpr hco
      case neg =>
        rw [if_neg (mt (ge_iff u' v').mp hge)]
        have hle : u'.val ≤ v'.val := by omega
        have hs := val_sbb_of_le hle
        have ⟨hl, hb⟩ := bezout_sub hl₂ hl₁ hb₂ hb₁ hle
        refine ih ⟨?_, hl₁, hl, hb₁, by rwa [hs]⟩ (by omega)
        rw [hs]
        exact (Nat.coprime_sub_self_right hle).mpr hco
    case pos =>
      subst hu
      exact ⟨x1, rfl, h.lt₁, h.left⟩
    case neg =>
      obtain rfl : v = ONE := by
        by_contra hv
        exact hne ⟨hu, hv⟩
      exact ⟨x2, rfl, h.lt₂, h.right⟩

-- What is asked of the arithmetic with a modulus.
structure Exact (m : U256) : Prop where
  add : ∀ a b : U256, a.val < m.val → b.val < m.val → (add_mod a b m).val = (a.val + b.val) % m.val
  sub : ∀ a b : U256, a.val < m.val → b.val < m.val → ((sub_mod a b m).val : ℤ) = ((a.val : ℤ) - b.val) % m.val
  mul : ∀ a b, (mul_mod a b m).val = a.val * b.val % m.val
  pow : ∀ a e, (pow_mod a e m).val = a.val ^ e.val % m.val
  inv : ∀ a : U256, a.val % m.val ≠ 0 → ∀ fuel ≥ 2 ^ 257,
    ∃ b, inv_mod fuel a m = some b ∧ b.val < m.val ∧ a.val * b.val % m.val = 1

theorem exact_of_prime (hp : m.val.Prime) (hm : 2 ^ 256 ≤ 2 * m.val) : Exact m where
  add _ _ := val_add_mod
  sub _ _ := val_sub_mod
  mul _ _ := val_mul_mod hm
  pow _ _ := val_pow_mod hm
  inv a ha fuel hf := by
    have hr := val_reduce_once (a := a) hm
    have hlt : (reduce_once a m).val < m.val := by
      rw [hr]
      exact Nat.mod_lt _ hp.pos
    have hm₂ := m.val_lt
    have hodd : m.val % 2 = 1 := hp.eq_two_or_odd.resolve_left (by omega)
    have hco : Nat.Coprime (reduce_once a m).val m.val := by
      refine (Nat.coprime_of_lt_prime ?_ hlt hp).symm
      omega
    have hi : Bezout a.val m (reduce_once a m) m ONE ZERO := {
      coprime := hco
      lt₁     := by rw [val_ONE]; omega
      lt₂     := by rw [val_ZERO]; omega
      left    := by rw [val_ONE, mul_one, hr]; exact (Nat.mod_modEq _ _).symm
      right   := by rw [val_ZERO, mul_zero]; exact (Nat.modEq_zero_iff_dvd.mpr dvd_rfl).symm
    }
    obtain ⟨b, he, hl, hb⟩ := invLoop_spec hodd hi (by omega : _ < fuel)
    exact ⟨b, he, hl, Eq.trans hb <| Nat.mod_eq_of_lt (by omega)⟩

end

-- The arithmetic is exact for both moduli of the curve.
theorem exact_moduli : Exact P ∧ Exact N :=
  ⟨exact_of_prime prime_P (by decide), exact_of_prime prime_N (by decide +kernel)⟩

end FieldArith
