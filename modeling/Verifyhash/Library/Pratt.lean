import Mathlib

-- Certificates of primes: for each one a primitive root and the factors of its predecessor, which are
-- certified themselves.
namespace Pratt

-- `b ^ e % m`, if `e` has at most `fuel` bits.
def powMod (m : ℕ) : (fuel b e : ℕ) → ℕ
  | 0,        _, _ => 1 % m
  | fuel + 1, b, e =>
    if e = 0 then 1 % m else (if e % 2 = 1 then b else 1) * powMod m fuel (b * b % m) (e / 2) % m

structure Entry where
  p       : ℕ
  root    : ℕ
  factors : List ℕ

-- The order of the root is `p - 1`, if the factors are prime.
def Entry.check (e : Entry) : Bool :=
  1 < e.p ∧ e.factors.prod + 1 = e.p ∧ e.p ≤ 2 ^ 256 ∧ powMod e.p 256 e.root (e.p - 1) = 1 ∧
    e.factors.all fun q => powMod e.p 256 e.root ((e.p - 1) / q) ≠ 1

-- The factors of an entry are certified by the entries after it.
def certifies : List Entry → Bool
  | []      => true
  | e :: es => e.check ∧ (e.factors.all fun q => q ∈ es.map Entry.p) ∧ certifies es

variable {m fuel b e : ℕ}

theorem powMod_eq (h : e < 2 ^ fuel) : powMod m fuel b e = b ^ e % m := by
  induction fuel generalizing b e
  case zero =>
    obtain rfl : e = 0 := by simpa using h
    rfl
  case succ fuel ih =>
    rw [powMod]
    split_ifs with h₀ h₁
    case pos => rw [h₀, pow_zero]
    case pos =>
      rw [ih (by rw [pow_succ] at h; omega), ←Nat.pow_mod, ←Nat.mul_mod_mod, Nat.mod_mod, Nat.mul_mod_mod, ←sq,
        ←pow_mul, ←pow_succ']
      congr 2
      omega
    case neg =>
      rw [ih (by rw [pow_succ] at h; omega), ←Nat.pow_mod, one_mul, Nat.mod_mod, ←sq, ←pow_mul]
      congr 2
      omega

theorem natCast_pow_eq_one (hm : 1 < m) : (b : ZMod m) ^ e = 1 ↔ b ^ e % m = 1 := by
  rw [←Nat.cast_pow, ←Nat.cast_one, ZMod.natCast_eq_natCast_iff', Nat.mod_eq_of_lt hm]

theorem Entry.prime_of_check {e : Entry} (h : e.check) (hp : ∀ q ∈ e.factors, q.Prime) : e.p.Prime := by
  simp only [Entry.check, decide_eq_true_eq, List.all_eq_true] at h
  obtain ⟨h₁, hf, hle, hr, hd⟩ := h
  refine lucas_primality e.p (e.root : ZMod e.p) ?_ fun q hq hdvd => ?_
  · have hlt : e.p - 1 < 2 ^ 256 := by omega
    rwa [natCast_pow_eq_one h₁, ←powMod_eq hlt]
  · have hq' : q ∣ e.factors.prod := by rwa [←hf, Nat.add_sub_cancel] at hdvd
    obtain ⟨f, hm, hqf⟩ := (hq.prime.dvd_prod_iff).mp hq'
    obtain rfl := (Nat.prime_dvd_prime_iff_eq hq <| hp f hm).mp hqf
    have hlt : (e.p - 1) / q < 2 ^ 256 := lt_of_le_of_lt (Nat.div_le_self ..) (by omega)
    rw [ne_eq, natCast_pow_eq_one h₁, ←powMod_eq hlt]
    exact hd q hm

-- What is certified is prime.
theorem prime_of_certifies {es : List Entry} (h : certifies es) : ∀ e ∈ es, e.p.Prime := by
  induction es
  case nil => simp
  case cons e es ih =>
    simp only [certifies, decide_eq_true_eq, List.all_eq_true] at h
    obtain ⟨hc, hf, he⟩ := h
    refine List.forall_mem_cons.mpr ⟨e.prime_of_check hc fun q hq => ?_, ih he⟩
    obtain ⟨e', he', rfl⟩ := List.mem_map.mp <| hf q hq
    exact ih he e' he'

end Pratt
