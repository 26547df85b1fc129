import Mathlib

-- Signatures with the points of a group whose scalars form a field.
namespace Ecdsa

variable {K M : Type*} [Field K] [AddCommGroup M] [Module K M]

section

variable (G : M) (abscissa : M → Option K)

-- The key `Q` verifies the signature `(r, s)` of `e`.
structure Verifies (e r s : K) (Q : M) : Prop where
  r_ne     : r ≠ 0
  s_ne     : s ≠ 0
  key_ne   : Q ≠ 0
  abscissa : abscissa ((e / s) • G + (r / s) • Q) = some r

-- The key which is recovered from a signature and its point.
def recovered (e r s : K) (R : M) : M :=
  r⁻¹ • (s • R - e • G)

end

variable {G : M} {abscissa : M → Option K} {e r s d k : K} {Q R : M}

theorem recovered_eq_iff (hr : r ≠ 0) (hs : s ≠ 0) : recovered G e r s R = Q ↔ (e / s) • G + (r / s) • Q = R := by
  have h : (e / s) • G + (r / s) • Q = s⁻¹ • (r • Q + e • G) := by
    rw [smul_add, smul_smul, smul_smul, add_comm, div_eq_inv_mul, div_eq_inv_mul]
  rw [recovered, inv_smul_eq_iff₀ hr, sub_eq_iff_eq_add, h, inv_smul_eq_iff₀ hs]
  exact eq_comm

-- The keys which verify a signature are those which are recovered from the points with its abscissa.
theorem verifies_iff : Verifies G abscissa e r s Q ↔
    r ≠ 0 ∧ s ≠ 0 ∧ Q ≠ 0 ∧ ∃ R, abscissa R = some r ∧ recovered G e r s R = Q := by
  constructor
  case mp =>
    intro h
    exact ⟨h.r_ne, h.s_ne, h.key_ne, _, h.abscissa, (recovered_eq_iff h.r_ne h.s_ne).mpr rfl⟩
  case mpr =>
    rintro ⟨hr, hs, hQ, R, ha, h⟩
    exact ⟨hr, hs, hQ, by rwa [(recovered_eq_iff hr hs).mp h]⟩

theorem recovered_neg : recovered G e r (-s) (-R) = recovered G e r s R := by
  rw [recovered, recovered, neg_smul_neg]

-- The key of the signer is recovered from what is signed with the nonce `k`.
theorem recovered_sign (hk : k ≠ 0) (hr : r ≠ 0) : recovered G e r (k⁻¹ * (e + r * d)) (k • G) = d • G := by
  rw [recovered, smul_smul, ←sub_smul, smul_smul]
  congr 1
  field_simp
  ring

end Ecdsa
