import Mathlib

-- A pool from which amounts are filled, one after the other, as far as it lasts.
namespace Filling

def fill (pool : ℤ) : List ℤ → List ℤ
  | []      => []
  | a :: as => min pool a :: fill (pool - min pool a) as

@[simp]
theorem length_fill (pool : ℤ) (as : List ℤ) : (fill pool as).length = as.length := by
  induction as generalizing pool
  case nil => rfl
  case cons a as ih => simp [fill, ih]

section

variable {pool : ℤ} (hp : 0 ≤ pool)

include hp

theorem sum_fill_le (as : List ℤ) : (fill pool as).sum ≤ pool := by
  induction as generalizing pool
  case nil => simpa [fill] using hp
  case cons a as ih =>
    have := ih <| sub_nonneg.mpr <| min_le_left pool a
    rw [fill, List.sum_cons]
    omega

-- An amount gets at most as much as it asks for.
theorem forall₂_fill {as : List ℤ} (ha : ∀ a ∈ as, 0 ≤ a) : List.Forall₂ (fun f a => 0 ≤ f ∧ f ≤ a) (fill pool as) as := by
  induction as generalizing pool
  case nil => exact .nil
  case cons a as ih =>
    have ⟨h, ha⟩ := List.forall_mem_cons.mp ha
    exact .cons ⟨le_min hp h, min_le_right ..⟩ <| ih (sub_nonneg.mpr <| min_le_left pool a) ha

-- A pool which covers all of the amounts fills all of them.
theorem fill_eq {as : List ℤ} (ha : ∀ a ∈ as, 0 ≤ a) (h : as.sum ≤ pool) : fill pool as = as := by
  induction as generalizing pool
  case nil => rfl
  case cons a as ih =>
    have ⟨_, ha⟩ := List.forall_mem_cons.mp ha
    have hs := List.sum_nonneg ha
    rw [List.sum_cons] at h
    have hm : min pool a = a := min_eq_right <| by omega
    rw [fill, hm, ih (by omega) ha (by omega)]

end

end Filling
