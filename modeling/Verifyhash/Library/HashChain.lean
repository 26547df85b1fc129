import Mathlib

-- Chains whose items name the digest of the item before them.
namespace HashChain

variable {α δ : Type*} (digest prev : α → δ)

-- A chain from one digest to another one.
def Linked : δ → List α → δ → Prop
  | d, [], e      => d = e
  | d, x :: xs, e => prev x = d ∧ Linked (digest x) xs e

variable {digest prev} {xs ys : List α} {d e : δ}

theorem Linked.concat_iff : Linked digest prev d (xs ++ [x]) e ↔
    Linked digest prev d xs (prev x) ∧ digest x = e := by
  induction xs generalizing d
  case nil         => simp [Linked, eq_comm]
  case cons _ _ ih => simp [Linked, ih, and_assoc]

-- The last digest fixes all items, also if the chains may have different lengths.
theorem Linked.inj (hd : ∀ x ∈ xs ++ ys, digest x ≠ d)
    (hi : ∀ x ∈ xs ++ ys, ∀ y ∈ xs ++ ys, digest x = digest y → x = y)
    (hx : Linked digest prev d xs e) (hy : Linked digest prev d ys e) : xs = ys := by
  induction xs using List.reverseRecOn generalizing ys e
  case nil =>
    rcases ys.eq_nil_or_concat' with rfl | ⟨ys, y, rfl⟩
    case inl => rfl
    case inr =>
      obtain rfl : d = e := hx
      exact absurd (concat_iff.mp hy).right <| hd y (by simp)
  case append_singleton xs x ih =>
    have ⟨hx, he⟩ := concat_iff.mp hx
    rcases ys.eq_nil_or_concat' with rfl | ⟨ys, y, rfl⟩
    case inl =>
      obtain rfl : d = e := hy
      exact absurd he <| hd x (by simp)
    case inr =>
      have ⟨hy, he'⟩ := concat_iff.mp hy
      obtain rfl := hi x (by simp) y (by simp) <| he.trans he'.symm
      have hs : xs ++ ys ⊆ xs ++ [x] ++ (ys ++ [x]) := by
        intro z hz
        simp only [List.mem_append] at hz ⊢
        tauto
      have := ih (fun z hz => hd z <| hs hz) (fun z hz w hw => hi z (hs hz) w <| hs hw) hx hy
      rw [this]

end HashChain
