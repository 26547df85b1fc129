import Verifyhash.Library.PairTree.Rooted

namespace PairTree

-- The second list repeats the last element of the first one, which has no neighbour there.
def Doubled (l l' : List δ) : Prop :=
  Odd l.length ∧ ∃ x, l.getLast? = some x ∧ l' = l ++ [x]

namespace Doubled

variable {l l' : List δ} {node : δ → δ → δ}

theorem length (h : Doubled l l') : l'.length = l.length + 1 := by
  obtain ⟨_, _, _, rfl⟩ := h
  simp

theorem map (h : Doubled l l') (f : δ → ε) : Doubled (l.map f) (l'.map f) := by
  obtain ⟨ho, x, hx, rfl⟩ := h
  exact ⟨by simpa using ho, f x, by simp [hx], by simp⟩

theorem append_left (h : Doubled l l') {m : List δ} (hm : Even m.length) :
    Doubled (m ++ l) (m ++ l') := by
  obtain ⟨ho, x, hx, rfl⟩ := h
  refine ⟨?_, x, ?_, by simp⟩
  · rw [List.length_append]
    exact hm.add_odd ho
  · rw [List.getLast?_append, hx]
    rfl

theorem next_eq (h : Doubled l l') : next node l = next node l' := by
  obtain ⟨ho, x, hx, rfl⟩ := h
  obtain ⟨m, rfl⟩ := List.getLast?_eq_some_iff.mp hx
  have hm : Even m.length := by simpa [Nat.odd_add_one] using ho
  rw [List.append_assoc, next, next, pairs_append hm, pairs_append hm]
  rfl

-- Trees over at least two leaves have the same root then.
theorem top_eq (h : Doubled l l') (hl : 1 < l.length) :
    top (layers node l) = top (layers node l') := by
  have hl' : 1 < l'.length := by rw [h.length]; omega
  rw [top_layers_of_lt hl, top_layers_of_lt hl', h.next_eq]

end Doubled

variable {S : Scheme ι α δ} [LinearOrder δ] {is : List ι} {l l' l₁ l₂ : List δ}

namespace Rooted

theorem height_ne_zero (h : Rooted S is k l x) (h' : Rooted S is k l' x') (hd : Doubled l l') :
    k ≠ 0 := by
  rintro rfl
  have hp := h.length_pos
  have hl := h'.length_le
  rw [hd.length] at hl
  omega

variable {R : δ → δ → Prop} (hr : ∀ x y, R x y → R y x → x = y)

include hr

-- If each leaf of the left half is also one of the right half and the other way around, the order of
-- the leaves makes all of them equal.
theorem eq_singleton (hs : (l₁ ++ l₂).Pairwise R) (hm : ∀ x ∈ l₁, ∀ y ∈ l₂, R y x)
    (hc : ∀ x, (l₁ ++ l₂).count x ≤ 2) (h₁ : l₁ ≠ []) (h₂ : l₂ ≠ []) : ∃ x, l₁ = [x] ∧ l₂ = [x] := by
  have ⟨_, _, hs⟩ := List.pairwise_append.mp hs
  have he : ∀ x ∈ l₁, ∀ y ∈ l₂, x = y := fun x hx y hy => hr x y (hs x hx y hy) (hm x hx y hy)
  obtain ⟨x, l₁, rfl⟩ := List.exists_cons_of_ne_nil h₁
  obtain ⟨y, l₂, rfl⟩ := List.exists_cons_of_ne_nil h₂
  obtain rfl := he x (by simp) y (by simp)
  have hc := hc x
  have e₁ : ∀ y ∈ x :: l₁, y = x := fun y hy => he y hy x (by simp)
  have e₂ : ∀ y ∈ x :: l₂, y = x := fun y hy => (he x (by simp) y hy).symm
  rw [List.eq_replicate_of_mem e₁, List.eq_replicate_of_mem e₂] at hc
  simp only [List.length_cons, List.count_append, List.count_replicate_self] at hc
  obtain rfl : l₁ = [] := List.eq_nil_of_length_eq_zero (by omega)
  obtain rfl : l₂ = [] := List.eq_nil_of_length_eq_zero (by omega)
  exact ⟨x, rfl, rfl⟩

-- A pair of two nodes is only the pair of a node with itself if the latter is the last leaf.
theorem doubled_of_pair_self (c : CollisionFree S.hash is) (hs : (l₁ ++ l₂).Pairwise R)
    (hc : ∀ x, (l₁ ++ l₂).count x ≤ 2) (hk : l₁.length = 2 ^ k) (h : Rooted S is k l x)
    (h₁ : Rooted S is k l₁ x) (h₂ : Rooted S is k l₂ x) : Doubled l (l₁ ++ l₂) := by
  have hm : ∀ y ∈ l₁, ∀ z ∈ l₂, R z y := by
    intro y hy z hz
    have hy := mem_iff c h₁ h₂ rfl y |>.mp hy
    have hz := mem_iff c h₁ h₂ rfl z |>.mpr hz
    have ⟨_, _, hs⟩ := List.pairwise_append.mp hs
    exact hs z hz y hy
  obtain ⟨y, rfl, rfl⟩ := eq_singleton hr hs hm hc h₁.ne_nil h₂.ne_nil
  have hl := h.length_le
  have hp := h.length_pos
  rw [List.length_singleton] at hk
  obtain ⟨z, rfl⟩ := List.length_eq_one_iff.mp (show l.length = 1 by omega)
  have hz := mem_iff c h h₁ rfl z |>.mp (by simp)
  rw [List.mem_singleton] at hz
  exact ⟨⟨0, rfl⟩, z, rfl, hz ▸ rfl⟩

-- The root binds ordered leaves, none of which occurs more than twice, up to a repeated last leaf.
theorem eq_or_doubled (c : CollisionFree S.hash is) (hs : l.Pairwise R) (hs' : l'.Pairwise R)
    (hc : ∀ x, l.count x ≤ 2) (hc' : ∀ x, l'.count x ≤ 2) (h : Rooted S is k l x)
    (h' : Rooted S is k l' x') (hx : x = x') : l = l' ∨ Doubled l l' ∨ Doubled l' l := by
  induction h generalizing l' x'
  case single =>
    cases h'
    case single => exact .inl <| hx ▸ rfl
  case lone h hp ih =>
    cases h'
    case lone hp' h' => exact ih hs hs' hc hc' h' (Scheme.pair_self_eq c hp hp' hx).left
    case both hp' hk h₁ h₂ =>
      obtain ⟨rfl, rfl⟩ := Scheme.pair_self_eq c hp hp' hx
      exact .inr <| .inl <| doubled_of_pair_self hr c hs' hc' hk h h₁ h₂
  case both k l₁ x₁ l₂ x₂ hk h₁ h₂ hp ih₁ ih₂ =>
    cases h'
    case lone hp' h' =>
      obtain ⟨rfl, rfl⟩ := Scheme.pair_self_eq c hp' hp hx.symm
      exact .inr <| .inr <| doubled_of_pair_self hr c hs hc hk h' h₁ h₂
    case both l₁' x₁' l₂' x₂' hp' hk' h₁' h₂' =>
      have ⟨hs₁, hs₂, hr₁₂⟩ := List.pairwise_append.mp hs
      have ⟨hs₁', hs₂', hr₁₂'⟩ := List.pairwise_append.mp hs'
      rcases Scheme.pair_eq c hp hp' hx with ⟨he₁, he₂⟩ | ⟨he₁, he₂⟩
      -- The halves correspond to each other.
      case inl =>
        simp only [List.count_append] at hc hc'
        have hc₁ (x) := (Nat.le_add_right ..).trans (hc x)
        have hc₂ (x) := (Nat.le_add_left ..).trans (hc x)
        have hc₁' (x) := (Nat.le_add_right ..).trans (hc' x)
        have hc₂' (x) := (Nat.le_add_left ..).trans (hc' x)
        obtain rfl : l₁ = l₁' := by
          rcases ih₁ hs₁ hs₁' hc₁ hc₁' h₁' he₁ with h | h | h
          · exact h
          all_goals
            have := h.length
            omega
        rcases ih₂ hs₂ hs₂' hc₂ hc₂' h₂' he₂ with rfl | h | h
        · exact .inl rfl
        · have hk₀ := h₂.height_ne_zero h₂' h
          exact .inr <| .inl <| h.append_left <| hk ▸ (Nat.even_pow' hk₀).mpr even_two
        · have hk₀ := h₂'.height_ne_zero h₂ h
          exact .inr <| .inr <| h.append_left <| hk ▸ (Nat.even_pow' hk₀).mpr even_two
      -- Each half corresponds to the opposite one, so there are only two equal leaves.
      case inr =>
        have hm : ∀ y ∈ l₁, ∀ z ∈ l₂, R z y := fun y hy z hz =>
          hr₁₂' z (mem_iff c h₂ h₁' he₂ z |>.mp hz) y (mem_iff c h₁ h₂' he₁ y |>.mp hy)
        have hm' : ∀ y ∈ l₁', ∀ z ∈ l₂', R z y := fun y hy z hz =>
          hr₁₂ z (mem_iff c h₁ h₂' he₁ z |>.mpr hz) y (mem_iff c h₂ h₁' he₂ y |>.mpr hy)
        obtain ⟨y, rfl, rfl⟩ := eq_singleton hr hs hm hc h₁.ne_nil h₂.ne_nil
        obtain ⟨z, rfl, rfl⟩ := eq_singleton hr hs' hm' hc' h₁'.ne_nil h₂'.ne_nil
        have hy := mem_iff c h₁ h₂' he₁ y |>.mp (by simp)
        exact .inl <| List.mem_singleton.mp hy ▸ rfl

end Rooted

end PairTree
