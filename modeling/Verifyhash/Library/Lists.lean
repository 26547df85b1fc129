import Mathlib

-- How often values occur in lists which are computed element by element, and sums over parts of lists.
namespace Lists

theorem count_map_le {f : α → β} [DecidableEq β] {l : List α} {key : α → γ} (ks : List γ)
    (hn : (l.map key).Nodup) (h : ∀ a ∈ l, f a = x → key a ∈ ks) : (l.map f).count x ≤ ks.length := by
  have hs : (l.filter (f · = x)).map key ⊆ ks := by
    intro k hk
    obtain ⟨a, ha, rfl⟩ := List.mem_map.mp hk
    have ⟨ha, hx⟩ := List.mem_filter.mp ha
    exact h a ha <| by simpa using hx
  have hn : ((l.filter (f · = x)).map key).Nodup := hn.sublist <| List.filter_sublist.map key
  have := (List.subperm_of_subset hn hs).length_le
  rw [List.length_map, ←List.countP_eq_length_filter] at this
  rwa [List.count, List.countP_map]

-- A sum over a list is the sum of the sums over the elements of each kind.
theorem sum_map_eq [DecidableEq β] (f : α → β) (g : α → ℤ) {l : List α} {s : Finset β} (h : ∀ a ∈ l, f a ∈ s) :
    (l.map g).sum = ∑ k ∈ s, ((l.filter fun a => f a = k).map g).sum := by
  induction l
  case nil => simp
  case cons a l ih =>
    have ⟨ha, h⟩ := List.forall_mem_cons.mp h
    have hk (k : β) : (((a :: l).filter fun a => f a = k).map g).sum =
        (if f a = k then g a else 0) + ((l.filter fun a => f a = k).map g).sum := by
      by_cases hk : f a = k
      case pos => simp [hk]
      case neg => simp [hk]
    simp only [hk, Finset.sum_add_distrib, Finset.sum_ite_eq, ha, if_true, List.map_cons, List.sum_cons, ih h]

section

variable [DecidableEq β] [DecidableEq γ] {f : α → β} {g : α → γ} (l₁ l₂ : List α)

variable {l₁ l₂} in
theorem perm_map (h : ∀ x ∈ l₁ ++ l₂, ∀ y ∈ l₁ ++ l₂, f x = f y ↔ g x = g y)
    (hp : (l₁.map f).Perm (l₂.map f)) : (l₁.map g).Perm (l₂.map g) := by
  rw [List.perm_iff_count]
  intro y
  by_cases hy : ∃ x ∈ l₁ ++ l₂, g x = y
  case pos =>
    obtain ⟨x, hx, rfl⟩ := hy
    have hc {l} (hl : l ⊆ l₁ ++ l₂) : (l.map g).count (g x) = (l.map f).count (f x) := by
      rw [List.count, List.count, List.countP_map, List.countP_map]
      exact List.countP_congr fun y hy => by simpa using (h y (hl hy) x hx).symm
    rw [hc (List.subset_append_left ..), hc (List.subset_append_right ..), hp.count_eq]
  case neg =>
    have hc {l} (hl : l ⊆ l₁ ++ l₂) : (l.map g).count y = 0 :=
      List.count_eq_zero_of_not_mem fun hm =>
        have ⟨x, hx, hg⟩ := List.mem_map.mp hm
        hy ⟨x, hl hx, hg⟩
    rw [hc (List.subset_append_left ..), hc (List.subset_append_right ..)]

theorem perm_map_iff (h : ∀ x ∈ l₁ ++ l₂, ∀ y ∈ l₁ ++ l₂, f x = f y ↔ g x = g y) :
    (l₁.map f).Perm (l₂.map f) ↔ (l₁.map g).Perm (l₂.map g) :=
  ⟨perm_map h, perm_map fun x hx y hy => (h x hx y hy).symm⟩

end

end Lists
