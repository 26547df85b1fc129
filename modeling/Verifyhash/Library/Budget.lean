import Mathlib

-- Computations which spend a budget, and fail when it is exceeded.
namespace Budget

variable {α β : Type} {limit : ℕ}

-- A computation which spends `cost` and returns `a` on a condition, and fails otherwise.
structure Spends (limit : ℕ) (x : StateT ℕ Option α) (p : Prop) (cost : ℕ) (a : α) : Prop where
  returns : p → n + cost ≤ limit → x.run n = some (a, n + cost)
  fails   : n ≤ limit → ¬ (p ∧ n + cost ≤ limit) → x.run n = none

theorem Spends.pure (a : α) : Spends limit (Pure.pure a) True 0 a where
  returns _ _ := rfl
  fails hn h  := absurd ⟨trivial, hn⟩ h

theorem Spends.bind {x : StateT ℕ Option α} {f : α → StateT ℕ Option β} (hx : Spends limit x p c a)
    (hf : Spends limit (f a) q d b) : Spends limit (x >>= f) (p ∧ q) (c + d) b where
  returns h hn := by
    rw [StateT.run_bind, hx.returns h.left (by omega), Option.bind_eq_bind, Option.bind_some,
      hf.returns h.right (by omega), Nat.add_assoc]
  fails {n} hn h := by
    rw [StateT.run_bind]
    by_cases hp : p ∧ n + c ≤ limit
    case pos =>
      rw [hx.returns hp.left hp.right, Option.bind_eq_bind, Option.bind_some]
      exact hf.fails hp.right fun hq => h ⟨⟨hp.left, hq.left⟩, by omega⟩
    case neg => rw [hx.fails hn hp, Option.bind_eq_bind, Option.bind_none]

-- What is made of the result costs nothing.
theorem Spends.returning {x : StateT ℕ Option α} (h : Spends limit x p c a) (f : α → β) :
    Spends limit (x >>= fun a => Pure.pure (f a)) p c (f a) where
  returns hp hn := by rw [StateT.run_bind, h.returns hp hn, Option.bind_eq_bind, Option.bind_some]; rfl
  fails hn hp := by rw [StateT.run_bind, h.fails hn hp, Option.bind_eq_bind, Option.bind_none]

theorem Spends.congr {x : StateT ℕ Option α} (h : Spends limit x p c a) (hp : p ↔ q) (hc : c = d) :
    Spends limit x q d a := by
  rwa [←hp, ←hc]

theorem Spends.mapM {f : α → StateT ℕ Option β} {l : List α} {p : α → Prop} {c : α → ℕ} {g : α → β}
    (h : ∀ a ∈ l, Spends limit (f a) (p a) (c a) (g a)) :
    Spends limit (l.mapM f) (∀ a ∈ l, p a) (l.map c).sum (l.map g) := by
  induction l
  case nil => exact (Spends.pure []).congr (by simp) rfl
  case cons a l ih =>
    have ⟨ha, hl⟩ := List.forall_mem_cons.mp h
    rw [List.mapM_cons]
    refine (ha.bind <| (ih hl).returning (g a :: ·)).congr ?_ ?_
    · rw [List.forall_mem_cons]
    · rw [List.map_cons, List.sum_cons]

end Budget
