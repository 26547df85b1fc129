import Mathlib

-- A run of a state machine folds its step function over the inputs.
namespace Runs

variable {step : σ → ι → σ} {P : σ → Prop}

-- A property which holds after a run, but not before it, was entered for good by one of the steps.
theorem exists_entry (h₀ : ¬P s) (h : P (ts.foldl step s)) :
    ∃ pre t post, ts = pre ++ t :: post ∧ ¬P (pre.foldl step s) ∧
      ∀ mid, mid <+: post → P ((pre ++ t :: mid).foldl step s) := by
  induction ts using List.reverseRecOn
  case nil => contradiction
  case append_singleton ts t ih =>
    by_cases ht : P (ts.foldl step s)
    case pos =>
      obtain ⟨pre, u, post, rfl, hp, hm⟩ := ih ht
      refine ⟨pre, u, post ++ [t], by simp, hp, fun mid hmid => ?_⟩
      rcases List.prefix_concat_iff.mp hmid with rfl | hmid
      · simpa using h
      · exact hm mid hmid
    case neg =>
      refine ⟨ts, t, [], by simp, ht, fun mid hmid => ?_⟩
      rwa [List.prefix_nil.mp hmid]

end Runs
