import Mathlib

-- What holds of the result of a computation which can throw, whether it is a value or a failure.
namespace Fallible

def Ensures (E : ε → Prop) (P : α → Prop) : Except ε α → Prop
  | .ok a    => P a
  | .error e => E e

section

variable {E : ε → Prop} {P P' : α → Prop} {Q : β → Prop} {x : Except ε α} {f : α → Except ε β}

theorem ensures_pure (h : P a) : Ensures E P (pure a) :=
  h

theorem Ensures.bind (hx : Ensures E P x) (hf : ∀ a, P a → Ensures E Q (f a)) : Ensures E Q (x >>= f) := by
  cases x
  case error => exact hx
  case ok a  => exact hf a hx

theorem Ensures.mono (hx : Ensures E P x) (h : ∀ a, P a → P' a) : Ensures E P' x := by
  cases x
  case error => exact hx
  case ok a  => exact h a hx

theorem Ensures.of_ok (hx : Ensures E P x) (h : x = .ok a) : P a := by
  subst h
  exact hx

theorem Ensures.of_error (hx : Ensures E P x) (h : x = .error e) : E e := by
  subst h
  exact hx

-- The value of a computation satisfies whatever else is known of it.
theorem Ensures.with_eq (hx : Ensures E P x) : Ensures E (fun a => x = .ok a ∧ P a) x := by
  cases x
  case error => exact hx
  case ok a  => exact ⟨rfl, hx⟩

end

end Fallible
