import Mathlib

-- Comparators which compare by one key first, and sorting by them.
namespace Comparator

variable {α κ : Type*}

section

variable [LT κ] [DecidableEq κ] (key : α → κ) (r : α → α → Prop)

-- The order by a key, where elements with the same key are in another order.
def By (a b : α) : Prop :=
  if key a ≠ key b then key a < key b else r a b

variable {key r}

theorem by_of_ne (h : key a ≠ key b) : By key r a b ↔ key a < key b := by
  rw [By, if_pos h]

theorem by_of_eq (h : key a = key b) : By key r a b ↔ r a b := by
  rw [By, if_neg <| not_not_intro h]

variable (key r)

instance [Std.Trichotomous fun k l : κ => k < l] [Std.Total r] : Std.Total (By key r) where
  total a b := by
    by_cases h : key a = key b
    case pos =>
      rw [by_of_eq h, by_of_eq h.symm]
      exact Std.Total.total a b
    case neg =>
      rw [by_of_ne h, by_of_ne <| Ne.symm h]
      exact or_iff_not_imp_left.mpr fun hab => by_contra fun hba => h <| Std.Trichotomous.trichotomous _ _ hab hba

instance [IsTrans κ fun k l => k < l] [Std.Irrefl fun k l : κ => k < l] [IsTrans α r] : IsTrans α (By key r) where
  trans a b c hab hbc := by
    by_cases h₁ : key a = key b <;> by_cases h₂ : key b = key c
    case pos =>
      rw [by_of_eq h₁] at hab
      rw [by_of_eq h₂] at hbc
      exact by_of_eq (h₁.trans h₂) |>.mpr <| IsTrans.trans _ _ _ hab hbc
    case neg =>
      rw [by_of_ne h₂, ←h₁] at hbc
      exact by_of_ne (h₁ ▸ h₂) |>.mpr hbc
    case pos =>
      rw [by_of_ne h₁, h₂] at hab
      exact by_of_ne (h₂ ▸ h₁) |>.mpr hab
    case neg =>
      rw [by_of_ne h₁] at hab
      rw [by_of_ne h₂] at hbc
      have hac : key a < key c := IsTrans.trans (r := (· < ·)) _ _ _ hab hbc
      exact by_of_ne (fun h => Std.Irrefl.irrefl (r := (· < ·)) _ (h ▸ hac)) |>.mpr hac

end

section

variable {r : α → α → Prop} [DecidableRel r] [Std.Total r] [IsTrans α r] {f : α → α} {l : List α}

-- Sorting elements which are already replaced and sorted changes nothing.
theorem sort_map_idem (hf : ∀ a, f (f a) = f a) :
    (((l.map f).insertionSort r).map f).insertionSort r = (l.map f).insertionSort r := by
  have hm : ((l.map f).insertionSort r).map f = (l.map f).insertionSort r := by
    refine (List.map_congr_left fun a ha => ?_).trans (List.map_id _)
    rw [List.mem_insertionSort] at ha
    obtain ⟨b, _, rfl⟩ := List.mem_map.mp ha
    exact hf b
  rw [hm]
  exact (List.pairwise_insertionSort r _).insertionSort_eq

end

end Comparator
