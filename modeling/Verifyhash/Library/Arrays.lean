import Mathlib

-- Loops which replace elements of an array, one after the other.
namespace Arrays

variable {α : Type u} {ι : Type v} {n : ℕ}

-- The element at `key i` is replaced for each `i`, in turn.
def overwrite (l : List ι) (key : ι → Fin n) (f : ι → α → α) (a : Vector α n) : Vector α n :=
  l.foldl (fun a i => a.set (key i) <| f i a[key i]) a

variable {l : List ι} {key : ι → Fin n} {f : ι → α → α}

theorem getElem_overwrite_ne {k : Fin n} (h : k ∉ l.map key) (a : Vector α n) : (overwrite l key f a)[k] = a[k] := by
  induction l generalizing a
  case nil => rfl
  case cons i l ih =>
    have ⟨hi, h⟩ := not_or.mp <| mt List.mem_cons.mpr h
    rw [overwrite, List.foldl_cons]
    refine (ih h _).trans ?_
    exact Vector.getElem_set_ne _ _ <| by simpa [Fin.ext_iff] using Ne.symm hi

-- If the loop writes no element twice, each of them is computed from the value which it had before.
theorem getElem_overwrite (hk : (l.map key).Nodup) (h : i ∈ l) (a : Vector α n) :
    (overwrite l key f a)[key i] = f i a[key i] := by
  induction l generalizing a
  case nil => exact absurd h List.not_mem_nil
  case cons j l ih =>
    have ⟨hj, hk⟩ := List.nodup_cons.mp hk
    cases List.mem_cons.mp h
    case inl h =>
      subst h
      exact (getElem_overwrite_ne hj _).trans <| Vector.getElem_set_self _
    case inr h =>
      have : key j ≠ key i := fun he => hj <| List.mem_map.mpr ⟨_, h, he.symm⟩
      refine (ih hk h _).trans <| congrArg (f i) ?_
      exact Vector.getElem_set_ne _ _ <| by simpa [Fin.ext_iff] using this

end Arrays
