import Mathlib

-- Weighted sums of the characters of a text, by which single errors in the text are detected: the
-- value of a text is multiplied by the weight of each character which is added to it.
namespace Checksum

variable [CommRing R] (weight digit : α → R)

def eval (s : List α) : R :=
  s.foldl (fun acc a => acc * weight a + digit a) 0

section

variable {weight digit} {s t : List α} {x y : α}

theorem foldl_eq (acc : R) :
    s.foldl (fun acc a => acc * weight a + digit a) acc = acc * (s.map weight).prod + eval weight digit s := by
  induction s generalizing acc
  case nil => simp [eval]
  case cons a s ih =>
    have he : eval weight digit (a :: s) = (0 * weight a + digit a) * (s.map weight).prod + eval weight digit s :=
      ih _
    rw [List.foldl_cons, ih, he, List.map_cons, List.prod_cons]
    ring

theorem eval_append :
    eval weight digit (s ++ t) = eval weight digit s * (t.map weight).prod + eval weight digit t := by
  rw [eval, List.foldl_append]
  exact foldl_eq _

theorem eval_cons :
    eval weight digit (x :: t) = digit x * (t.map weight).prod + eval weight digit t := by
  rw [eval, List.foldl_cons, foldl_eq]
  ring

variable [IsDomain R] (hw : ∀ a, weight a ≠ 0)

include hw in
theorem prod_weight_ne_zero : (s.map weight).prod ≠ 0 := by
  apply List.prod_ne_zero
  rintro h
  obtain ⟨a, _, ha⟩ := List.mem_map.mp h
  exact hw a ha

-- A character is replaced by one of the same weight.
include hw in
theorem eval_replace_ne (hxy : weight x = weight y) (hd : digit x ≠ digit y) :
    eval weight digit (s ++ x :: t) ≠ eval weight digit (s ++ y :: t) := by
  intro h
  rw [eval_append, eval_append, eval_cons, eval_cons, List.map_cons, List.map_cons, List.prod_cons,
    List.prod_cons, hxy, add_right_inj, add_left_inj] at h
  exact hd <| mul_right_cancel₀ (prod_weight_ne_zero hw) h

-- Two neighbours of the same weight are swapped.
include hw in
theorem eval_swap_ne (hxy : weight x = weight y) (hx : weight x ≠ 1) (hd : digit x ≠ digit y) :
    eval weight digit (s ++ x :: y :: t) ≠ eval weight digit (s ++ y :: x :: t) := by
  intro h
  simp only [eval_append, eval_cons, List.map_cons, List.prod_cons, hxy, add_right_inj] at h
  have hz : (digit x - digit y) * (weight y - 1) * (t.map weight).prod = 0 := by linear_combination h
  rcases mul_eq_zero.mp hz with h | h
  case inl =>
    rcases mul_eq_zero.mp h with h | h
    · exact hd <| sub_eq_zero.mp h
    · exact hx <| hxy.trans <| sub_eq_zero.mp h
  case inr => exact prod_weight_ne_zero hw h

end

end Checksum
