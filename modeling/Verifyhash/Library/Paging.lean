import Mathlib

-- A reader walks through a list page by page, until it gets a page which is not full.
namespace Paging

inductive Walk (page : ℕ → Except ε (List α)) (p : ℕ) : ℕ → List α → Prop
  | last :
    (page start = .ok elems) → (elems.length < p) → Walk page p start elems
  | next :
    (page start = .ok elems) → (p ≤ elems.length) → (Walk page p (start + p) rest) →
    Walk page p start (elems ++ rest)

variable {page : ℕ → Except ε (List α)} {l : List α}

theorem Walk.eq_drop (h : ∀ start, page start = .ok ((l.drop start).take p))
    (w : Walk page p start elems) : elems = l.drop start := by
  induction w
  case last start elems hp hl =>
    obtain ⟨rfl⟩ := (h start).symm.trans hp
    simp only [List.length_take, List.length_drop] at hl
    exact List.take_of_length_le <| by simp; omega
  case next start elems rest hp _ _ ih =>
    obtain ⟨rfl⟩ := (h start).symm.trans hp
    rw [ih, ←List.drop_drop, List.take_append_drop]

-- If each page is a window of the list, the walk ends, and has then seen what the list still holds.
theorem walk_iff (h : ∀ start, page start = .ok ((l.drop start).take p)) (hp : 1 ≤ p) :
    Walk page p start elems ↔ elems = l.drop start := by
  refine ⟨Walk.eq_drop h, ?_⟩
  rintro rfl
  induction hn : l.length - start using Nat.strong_induction_on generalizing start
  case h n ih =>
    by_cases hl : ((l.drop start).take p).length < p
    case pos =>
      have w := Walk.last (h start) hl
      rwa [List.take_of_length_le (by simp at hl ⊢; omega)] at w
    case neg =>
      have w := Walk.next (h start) (by omega) <| ih _ (by simp at hl; omega) rfl
      rwa [←List.drop_drop, List.take_append_drop] at w

end Paging
