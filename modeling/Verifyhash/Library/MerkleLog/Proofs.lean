import Verifyhash.Library.MerkleLog.Basic

namespace MerkleLog

-- The sides of the nodes on the way up from leaf `i` in a tree of `n` leaves.
def sides (i n : ℕ) : List Side :=
  if n < 2 then
    []
  else if i < split n then
    sides i (split n) ++ [.left]
  else
    sides (i - split n) (n - split n) ++ [.right]
termination_by n
decreasing_by
  · exact split_lt (by omega)
  · have := split_pos (n := n); omega

-- The sides on the way up to a tree of `n` leaves, which starts from the last of the complete
-- subtrees that the tree of the first `m` leaves is made of.
def shared (m n : ℕ) : List Side :=
  if n ≤ m ∨ n < 2 then
    []
  else if m ≤ split n then
    shared m (split n) ++ [.left]
  else
    shared (m - split n) (n - split n) ++ [.right]
termination_by n
decreasing_by
  · exact split_lt (by omega)
  · have := split_pos (n := n); omega

theorem sides_of_lt_two (h : n < 2) : sides i n = [] := by
  rw [sides, if_pos h]

theorem sides_left (h : 2 ≤ n) (hi : i < split n) : sides i n = sides i (split n) ++ [.left] := by
  rw [sides, if_neg (by omega), if_pos hi]

theorem sides_right (h : 2 ≤ n) (hi : split n ≤ i) :
    sides i n = sides (i - split n) (n - split n) ++ [.right] := by
  rw [sides, if_neg (by omega), if_neg (by omega)]

theorem shared_self : shared n n = [] := by
  rw [shared, if_pos (by omega)]

theorem shared_left (hm : m < n) (h : 2 ≤ n) (hk : m ≤ split n) :
    shared m n = shared m (split n) ++ [.left] := by
  rw [shared, if_neg (by omega), if_pos hk]

theorem shared_right (hm : m < n) (h : 2 ≤ n) (hk : split n < m) :
    shared m n = shared (m - split n) (n - split n) ++ [.right] := by
  rw [shared, if_neg (by omega), if_neg (by omega)]

theorem shared_ne_nil (h₀ : 0 < m) (h : m < n) : shared m n ≠ [] := by
  by_cases hm : m ≤ split n
  case pos => simp [shared_left h (by omega) hm]
  case neg => simp [shared_right h (by omega) (by omega)]

theorem zip_shared_ne_nil {siblings : List δ} (h₀ : 0 < m) (h : m < n)
    (hl : siblings.length = (shared m n).length) : (shared m n).zip siblings ≠ [] := by
  have := List.length_pos_of_ne_nil <| shared_ne_nil h₀ h
  exact List.ne_nil_of_length_pos <| by simp [hl, this]

-- The way up is all left exactly if the first `m` leaves form a complete tree.
theorem shared_left_iff (h₀ : 0 < m) (h : m < n) :
    (∀ s ∈ shared m n, s = .left) ↔ ∃ t, m = 2 ^ t := by
  induction n using Nat.strong_induction_on generalizing m
  case h n ih =>
    have hk := split_lt (n := n) (by omega)
    by_cases hm : m ≤ split n
    case pos =>
      rw [shared_left h (by omega) hm]
      rcases hm.eq_or_lt with rfl | hm
      · simp [shared_self, split]
      · simpa [or_imp, forall_and] using ih _ hk h₀ hm
    case neg =>
      rw [shared_right h (by omega) (by omega)]
      have : ¬ ∃ t, m = 2 ^ t := by
        rintro ⟨t, rfl⟩
        have h₂ := le_two_mul_split (n := n)
        simp only [split] at hm h₂
        have h₁ : Nat.log 2 (n - 1) < t := (Nat.pow_lt_pow_iff_right (a := 2) (by omega)).mp (by omega)
        have h₂ : t < Nat.log 2 (n - 1) + 1 :=
          (Nat.pow_lt_pow_iff_right (a := 2) (by omega)).mp (by rw [Nat.pow_succ]; omega)
        omega
      simp [this]

end MerkleLog

open MerkleLog

namespace LogScheme

variable (S : LogScheme ι α δ)

-- The siblings on the way up from leaf `i`.
def path (i : ℕ) (data : List α) : List δ :=
  if data.length < 2 then
    []
  else if i < split data.length then
    path i (data.take <| split data.length) ++ [S.root <| data.drop <| split data.length]
  else
    path (i - split data.length) (data.drop <| split data.length) ++
      [S.root <| data.take <| split data.length]
termination_by data.length
decreasing_by
  · have := split_lt (n := data.length) (by omega)
    simp only [List.length_take]
    omega
  · have := split_pos (n := data.length)
    simp only [List.length_drop]
    omega

-- The siblings on the way up from the last complete subtree of the first `m` leaves.
def siblings (m : ℕ) (data : List α) : List δ :=
  if data.length ≤ m ∨ data.length < 2 then
    []
  else if m ≤ split data.length then
    siblings m (data.take <| split data.length) ++ [S.root <| data.drop <| split data.length]
  else
    siblings (m - split data.length) (data.drop <| split data.length) ++
      [S.root <| data.take <| split data.length]
termination_by data.length
decreasing_by
  · have := split_lt (n := data.length) (by omega)
    simp only [List.length_take]
    omega
  · have := split_pos (n := data.length)
    simp only [List.length_drop]
    omega

-- The leaves of the last complete subtree of the first `m` leaves.
def seedLeaves (m : ℕ) (data : List α) : List α :=
  if data.length ≤ m ∨ data.length < 2 then
    data
  else if m ≤ split data.length then
    seedLeaves m (data.take <| split data.length)
  else
    seedLeaves (m - split data.length) (data.drop <| split data.length)
termination_by data.length
decreasing_by
  · have := split_lt (n := data.length) (by omega)
    simp only [List.length_take]
    omega
  · have := split_pos (n := data.length)
    simp only [List.length_drop]
    omega

variable {S}

theorem length_take_split {data : List α} (h : ¬ data.length < 2) :
    (data.take <| split data.length).length = split data.length := by
  have := split_lt (n := data.length) (by omega)
  simp only [List.length_take]
  omega

theorem path_left {data : List α} (h : 2 ≤ data.length) (hi : i < split data.length) :
    S.path i data = S.path i (data.take <| split data.length) ++ [S.root <| data.drop <| split data.length]
    := by
  rw [path, if_neg (by omega), if_pos hi]

theorem path_right {data : List α} (h : 2 ≤ data.length) (hi : split data.length ≤ i) :
    S.path i data =
      S.path (i - split data.length) (data.drop <| split data.length) ++
      [S.root <| data.take <| split data.length] := by
  rw [path, if_neg (by omega), if_neg (by omega)]

theorem siblings_self (h : data.length ≤ m) : S.siblings m data = [] := by
  rw [siblings, if_pos (.inl h)]

theorem siblings_left {data : List α} (h₂ : 2 ≤ data.length) (h : m < data.length)
    (hm : m ≤ split data.length) :
    S.siblings m data =
      S.siblings m (data.take <| split data.length) ++ [S.root <| data.drop <| split data.length] := by
  rw [siblings, if_neg (by omega), if_pos hm]

theorem siblings_right {data : List α} (h₂ : 2 ≤ data.length) (h : m < data.length)
    (hm : split data.length < m) :
    S.siblings m data =
      S.siblings (m - split data.length) (data.drop <| split data.length) ++
      [S.root <| data.take <| split data.length] := by
  rw [siblings, if_neg (by omega), if_neg (by omega)]

theorem seedLeaves_self (h : data.length ≤ m) : seedLeaves m data = data := by
  rw [seedLeaves, if_pos (.inl h)]

theorem seedLeaves_left {data : List α} (h₂ : 2 ≤ data.length) (h : m < data.length)
    (hm : m ≤ split data.length) :
    seedLeaves m data = seedLeaves m (data.take <| split data.length) := by
  rw [seedLeaves, if_neg (by omega), if_pos hm]

theorem seedLeaves_right {data : List α} (h₂ : 2 ≤ data.length) (h : m < data.length)
    (hm : split data.length < m) :
    seedLeaves m data = seedLeaves (m - split data.length) (data.drop <| split data.length) := by
  rw [seedLeaves, if_neg (by omega), if_neg (by omega)]

theorem path_length (h : i < data.length) :
    (S.path i data).length = (sides i data.length).length := by
  fun_induction S.path i data
  case case1 h₂ => simp [sides_of_lt_two h₂]
  case case2 i data h₂ hi ih =>
    have hl := length_take_split h₂
    rw [sides_left (by omega) hi, List.length_append, ih (by omega), hl, List.length_append]
    rfl
  case case3 i data h₂ hi ih =>
    rw [sides_right (by omega) (by omega), List.length_append, ih (by simp; omega)]
    simp

theorem descends_path (h : i < data.length) :
    S.Descends data [data[i]] <| (sides i data.length).zip (S.path i data) := by
  fun_induction S.path i data
  case case1 data h₂ =>
    obtain ⟨a, rfl⟩ := List.length_eq_one_iff.mp (show data.length = 1 by omega)
    simpa [sides_of_lt_two] using Descends.refl
  case case2 i data h₂ hi ih =>
    have hl := length_take_split h₂
    have hi' : i < (data.take <| split data.length).length := by omega
    have hp := path_length (S := S) hi'
    rw [sides_left (by omega) hi, List.zip_append (by rw [hp, hl])]
    exact .left (by omega) <| by simpa [hl] using ih hi'
  case case3 i data h₂ hi ih =>
    have hi' : i - split data.length < (data.drop <| split data.length).length := by simp; omega
    have hp := path_length (S := S) hi'
    have hk : split data.length + (i - split data.length) = i := by omega
    rw [sides_right (by omega) (by omega), List.zip_append (by simpa using hp.symm)]
    exact .right (by omega) <| by simpa [hk] using ih hi'

theorem siblings_length (h₀ : 0 < m) (h : m ≤ data.length) :
    (S.siblings m data).length = (shared m data.length).length := by
  fun_induction S.siblings m data
  case case1 m data hm =>
    obtain rfl : m = data.length := by omega
    simp [shared_self]
  case case2 m data h₂ hm ih =>
    have hl := length_take_split (show ¬ data.length < 2 by omega)
    rw [shared_left (by omega) (by omega) hm, List.length_append, ih h₀ (by omega), hl,
      List.length_append]
    rfl
  case case3 m data h₂ hm ih =>
    rw [shared_right (by omega) (by omega) (by omega), List.length_append,
      ih (by omega) (by simp; omega)]
    simp

theorem descends_siblings (h₀ : 0 < m) (h : m ≤ data.length) :
    S.Descends data (seedLeaves m data) <| (shared m data.length).zip (S.siblings m data) := by
  fun_induction S.siblings m data
  case case1 m data hm =>
    obtain rfl : m = data.length := by omega
    rw [seedLeaves, if_pos hm, shared_self]
    exact .refl
  case case2 m data h₂ hm ih =>
    have hl := length_take_split (show ¬ data.length < 2 by omega)
    have hm' : m ≤ (data.take <| split data.length).length := by omega
    have hp := siblings_length (S := S) h₀ hm'
    rw [seedLeaves, if_neg h₂, if_pos hm, shared_left (by omega) (by omega) hm,
      List.zip_append (by rw [hp, hl])]
    exact .left (by omega) <| by simpa [hl] using ih h₀ (by omega)
  case case3 m data h₂ hm ih =>
    have hm' : m - split data.length ≤ (data.drop <| split data.length).length := by simp; omega
    have hp := siblings_length (S := S) (by omega) hm'
    rw [seedLeaves, if_neg h₂, if_neg hm, shared_right (by omega) (by omega) (by omega),
      List.zip_append (by simpa using hp.symm)]
    exact .right (by omega) <| by simpa using ih (by omega) hm'

-- The steps at which the climb passes a left sibling. Those siblings belong to both trees, so these
-- are the steps which lead to the root of the tree of the first `m` leaves.
def rights (steps : List (Side × δ)) : List (Side × δ) :=
  steps.filter (·.fst = .right)

theorem rights_append {s₁ s₂ : List (Side × δ)} : rights (s₁ ++ s₂) = rights s₁ ++ rights s₂ :=
  List.filter_append ..

theorem rights_eq_nil_iff {siblings : List δ} (h₀ : 0 < m) (h : m < n)
    (hl : siblings.length = (shared m n).length) :
    rights ((shared m n).zip siblings) = [] ↔ ∃ t, m = 2 ^ t := by
  have hs : ((shared m n).zip siblings).map Prod.fst = shared m n := List.map_fst_zip hl.ge
  have hne (s : Side) : s ≠ .right ↔ s = .left := by cases s <;> simp
  rw [←shared_left_iff h₀ h, rights, List.filter_eq_nil_iff]
  conv => rhs; rw [←hs]
  simp [hne]

theorem climb_rights (h₀ : 0 < m) (h : m ≤ data.length) :
    S.climb (S.root <| seedLeaves m data) (rights <| (shared m data.length).zip (S.siblings m data)) =
      S.root (data.take m) := by
  fun_induction S.siblings m data
  case case1 m data hm =>
    obtain rfl : m = data.length := by omega
    rw [seedLeaves, if_pos hm, shared_self, List.take_length]
    rfl
  case case2 m data h₂ hm ih =>
    have hl := length_take_split (show ¬ data.length < 2 by omega)
    have hm' : m ≤ (data.take <| split data.length).length := by omega
    have hp := siblings_length (S := S) h₀ hm'
    rw [seedLeaves, if_neg h₂, if_pos hm, shared_left (by omega) (by omega) hm,
      List.zip_append (by rw [hp, hl]), rights_append]
    have ih := ih h₀ (by omega)
    rw [hl, List.take_take, min_eq_left hm] at ih
    simpa [rights] using ih
  case case3 m data h₂ hm ih =>
    have hm' : m - split data.length ≤ (data.drop <| split data.length).length := by simp; omega
    have hp := siblings_length (S := S) (by omega) hm'
    have hs : split (data.take m).length = split data.length := by
      rw [List.length_take, min_eq_left h]
      exact split_eq (by omega) h
    have hk := split_pos (n := data.length)
    rw [seedLeaves, if_neg h₂, if_neg hm, shared_right (by omega) (by omega) (by omega),
      List.zip_append (by simpa using hp.symm), rights_append,
      root_split (show 2 ≤ (data.take m).length by simp; omega), hs, List.take_take, List.drop_take,
      min_eq_left (by omega), ←ih (by omega) hm']
    simp [fold, rights]

-- If the first `m` leaves form a complete tree, it is the subtree which the way up starts from.
theorem root_seedLeaves (h₀ : 0 < m) (h : m < data.length) (hm : ∃ t, m = 2 ^ t) :
    S.root (seedLeaves m data) = S.root (data.take m) := by
  have hr := climb_rights (S := S) h₀ h.le
  rwa [(rights_eq_nil_iff h₀ h <| siblings_length h₀ h.le).mpr hm] at hr

end LogScheme
