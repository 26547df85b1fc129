import Mathlib

-- The elements of a list of which the keys did not occur before.
namespace Novel

variable [DecidableEq κ] (key : α → κ)

def novel (seen : List κ) : List α → List α
  | []     => []
  | a :: l => if key a ∈ seen then novel seen l else a :: novel (key a :: seen) l

def withKey (k : κ) (l : List α) : List α :=
  l.filter (key · = k)

-- Every element is the only one with its key, or the elements with its key are all in the base.
def Kept (base l : List α) : Prop :=
  ∀ a ∈ l, (withKey key (key a) l).length = 1 ∨ (withKey key (key a) base).length = (withKey key (key a) l).length

instance : Decidable (Kept key base l) :=
  inferInstanceAs <| Decidable <| ∀ a ∈ l, (withKey key (key a) l).length = 1 ∨
    (withKey key (key a) base).length = (withKey key (key a) l).length

variable {key} {seen : List κ} {base l : List α}

theorem novel_sublist : (novel key seen l).Sublist l := by
  induction l generalizing seen
  case nil => exact .refl _
  case cons a l ih =>
    rw [novel]
    split_ifs
    · exact ih.cons a
    · exact ih.cons_cons a

theorem withKey_novel (k : κ) :
    withKey key k (novel key seen l) = if k ∈ seen then [] else (withKey key k l).head?.toList := by
  induction l generalizing seen
  case nil => simp [withKey, novel]
  case cons a l ih =>
    rw [novel]
    by_cases hk : key a = k
    case pos =>
      subst hk
      split_ifs with h
      · rw [ih, if_pos h]
      · have hw : withKey key (key a) (a :: novel key (key a :: seen) l) =
            a :: withKey key (key a) (novel key (key a :: seen) l) := List.filter_cons_of_pos <| by simp
        rw [hw, ih, if_pos List.mem_cons_self]
        simp [withKey]
    case neg =>
      have hw (l : List α) : withKey key k (a :: l) = withKey key k l := List.filter_cons_of_neg <| by simpa using hk
      split_ifs with h hs hs
      · rw [ih, if_pos hs]
      · rw [ih, if_neg hs, hw]
      · rw [hw, ih, if_pos <| List.mem_cons_of_mem _ hs]
      · rw [hw, ih, if_neg <| by simp [Ne.symm hk, hs], hw]

theorem withKey_eq_nil (h : k ∉ base.map key) : withKey key k base = [] := by
  rw [withKey, List.filter_eq_nil_iff]
  intro a ha hk
  exact h <| List.mem_map.mpr ⟨a, ha, of_decide_eq_true hk⟩

theorem withKey_ne_nil (h : k ∈ base.map key) : withKey key k base ≠ [] := by
  obtain ⟨a, ha, hk⟩ := List.mem_map.mp h
  exact List.ne_nil_of_mem <| List.mem_filter.mpr ⟨ha, by simpa using hk⟩

theorem length_withKey_perm (h : l.Perm l') (k : κ) : (withKey key k l).length = (withKey key k l').length :=
  (h.filter _).length_eq

theorem kept_congr (hb : base.Perm base') (hl : l.Perm l') : Kept key base l ↔ Kept key base' l' := by
  simp only [Kept, length_withKey_perm hb, length_withKey_perm hl, hl.mem_iff]

-- The elements with one key, if the list is kept.
theorem Kept.perm_withKey (h : Kept key base l) (hb : base.Subperm l) (ha : a ∈ l) :
    (withKey key (key a) (base ++ novel key (base.map key) l)).Perm (withKey key (key a) l) := by
  have hs : (withKey key (key a) base).Subperm (withKey key (key a) l) := hb.filter _
  rw [withKey, List.filter_append]
  show (withKey key (key a) base ++ withKey key (key a) (novel key (base.map key) l)).Perm _
  rw [withKey_novel]
  split_ifs with hm
  case pos =>
    rw [List.append_nil]
    have hp : 0 < (withKey key (key a) base).length := List.length_pos_iff.mpr <| withKey_ne_nil hm
    refine hs.perm_of_length_le ?_
    rcases h a ha with h | h <;> omega
  case neg =>
    have hn := withKey_eq_nil hm
    have hp : 0 < (withKey key (key a) l).length :=
      List.length_pos_iff.mpr <| withKey_ne_nil <| List.mem_map_of_mem ha
    have h : (withKey key (key a) l).length = 1 := by
      rcases h a ha with h | h
      · exact h
      · rw [hn] at h
        simp only [List.length_nil] at h
        omega
    obtain ⟨b, hb⟩ := List.length_eq_one_iff.mp h
    rw [hn, hb]
    exact .refl _

-- The base and the novel elements are all elements if and only if none is lost under its key.
theorem append_novel_perm_iff [DecidableEq α] (hb : base.Subperm l) :
    (base ++ novel key (base.map key) l).Perm l ↔ Kept key base l := by
  constructor
  case mp =>
    intro h a ha
    have hl : (withKey key (key a) (base ++ novel key (base.map key) l)).length = _ := length_withKey_perm h (key a)
    rw [withKey, List.filter_append, List.length_append] at hl
    change (withKey key (key a) base).length + (withKey key (key a) (novel key (base.map key) l)).length = _ at hl
    rw [withKey_novel] at hl
    split_ifs at hl with hm
    case pos => exact .inr <| by simpa using hl
    case neg =>
      have hp : 0 < (withKey key (key a) l).length :=
        List.length_pos_iff.mpr <| withKey_ne_nil <| List.mem_map_of_mem ha
      rw [withKey_eq_nil hm, List.length_nil, Nat.zero_add] at hl
      have : (withKey key (key a) l).head?.toList.length ≤ 1 := by
        cases (withKey key (key a) l).head? <;> simp
      exact .inl <| by omega
  case mpr =>
    intro h
    rw [List.perm_iff_count]
    intro a
    by_cases ha : a ∈ l
    case pos =>
      have hc (l : List α) : (withKey key (key a) l).count a = l.count a := List.count_filter <| by simp
      rw [←hc, ←hc l]
      exact (h.perm_withKey hb ha).count_eq a
    case neg =>
      rw [List.count_eq_zero.mpr ha, List.count_eq_zero]
      intro hm
      rcases List.mem_append.mp hm with hm | hm
      · exact ha <| hb.subset hm
      · exact ha <| novel_sublist.subset hm

end Novel
