import Verifyhash.Library.PairTree.Basic

namespace Scheme

variable (S : Scheme ι α δ) [LinearOrder δ]

-- The input of an interior node has the smaller child first.
def pairInput (x y : δ) : ι :=
  if x ≤ y then S.nodeInput x y else S.nodeInput y x

def pair (x y : δ) : δ :=
  S.hash (S.pairInput x y)

-- The inputs which are hashed on the way from `x` to the root.
def foldInputs (x : δ) : List δ → List ι
  | []         => []
  | s :: proof => S.pairInput x s :: foldInputs (S.pair x s) proof

variable {S} {is : List ι}

theorem pair_comm (x y : δ) : S.pair x y = S.pair y x := by
  rcases lt_trichotomy x y with h | rfl | h
  · simp [pair, pairInput, h.le, h.not_ge]
  · rfl
  · simp [pair, pairInput, h.le, h.not_ge]

theorem pairInput_eq (h : S.pairInput x₁ y₁ = S.pairInput x₂ y₂) :
    (x₁ = x₂ ∧ y₁ = y₂) ∨ (x₁ = y₂ ∧ y₁ = x₂) := by
  simp only [pairInput] at h
  split_ifs at h <;> have := S.node_inj h <;> grind

theorem pair_eq (c : CollisionFree S.hash is) (h₁ : S.pairInput x₁ y₁ ∈ is)
    (h₂ : S.pairInput x₂ y₂ ∈ is) (h : S.pair x₁ y₁ = S.pair x₂ y₂) :
    (x₁ = x₂ ∧ y₁ = y₂) ∨ (x₁ = y₂ ∧ y₁ = x₂) :=
  pairInput_eq <| c _ h₁ _ h₂ h

theorem pair_self_eq (c : CollisionFree S.hash is) (h₁ : S.pairInput x x ∈ is)
    (h₂ : S.pairInput y z ∈ is) (h : S.pair x x = S.pair y z) : x = y ∧ x = z := by
  rcases pair_eq c h₁ h₂ h with ⟨hy, hz⟩ | ⟨hz, hy⟩ <;> exact ⟨hy, hz⟩

theorem leaf_ne_pair (c : CollisionFree S.hash is) (h₁ : S.leafInput a ∈ is)
    (h₂ : S.pairInput x y ∈ is) : S.leaf a ≠ S.pair x y := by
  intro h
  have := c _ h₁ _ h₂ h
  rw [pairInput] at this
  split_ifs at this <;> exact S.leaf_ne this

theorem foldInputs_concat :
    S.foldInputs x (proof ++ [s]) = S.foldInputs x proof ++ [S.pairInput (proof.foldl S.pair x) s] := by
  induction proof generalizing x
  case nil          => rfl
  case cons s' _ ih => simp [foldInputs, ih]

end Scheme

namespace PairTree

-- The leaf hashes are hashes of some of the given inputs.
def Leaves (S : Scheme ι α δ) (is : List ι) (l : List δ) : Prop :=
  ∀ x ∈ l, ∃ a, S.leafInput a ∈ is ∧ S.leaf a = x

-- A tree of a given height over the leaf hashes, whose nodes are hashed from the given inputs. A
-- subtree without a neighbour is paired with itself.
inductive Rooted (S : Scheme ι α δ) [LinearOrder δ] (is : List ι) : ℕ → List δ → δ → Prop
  | single :
    Rooted S is 0 [x] x
  | lone :
    (Rooted S is k l x) → (S.pairInput x x ∈ is) → Rooted S is (k + 1) l (S.pair x x)
  | both :
    (l₁.length = 2 ^ k) → (Rooted S is k l₁ x₁) → (Rooted S is k l₂ x₂) →
    (S.pairInput x₁ x₂ ∈ is) → Rooted S is (k + 1) (l₁ ++ l₂) (S.pair x₁ x₂)

variable {S : Scheme ι α δ} [LinearOrder δ] {is : List ι} {l l' : List δ}

namespace Leaves

omit [LinearOrder δ] in
theorem of_subset (hl : Leaves S is l) (h : l' ⊆ l) : Leaves S is l' :=
  fun x hx => hl x (h hx)

theorem ne_pair (c : CollisionFree S.hash is) (hl : Leaves S is l) (hx : x ∈ l) (h : S.pairInput y z ∈ is) :
    x ≠ S.pair y z := by
  obtain ⟨a, ha, rfl⟩ := hl x hx
  exact Scheme.leaf_ne_pair c ha h

end Leaves

namespace Rooted

theorem ne_nil (h : Rooted S is k l x) : l ≠ [] := by
  induction h <;> simp_all

theorem length_pos (h : Rooted S is k l x) : 0 < l.length :=
  List.length_pos_of_ne_nil h.ne_nil

theorem length_le (h : Rooted S is k l x) : l.length ≤ 2 ^ k := by
  induction h
  case single => simp
  case lone   => omega
  case both   => simp only [List.length_append]; omega

-- A tree over a layer is the upper part of a tree over the layer below.
theorem of_next (h : Rooted S is k (next S.pair l) x)
    (hi : ∀ p ∈ pairs l, S.pairInput p.1 p.2 ∈ is) : Rooted S is (k + 1) l x := by
  generalize hn : next S.pair l = m at h
  induction h generalizing l
  case single x =>
    rcases next_eq_singleton S.pair hn with ⟨y, rfl, rfl⟩ | ⟨y, z, rfl, rfl⟩
    · exact .lone .single <| hi (y, y) (by simp [pairs])
    · exact .both rfl .single .single <| hi (y, z) (by simp [pairs])
  case lone hp ih => exact .lone (ih hi hn) hp
  case both k l₁ _ l₂ _ hl h₁ h₂ hp ih₁ ih₂ =>
    have hlen := congrArg List.length hn
    have hpos := h₂.length_pos
    simp only [length_next, List.length_append] at hlen
    have ht : (l.take <| 2 ^ (k + 1)).length = 2 ^ (k + 1) := by
      rw [List.length_take]
      omega
    have he : Even (l.take <| 2 ^ (k + 1)).length := ⟨2 ^ k, by omega⟩
    have hsplit : pairs l = pairs (l.take <| 2 ^ (k + 1)) ++ pairs (l.drop <| 2 ^ (k + 1)) := by
      rw [←pairs_append he, List.take_append_drop]
    have hn : next S.pair (l.take <| 2 ^ (k + 1)) ++ next S.pair (l.drop <| 2 ^ (k + 1)) = l₁ ++ l₂ := by
      rw [←hn, next, next, next, hsplit, List.map_append]
    obtain ⟨hn₁, hn₂⟩ := List.append_inj hn <| by rw [length_next, ht, hl]; omega
    rw [hsplit] at hi
    rw [←List.take_append_drop (2 ^ (k + 1)) l]
    exact .both ht (ih₁ (fun p hm => hi p <| List.mem_append_left _ hm) hn₁)
      (ih₂ (fun p hm => hi p <| List.mem_append_right _ hm) hn₂) hp

-- The inputs of a tree decide its height.
theorem height_eq (c : CollisionFree S.hash is) (hl : Leaves S is l) (hl' : Leaves S is l')
    (h : Rooted S is k l x) (h' : Rooted S is k' l' x') (hx : x = x') : k = k' := by
  induction h generalizing k' l' x'
  case single =>
    cases h'
    case single      => rfl
    case lone hp _   => exact absurd hx <| hl.ne_pair c (by simp) hp
    case both hp     => exact absurd hx <| hl.ne_pair c (by simp) hp
  case lone hp ih =>
    cases h'
    case single      => exact absurd hx.symm <| hl'.ne_pair c (by simp) hp
    case lone hp' h' => rw [ih hl hl' h' (Scheme.pair_self_eq c hp hp' hx).left]
    case both hk h₁ h₂ hp' =>
      have hl₁ := hl'.of_subset <| List.subset_append_left ..
      rw [ih hl hl₁ h₁ (Scheme.pair_self_eq c hp hp' hx).left]
  case both hp ih₁ ih₂ =>
    have hl₁ := hl.of_subset <| List.subset_append_left ..
    cases h'
    case single      => exact absurd hx.symm <| hl'.ne_pair c (by simp) hp
    case lone hp' h' => rw [ih₁ hl₁ hl' h' (Scheme.pair_self_eq c hp' hp hx.symm).left.symm]
    case both hk h₁ h₂ hp' =>
      rcases Scheme.pair_eq c hp hp' hx with ⟨he, _⟩ | ⟨he, _⟩
      · rw [ih₁ hl₁ (hl'.of_subset <| List.subset_append_left ..) h₁ he]
      · rw [ih₁ hl₁ (hl'.of_subset <| List.subset_append_right ..) h₂ he]

-- The root binds the set of the leaves.
theorem mem_iff (c : CollisionFree S.hash is) (h : Rooted S is k l x) (h' : Rooted S is k l' x')
    (hx : x = x') (a : δ) : a ∈ l ↔ a ∈ l' := by
  induction h generalizing l' x'
  case single =>
    cases h'
    case single => rw [hx]
  case lone hp ih =>
    cases h'
    case lone hp' h' => exact ih h' (Scheme.pair_self_eq c hp hp' hx).left
    case both hp' hk h₁ h₂ =>
      have ⟨he₁, he₂⟩ := Scheme.pair_self_eq c hp hp' hx
      rw [List.mem_append, ←ih h₁ he₁, ←ih h₂ he₂, or_self]
  case both hp ih₁ ih₂ =>
    cases h'
    case lone hp' h' =>
      have ⟨he₁, he₂⟩ := Scheme.pair_self_eq c hp' hp hx.symm
      rw [List.mem_append, ih₁ h' he₁.symm, ih₂ h' he₂.symm, or_self]
    case both hp' hk h₁ h₂ =>
      rcases Scheme.pair_eq c hp hp' hx with ⟨he₁, he₂⟩ | ⟨he₁, he₂⟩
      · rw [List.mem_append, List.mem_append, ih₁ h₁ he₁, ih₂ h₂ he₂]
      · rw [List.mem_append, List.mem_append, ih₁ h₂ he₁, ih₂ h₁ he₂, or_comm]

-- A fold which ends in the root starts from one of the leaves.
theorem mem_of_foldl (c : CollisionFree S.hash is) (hl : Leaves S is l) (h : Rooted S is k l x)
    (ha : S.leafInput a ∈ is) (hi : S.foldInputs (S.leaf a) proof ⊆ is)
    (hf : proof.foldl S.pair (S.leaf a) = x) : S.leaf a ∈ l := by
  induction h generalizing proof <;> rcases List.eq_nil_or_concat proof with rfl | ⟨proof, s, rfl⟩
  all_goals
    simp only [List.concat_eq_append, Scheme.foldInputs_concat, List.foldl_concat, List.append_subset,
      List.cons_subset, List.foldl_nil] at hi hf
  case single.inl => simp [hf]
  case single.inr => exact absurd hf.symm <| hl.ne_pair c (by simp) hi.right.left
  case lone.inl hp _ => exact absurd hf <| Scheme.leaf_ne_pair c ha hp
  case both.inl hp _ _ => exact absurd hf <| Scheme.leaf_ne_pair c ha hp
  case lone.inr hp ih =>
    exact ih hl hi.left (Scheme.pair_self_eq c hp hi.right.left hf.symm).left.symm
  case both.inr hp ih₁ ih₂ =>
    rcases Scheme.pair_eq c hi.right.left hp hf with ⟨he, _⟩ | ⟨he, _⟩
    · exact List.mem_append_left _ <| ih₁ (hl.of_subset <| List.subset_append_left ..) hi.left he
    · exact List.mem_append_right _ <| ih₂ (hl.of_subset <| List.subset_append_right ..) hi.left he

end Rooted

end PairTree
