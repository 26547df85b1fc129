import Verifyhash.Library.Hashing

-- Trees which are built layer by layer, from the leaves up to a single root.
namespace PairTree

-- The pairs of a layer, from the left. A lone last node is paired with itself.
def pairs : List δ → List (δ × δ)
  | []          => []
  | [x]         => [(x, x)]
  | x :: y :: l => (x, y) :: pairs l

@[simp]
theorem length_pairs {l : List δ} : (pairs l).length = (l.length + 1) / 2 := by
  fun_induction pairs l <;> grind

theorem pairs_map (f : α → β) (l : List α) : pairs (l.map f) = (pairs l).map (Prod.map f f) := by
  fun_induction pairs l <;> simp_all [pairs]

theorem pairs_append {l₁ l₂ : List δ} (h : Even l₁.length) :
    pairs (l₁ ++ l₂) = pairs l₁ ++ pairs l₂ := by
  fun_induction pairs l₁
  case case1       => rfl
  case case2       => simp at h
  case case3 ih    =>
    have ih := ih <| by simpa [Nat.even_add_one] using h
    simp [pairs, ih]

theorem mem_of_mem_pairs {l : List δ} (h : (x, y) ∈ pairs l) : x ∈ l ∧ y ∈ l := by
  fun_induction pairs l <;> simp_all; grind

theorem getElem?_pairs {l : List δ} {i : ℕ} :
    (pairs l)[i]? = l[2 * i]?.map fun x => (x, l[2 * i + 1]?.getD x) := by
  fun_induction pairs l generalizing i <;> cases i <;> simp_all [Nat.mul_add_one]

section

variable (node : δ → δ → δ)

-- The layer above a layer.
def next (l : List δ) : List δ :=
  (pairs l).map fun (x, y) => node x y

@[simp]
theorem length_next {l : List δ} : (next node l).length = (l.length + 1) / 2 := by
  simp [next]

theorem getElem?_next {l : List δ} {i : ℕ} :
    (next node l)[i]? = l[2 * i]?.map fun x => node x <| l[2 * i + 1]?.getD x := by
  simp [next, getElem?_pairs, Function.comp_def]

theorem next_eq_singleton {l : List δ} (h : next node l = [x]) :
    (∃ y, l = [y] ∧ node y y = x) ∨ ∃ y z, l = [y, z] ∧ node y z = x := by
  have hl := congrArg List.length h
  rw [length_next, List.length_singleton] at hl
  rcases (show l.length = 1 ∨ l.length = 2 by omega) with hl | hl
  · obtain ⟨y, rfl⟩ := List.length_eq_one_iff.mp hl
    exact .inl ⟨y, rfl, List.head_eq_of_cons_eq h⟩
  · obtain ⟨y, z, rfl⟩ := List.length_eq_two.mp hl
    exact .inr ⟨y, z, rfl, List.head_eq_of_cons_eq h⟩

-- The layers from the leaves to the root.
def layers (l : List δ) : List (List δ) :=
  if 1 < l.length then l :: layers (next node l) else [l]
termination_by l.length
decreasing_by simp only [length_next]; omega

-- The last layer, which is computed without keeping the others.
def reduce (l : List δ) : List δ :=
  if 1 < l.length then reduce (next node l) else l
termination_by l.length
decreasing_by simp only [length_next]; omega

end

-- The only node of the last layer.
def top (ls : List (List δ)) : Option δ :=
  ls.getLast?.bind List.head?

-- The siblings of the nodes on the way from a leaf to the root.
def siblings : List (List δ) → ℕ → List (Option δ)
  | l :: ls@(_ :: _), i => (if i ^^^ 1 < l.length then l[i ^^^ 1]? else l[i]?) :: siblings ls (i / 2)
  | [_], _              => []
  | [], _               => []

section

variable {node : δ → δ → δ}

variable (node) in
theorem layers_ne_nil (l : List δ) : layers node l ≠ [] := by
  rw [layers]
  split_ifs <;> simp

theorem layers_of_lt {l : List δ} (h : 1 < l.length) :
    layers node l = l :: layers node (next node l) := by
  rw [layers, if_pos h]

theorem top_layers_of_lt {l : List δ} (h : 1 < l.length) :
    top (layers node l) = top (layers node <| next node l) := by
  have ⟨_, _, hn⟩ := List.exists_cons_of_ne_nil <| layers_ne_nil node <| next node l
  rw [layers_of_lt h, hn, top, top, List.getLast?_cons_cons]

theorem top_layers {l : List δ} : top (layers node l) = (reduce node l).head? := by
  fun_induction reduce node l
  case case1 h ih => rw [top_layers_of_lt h, ih]
  case case2 h    => rw [layers, if_neg h, top, List.getLast?_singleton, Option.bind_some]

section

variable {node' : ε → ε → ε} {f : δ → ε} (h : ∀ x y, node' (f x) (f y) = f (node x y)) (l : List δ)

include h

theorem next_map : next node' (l.map f) = (next node l).map f := by
  simp [next, pairs_map, h, Function.comp_def]

-- A function which commutes with the hashing of nodes commutes with the construction of trees.
theorem layers_map : layers node' (l.map f) = (layers node l).map (List.map f) := by
  fun_induction layers node l
  case case1 l hl ih => rw [layers_of_lt (by simpa using hl), next_map h, ih, List.map_cons]
  case case2 l hl    => rw [layers, if_neg (by simpa using hl), List.map_singleton]

theorem reduce_map : reduce node' (l.map f) = (reduce node l).map f := by
  fun_induction reduce node l
  case case1 l hl ih => rw [reduce, if_pos (by simpa using hl), next_map h, ih]
  case case2 l hl    => rw [reduce, if_neg (by simpa using hl)]

end

theorem top_map {f : δ → ε} {ls : List (List δ)} : top (ls.map <| List.map f) = (top ls).map f := by
  simp only [top, List.getLast?_map]
  cases ls.getLast? <;> simp

theorem siblings_map {f : δ → ε} {ls : List (List δ)} {i : ℕ} :
    siblings (ls.map <| List.map f) i = (siblings ls i).map (Option.map f) := by
  fun_induction siblings ls i <;> simp_all only [List.map_cons, List.map_nil, siblings]
  case case1 => split_ifs <;> simp_all

-- The node above a node is hashed from it and its sibling, where the order of the two does not matter.
theorem getElem?_next_half {l : List δ} (hc : ∀ x y, node x y = node y x) (h : l[i]? = some x) :
    ∃ s, (if i ^^^ 1 < l.length then l[i ^^^ 1]? else l[i]?) = some s ∧
      (next node l)[i / 2]? = some (node x s) := by
  rw [getElem?_next]
  have hi := (List.getElem?_eq_some_iff.mp h).choose
  rcases Nat.even_or_odd i with he | ho
  case inl =>
    have := Nat.even_iff.mp he
    rw [Nat.xor_one_of_even he, show 2 * (i / 2) = i by omega, h]
    split_ifs with hs
    · exact ⟨l[i + 1], by simp [hs], by simp [hs]⟩
    · exact ⟨x, rfl, by simp [List.getElem?_eq_none (Nat.not_lt.mp hs)]⟩
  case inr =>
    have := Nat.odd_iff.mp ho
    have hs : i - 1 < l.length := by omega
    rw [Nat.xor_one_of_odd ho, show 2 * (i / 2) = i - 1 by omega, show i - 1 + 1 = i by omega, h, if_pos hs]
    exact ⟨l[i - 1], by simp [hs], by simp [hs, hc]⟩

-- From a leaf and the siblings on the way to the root one gets the root.
theorem foldl_siblings {l : List δ} (hc : ∀ x y, node x y = node y x) (h : l[i]? = some x) :
    ∃ proof : List δ, siblings (layers node l) i = proof.map some ∧
      top (layers node l) = some (proof.foldl node x) := by
  fun_induction layers node l generalizing i x
  case case1 l hl ih =>
    have ⟨s, hs, hn⟩ := getElem?_next_half hc h
    have ⟨proof, hp, ht⟩ := ih hn
    have ⟨m, ls, hls⟩ := List.exists_cons_of_ne_nil <| layers_ne_nil node <| next node l
    rw [hls] at hp ht ⊢
    refine ⟨s :: proof, ?_, ?_⟩
    · rw [siblings, hs, hp, List.map_cons]
    · rw [top, List.getLast?_cons_cons]
      exact ht
  case case2 l hl =>
    have ⟨hi, he⟩ := List.getElem?_eq_some_iff.mp h
    have hi₀ : i = 0 := by omega
    subst hi₀
    obtain ⟨y, rfl⟩ := List.length_eq_one_iff.mp (show l.length = 1 by omega)
    exact ⟨[], by simp [siblings], congrArg some he⟩

end

end PairTree
