import Verifyhash.Library.Hashing

-- The ordered Merkle tree of a log: the leaves keep their order, and a tree of `n ≥ 2` leaves splits
-- at the largest power of two below `n`.
namespace MerkleLog

def split (n : ℕ) : ℕ :=
  2 ^ Nat.log 2 (n - 1)

theorem split_pos : 0 < split n :=
  Nat.two_pow_pos _

theorem split_lt (h : 2 ≤ n) : split n < n := by
  have := Nat.pow_log_le_self 2 (x := n - 1) (by omega)
  simp only [split]
  omega

theorem le_two_mul_split : n ≤ 2 * split n := by
  have := Nat.lt_pow_succ_log_self (b := 2) (by omega) (n - 1)
  simp only [Nat.pow_succ, split] at this ⊢
  omega

theorem split_unique (h₁ : 2 ^ t < n) (h₂ : n ≤ 2 ^ (t + 1)) : split n = 2 ^ t := by
  have := (Nat.log_eq_iff (b := 2) (m := t) (n := n - 1) (by omega)).mpr (by omega)
  rw [split, this]

theorem split_two_pow (t : ℕ) : split (2 ^ (t + 1)) = 2 ^ t :=
  split_unique (Nat.pow_lt_pow_right (by omega) (by omega)) le_rfl

-- A tree which reaches beyond the split point of a larger tree splits at the same place, so the two
-- trees share their left subtree.
theorem split_eq (h₁ : split n < m) (h₂ : m ≤ n) : split m = split n := by
  have := le_two_mul_split (n := n)
  exact split_unique h₁ <| by simp only [split, Nat.pow_succ] at *; omega

-- The side on which a node stands below its parent.
inductive Side
  | left
  | right
  deriving DecidableEq

end MerkleLog

open MerkleLog

structure LogScheme (ι α δ : Type*) extends Scheme ι α δ where
  empty : δ

namespace LogScheme

variable (S : LogScheme ι α δ)

def root (data : List α) : δ :=
  match data with
  | []             => S.empty
  | [a]            => S.leaf a
  | a :: b :: rest =>
    let k := split (rest.length + 2)
    S.node (root <| (a :: b :: rest).take k) (root <| (a :: b :: rest).drop k)
termination_by data.length
decreasing_by
  · have := split_lt (n := rest.length + 2) (by omega)
    simp only [List.length_take, List.length_cons]
    omega
  · have := split_pos (n := rest.length + 2)
    simp only [List.length_drop, List.length_cons]
    omega

-- The inputs which are hashed to compute the `root`.
def rootInputs (data : List α) : List ι :=
  match data with
  | []             => []
  | [a]            => [S.leafInput a]
  | a :: b :: rest =>
    let k := split (rest.length + 2)
    S.nodeInput (S.root <| (a :: b :: rest).take k) (S.root <| (a :: b :: rest).drop k) ::
      (rootInputs ((a :: b :: rest).take k) ++ rootInputs ((a :: b :: rest).drop k))
termination_by data.length
decreasing_by
  · have := split_lt (n := rest.length + 2) (by omega)
    simp only [List.length_take, List.length_cons]
    omega
  · have := split_pos (n := rest.length + 2)
    simp only [List.length_drop, List.length_cons]
    omega

-- A climb folds a seed with the siblings on its way up, where each step records the side of the node
-- which is climbed from.
def fold (acc : δ) : Side × δ → δ
  | (.left, sibling)  => S.node acc sibling
  | (.right, sibling) => S.node sibling acc

def climb (seed : δ) (steps : List (Side × δ)) : δ :=
  steps.foldl S.fold seed

def foldInput (acc : δ) : Side × δ → ι
  | (.left, sibling)  => S.nodeInput acc sibling
  | (.right, sibling) => S.nodeInput sibling acc

def climbInputs (seed : δ) : List (Side × δ) → List ι
  | []         => []
  | step :: tl => S.foldInput seed step :: climbInputs (S.fold seed step) tl

variable {S}

theorem root_nil : S.root [] = S.empty := by
  rw [root]

theorem root_singleton : S.root [a] = S.leaf a := by
  rw [root]

theorem root_split {data : List α} (h : 2 ≤ data.length) :
    S.root data =
      S.node (S.root <| data.take <| split data.length) (S.root <| data.drop <| split data.length)
    := by
  match data, h with
  | _ :: _ :: _, _ => rw [root]; rfl

theorem rootInputs_singleton : S.rootInputs [a] = [S.leafInput a] := by
  rw [rootInputs]

theorem rootInputs_split {data : List α} (h : 2 ≤ data.length) :
    S.rootInputs data =
      S.nodeInput (S.root <| data.take <| split data.length)
        (S.root <| data.drop <| split data.length) ::
      (S.rootInputs (data.take <| split data.length) ++
        S.rootInputs (data.drop <| split data.length)) := by
  match data, h with
  | _ :: _ :: _, _ => rw [rootInputs]; rfl

-- Trees of the same size with the same root have the same leaves.
theorem root_inj {d₁ d₂ : List α} (c : CollisionFree S.hash (S.rootInputs d₁ ++ S.rootInputs d₂))
    (hl : d₁.length = d₂.length) (h : S.root d₁ = S.root d₂) : d₁ = d₂ := by
  induction hn : d₁.length using Nat.strong_induction_on generalizing d₁ d₂
  case h n ih =>
    rcases Nat.lt_or_ge d₁.length 2 with h₂ | h₂
    case inl =>
      rcases d₁ with _ | ⟨a, _ | _⟩ <;> rcases d₂ with _ | ⟨b, _ | _⟩ <;> simp at hl h₂
      case nil.nil => rfl
      case cons.nil.cons.nil =>
        rw [root_singleton, root_singleton] at h
        rw [rootInputs_singleton, rootInputs_singleton] at c
        rw [Scheme.leaf_eq c (by simp) (by simp) h]
    case inr =>
      have hs := split_lt h₂
      have hp := split_pos (n := d₁.length)
      have h₂' : 2 ≤ d₂.length := hl ▸ h₂
      rw [root_split h₂, root_split h₂'] at h
      rw [rootInputs_split h₂, rootInputs_split h₂'] at c
      have ⟨hl', hr'⟩ := Scheme.node_eq c (by simp) (by simp) h
      have ht := ih _ (by simp; omega) (c.mono <| by grind) (by simp [hl]) hl' rfl
      have hd := ih _ (by simp; omega) (c.mono <| by grind) (by simp [hl]) hr' rfl
      rw [←List.take_append_drop (split d₁.length) d₁, ht, hd, List.take_append_drop]

@[simp]
theorem climb_nil : S.climb seed [] = seed :=
  rfl

@[simp]
theorem climb_concat : S.climb seed (steps ++ [step]) = S.fold (S.climb seed steps) step := by
  simp [climb]

theorem climbInputs_concat :
    S.climbInputs seed (steps ++ [step]) =
      S.climbInputs seed steps ++ [S.foldInput (S.climb seed steps) step] := by
  induction steps generalizing seed
  case nil        => rfl
  case cons _ _ ih => simp [climbInputs, ih, climb]

-- `S.Descends data sub steps` traces a way down from the tree of `data` to the tree of the sublist
-- `sub`, where `steps` lists the siblings on that way from the bottom up.
variable (S) in
inductive Descends : List α → List α → List (Side × δ) → Prop
  | refl : Descends data data []
  | left :
    (2 ≤ data.length) → Descends (data.take <| split data.length) sub steps →
    Descends data sub (steps ++ [(.left, S.root <| data.drop <| split data.length)])
  | right :
    (2 ≤ data.length) → Descends (data.drop <| split data.length) sub steps →
    Descends data sub (steps ++ [(.right, S.root <| data.take <| split data.length)])

namespace Descends

theorem climb (d : S.Descends data sub steps) : S.climb (S.root sub) steps = S.root data := by
  induction d
  case refl          => rfl
  case left h _ ih  => rw [climb_concat, ih, root_split h]; rfl
  case right h _ ih => rw [climb_concat, ih, root_split h]; rfl

theorem rootInputs_subset (d : S.Descends data sub steps) : S.rootInputs sub ⊆ S.rootInputs data := by
  induction d
  case refl         => exact List.Subset.refl _
  case left h _ ih  =>
    rw [rootInputs_split h]
    exact fun _ hi => by simp [ih hi]
  case right h _ ih =>
    rw [rootInputs_split h]
    exact fun _ hi => by simp [ih hi]

theorem sides_concat {steps steps' : List (Side × δ)} {step : Side × δ}
    (h : steps'.map Prod.fst = (steps ++ [step]).map Prod.fst) :
    ∃ hd sibling, steps' = hd ++ [(step.fst, sibling)] ∧ hd.map Prod.fst = steps.map Prod.fst := by
  rw [List.map_append, List.map_eq_append_iff] at h
  obtain ⟨hd, tl, rfl, hh, ht⟩ := h
  obtain ⟨⟨side, sibling⟩, rfl⟩ : ∃ step, tl = [step] :=
    List.length_eq_one_iff.mp <| by simpa using congrArg List.length ht
  obtain rfl : side = step.fst := by simpa using ht
  exact ⟨hd, sibling, rfl, hh⟩

-- A climb which takes the sides of a genuine way up, and ends in the genuine root, is itself genuine:
-- it starts from the root of the subtree and passes exactly its siblings.
theorem climb_inj (d : S.Descends data sub steps) (hs : steps'.map Prod.fst = steps.map Prod.fst)
    (hr : S.climb seed steps' = S.root data)
    (c : CollisionFree S.hash (S.rootInputs data ++ S.climbInputs seed steps')) :
    seed = S.root sub ∧ steps' = steps := by
  induction d generalizing steps'
  case refl =>
    obtain rfl : steps' = [] := by simpa using hs
    exact ⟨hr, rfl⟩
  case left h _ ih =>
    obtain ⟨hd, sibling, rfl, hs'⟩ := sides_concat hs
    rw [root_split h, climb_concat] at hr
    rw [rootInputs_split h, climbInputs_concat] at c
    have ⟨hl, hr⟩ := Scheme.node_eq c (by simp [foldInput]) (by simp) hr
    have ⟨h₁, h₂⟩ := ih hs' hl <| c.mono <| by grind
    exact ⟨h₁, by rw [h₂, hr]⟩
  case right h _ ih =>
    obtain ⟨hd, sibling, rfl, hs'⟩ := sides_concat hs
    rw [root_split h, climb_concat] at hr
    rw [rootInputs_split h, climbInputs_concat] at c
    have ⟨hl, hr⟩ := Scheme.node_eq c (by simp [foldInput]) (by simp) hr
    have ⟨h₁, h₂⟩ := ih hs' hr <| c.mono <| by grind
    exact ⟨h₁, by rw [h₂, hl]⟩

end Descends
end LogScheme
