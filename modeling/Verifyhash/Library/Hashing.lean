import Mathlib

-- A hash is used through tagged inputs: `leafInput` and `nodeInput` build the inputs of type `ι`
-- which are hashed to digests of type `δ`. The fields require that an input determines what it was
-- built from, and that the input of a leaf is never the input of an interior node.
structure Scheme (ι α δ : Type*) where
  hash       : ι → δ
  leafInput  : α → ι
  nodeInput  : δ → δ → ι
  leaf_inj   : Function.Injective leafInput
  node_inj   : nodeInput l₁ r₁ = nodeInput l₂ r₂ → l₁ = l₂ ∧ r₁ = r₂
  leaf_ne    : leafInput a ≠ nodeInput l r

-- No two of the given inputs collide. A hash to digests of a fixed length collides somewhere, so
-- collision freedom is only ever asked of the inputs which a computation really hashes.
def CollisionFree (hash : ι → δ) (inputs : List ι) : Prop :=
  ∀ x ∈ inputs, ∀ y ∈ inputs, hash x = hash y → x = y

instance [DecidableEq ι] [DecidableEq δ] {hash : ι → δ} :
    Decidable (CollisionFree hash inputs) :=
  inferInstanceAs <| Decidable (∀ x ∈ inputs, ∀ y ∈ inputs, hash x = hash y → x = y)

theorem CollisionFree.mono {hash : ι → δ} (c : CollisionFree hash is₂) (h : is₁ ⊆ is₂) :
    CollisionFree hash is₁ :=
  fun x hx y hy => c x (h hx) y (h hy)

namespace Scheme

variable (S : Scheme ι α δ)

def leaf (a : α) : δ :=
  S.hash (S.leafInput a)

def node (l r : δ) : δ :=
  S.hash (S.nodeInput l r)

variable {S} {is : List ι}

theorem leaf_eq (c : CollisionFree S.hash is) (ha : S.leafInput a ∈ is) (hb : S.leafInput b ∈ is)
    (h : S.leaf a = S.leaf b) : a = b :=
  S.leaf_inj <| c _ ha _ hb h

theorem node_eq (c : CollisionFree S.hash is)
    (h₁ : S.nodeInput l₁ r₁ ∈ is) (h₂ : S.nodeInput l₂ r₂ ∈ is)
    (h : S.node l₁ r₁ = S.node l₂ r₂) : l₁ = l₂ ∧ r₁ = r₂ :=
  S.node_inj <| c _ h₁ _ h₂ h

theorem leaf_ne_node (c : CollisionFree S.hash is)
    (h₁ : S.leafInput a ∈ is) (h₂ : S.nodeInput l r ∈ is) : S.leaf a ≠ S.node l r :=
  fun h => S.leaf_ne <| c _ h₁ _ h₂ h

end Scheme
