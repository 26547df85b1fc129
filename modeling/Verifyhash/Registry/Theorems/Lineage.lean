import Verifyhash.Registry.Lineage
import Verifyhash.Registry.Theorems.Invariant

namespace Registry.State

-- The hashes from a record along its parents to a root.
inductive Chain (s : State) : Bytes32 → List Bytes32 → Prop
  | root : (s.records h).contributor ≠ 0 → (s.records h).parent = 0 → Chain s h [h]
  | link : (s.records h).contributor ≠ 0 → (s.records h).parent ≠ 0 → Chain s (s.records h).parent hs →
    Chain s h (h :: hs)

-- The entry for a hash of the chain.
def ancestor (s : State) (depth : ℕ) (h : Bytes32) : Ancestor :=
  (s.records h).toAncestor h depth

-- A walk which is resumed where it was capped, until it is not, and what its parts list.
inductive Resumed (s : State) (maxDepth : ℕ) : Bytes32 → List Ancestor → Prop
  | last :
    ((s.walkLineage h maxDepth).cappedAtDepth = false) → Resumed s maxDepth h (s.walkLineage h maxDepth).ancestors
  | next :
    ((s.walkLineage h maxDepth).cappedAtDepth = true) → ((s.walkLineage h maxDepth).nextParent = some parent) →
    (Resumed s maxDepth parent rest) → Resumed s maxDepth h ((s.walkLineage h maxDepth).ancestors ++ rest)

-- Each part of a resumed walk counts the depth from zero.
def unnumbered (a : Ancestor) : Ancestor :=
  { a with depth := 0 }

section

variable {s : State} {h start : Bytes32} {hs : List Bytes32} {maxDepth : ℕ}

namespace Chain

theorem contributor_ne (c : s.Chain h hs) : (s.records h).contributor ≠ 0 := by
  cases c <;> assumption

theorem exists_cons (c : s.Chain h hs) : ∃ t, hs = h :: t := by
  cases c
  case root         => exact ⟨[], rfl⟩
  case link hs _ _ _ => exact ⟨hs, rfl⟩

-- The rest of a chain is the chain of its first hash.
theorem drop (c : s.Chain h hs) (n : ℕ) (hn : hs[n]? = some p) : s.Chain p (hs.drop n) := by
  induction c generalizing n
  case root h hc hp =>
    cases n
    case zero =>
      obtain rfl : h = p := by simpa using hn
      exact .root hc hp
    case succ => simp at hn
  case link h hs hc hp c ih =>
    cases n
    case zero =>
      obtain rfl : h = p := by simpa using hn
      exact .link hc hp c
    case succ n => exact ih n <| by simpa using hn

end Chain

namespace Valid

variable (v : s.Valid)

include v

theorem exists_chain (hr : (s.records h).contributor ≠ 0) : ∃ hs, s.Chain h hs := by
  obtain ⟨i, hi, rfl⟩ := v.indexed h hr
  induction i using Nat.strong_induction_on
  case h i ih =>
    by_cases hp : (s.records <| s.hashByIndex i).parent = 0
    case pos => exact ⟨_, .root hr hp⟩
    case neg =>
      have ⟨j, hj, he⟩ := v.parents i hi hp
      have ⟨hs, c⟩ := ih j hj (hj.trans hi) (v.recorded j <| hj.trans hi)
      exact ⟨_, .link hr hp (he ▸ c)⟩

-- The records of a chain get older.
theorem lt_of_mem_chain (c : s.Chain h hs) (hi : i < s.total) (he : s.hashByIndex i = h) :
    ∀ p ∈ hs.tail, ∃ j < i, s.hashByIndex j = p := by
  induction c generalizing i
  case root => simp
  case link h hs hc hp c ih =>
    subst he
    have ⟨j, hj, he⟩ := v.parents i hi hp
    intro p hm
    obtain ⟨t, rfl⟩ := c.exists_cons
    rcases List.mem_cons.mp hm with rfl | hm
    · exact ⟨j, hj, he⟩
    · have ⟨k, hk, hp⟩ := ih (hj.trans hi) he p hm
      exact ⟨k, hk.trans hj, hp⟩

theorem nodup_chain (c : s.Chain h hs) : hs.Nodup := by
  induction c
  case root => simp
  case link h hs hc hp c ih =>
    refine List.nodup_cons.mpr ⟨?_, ih⟩
    intro hm
    obtain ⟨i, hi, rfl⟩ := v.indexed h hc
    have ⟨j, hj, he⟩ := v.lt_of_mem_chain (.link hc hp c) hi rfl _ hm
    exact hj.ne <| v.injective j (hj.trans hi) i hi he

end Valid

-- The result of a walk along a chain.
def lineageOf (s : State) (start : Bytes32) (maxDepth : ℕ) (hs : List Bytes32) : Lineage where
  status        := .walked
  start         := start
  ancestors     := (hs.take maxDepth).mapIdx s.ancestor
  cappedAtDepth := maxDepth < hs.length
  maxDepth      := maxDepth
  nextParent    := hs[maxDepth]?

-- The loop lists the rest of the chain as far as its iterations reach.
theorem walkFrom_eq (c : s.Chain w.cursor hs) (hn : hs.Nodup) (hd : left < maxDepth)
    (hs' : ∀ p ∈ hs, p ∉ w.seen) (hc : w.cappedAtDepth = false) (hp : w.nextParent = none) :
    s.walkFrom start maxDepth (left + 1) w = {
      status        := .walked
      start         := start
      ancestors     := w.ancestors ++ (hs.take (left + 1)).mapIdx fun i h => s.ancestor (maxDepth - (left + 1) + i) h
      cappedAtDepth := left + 1 < hs.length
      maxDepth      := maxDepth
      nextParent    := hs[left + 1]?
    } := by
  induction left generalizing w hs
  all_goals
    have hr : s.readOne w.cursor = some (s.records w.cursor) := if_neg c.contributor_ne
    have hm : w.cursor ∉ w.seen := by
      obtain ⟨t, rfl⟩ := c.exists_cons
      exact hs' _ <| List.mem_cons_self ..
    rw [walkFrom, if_neg hm, hr]
  case zero =>
    cases c
    case root hc hp => simp [isRoot, hp, walked, ancestor]
    case link hs hc' hp' c =>
      have hz : isRoot (s.records w.cursor).parent = false := decide_eq_false hp'
      obtain ⟨t, rfl⟩ := c.exists_cons
      simp [hz, walked, ancestor, walkFrom]
  case succ left ih =>
    cases c
    case root hc hp => simp [isRoot, hp, walked, ancestor]
    case link hs hc' hp' c =>
      have hl : maxDepth - (left + 1 + 1) ≠ maxDepth - 1 := by omega
      have ⟨hh, hn⟩ := List.nodup_cons.mp hn
      have hz : isRoot (s.records w.cursor).parent = false := decide_eq_false hp'
      have hs : ∀ p ∈ hs, p ∉ w.cursor :: w.seen := by
        intro p hm hs
        rcases List.mem_cons.mp hs with rfl | hs
        · exact hh hm
        · exact hs' p (List.mem_cons_of_mem _ hm) hs
      let w' : LineageWalk := {
        ancestors     := w.ancestors ++ [s.ancestor (maxDepth - (left + 1 + 1)) w.cursor]
        seen          := w.cursor :: w.seen
        cursor        := (s.records w.cursor).parent
        cappedAtDepth := w.cappedAtDepth
        nextParent    := w.nextParent
      }
      have ih := @ih _ w' c hn (by omega) hs hc hp
      simp only [hz, Bool.false_eq_true, if_false, hl]
      refine ih.trans ?_
      have hf : (fun i h => s.ancestor (maxDepth - (left + 1 + 1) + (i + 1)) h) =
          fun i h => s.ancestor (maxDepth - (left + 1) + i) h := by
        funext i h
        have : maxDepth - (left + 1 + 1) + (i + 1) = maxDepth - (left + 1) + i := by omega
        rw [this]
      simp [w', List.mapIdx_cons, hf]

theorem Valid.walkLineage_eq (v : s.Valid) (c : s.Chain h hs) (hd : 1 ≤ maxDepth) :
    s.walkLineage h maxDepth = s.lineageOf h maxDepth hs := by
  obtain ⟨left, rfl⟩ : ∃ left, maxDepth = left + 1 := ⟨maxDepth - 1, by omega⟩
  rw [walkLineage, if_neg (by omega), walkFrom_eq c (v.nodup_chain c) (Nat.lt_succ_self _) (by simp) rfl rfl]
  simp [lineageOf]

-- The chain of a record is unique.
theorem Chain.unique (c : s.Chain h hs) (c' : s.Chain h hs') : hs = hs' := by
  induction c generalizing hs'
  case root hp => cases c' <;> first | rfl | contradiction
  case link hp _ ih =>
    cases c'
    case root => contradiction
    case link c' => rw [ih c']

theorem map_unnumbered (hs : List Bytes32) :
    (hs.mapIdx s.ancestor).map unnumbered = hs.map (s.ancestor 0) := by
  apply List.ext_getElem?
  intro i
  cases h : hs[i]? <;> simp [h, unnumbered, ancestor, Record.toAncestor]

namespace Valid

variable (v : s.Valid)

include v

theorem exists_resumed (c : s.Chain h hs) (hd : 1 ≤ maxDepth) : ∃ as, s.Resumed maxDepth h as := by
  induction hl : hs.length using Nat.strong_induction_on generalizing h hs
  case h n ih =>
    have hw := v.walkLineage_eq c hd
    by_cases hc : maxDepth < hs.length
    case neg => exact ⟨_, .last <| by simp [hw, lineageOf, hc]⟩
    case pos =>
      have hp : hs[maxDepth]? = some hs[maxDepth] := List.getElem?_eq_getElem hc
      have ⟨as, r⟩ := ih _ (by rw [List.length_drop]; omega) (c.drop maxDepth hp) rfl
      exact ⟨_, .next (by simp [hw, lineageOf, hc]) (by rw [hw]; exact hp) r⟩

theorem resumed_eq (r : s.Resumed maxDepth h as) (c : s.Chain h hs) (hd : 1 ≤ maxDepth) :
    as.map unnumbered = hs.map (s.ancestor 0) := by
  induction r generalizing hs
  case last h hc =>
    have hw := v.walkLineage_eq c hd
    rw [hw] at hc ⊢
    have hl : hs.length ≤ maxDepth := by simpa [lineageOf] using hc
    simp only [lineageOf]
    rw [List.take_of_length_le hl, map_unnumbered]
  case next h p rest hc hp r ih =>
    have hw := v.walkLineage_eq c hd
    rw [hw] at hp ⊢
    rw [List.map_append, ih <| c.drop maxDepth hp]
    simp only [lineageOf]
    rw [map_unnumbered, ←List.map_append, List.take_append_drop]

end Valid

-- What the walks from a record say about its chain.
structure Walked (s : State) (start : Bytes32) (maxDepth : ℕ) (hs : List Bytes32) : Prop where
  chain      : s.Chain start hs
  unique     : ∀ hs', s.Chain start hs' → hs' = hs
  nodup      : hs.Nodup
  status     : (s.walkLineage start maxDepth).status = .walked
  ancestors  : (s.walkLineage start maxDepth).ancestors = (hs.take maxDepth).mapIdx s.ancestor
  capped     : (s.walkLineage start maxDepth).cappedAtDepth ↔ maxDepth < hs.length
  nextParent : (s.walkLineage start maxDepth).nextParent = hs[maxDepth]?
  resumed    : ∃ as, s.Resumed maxDepth start as
  complete   : ∀ as, s.Resumed maxDepth start as → as.map unnumbered = hs.map (s.ancestor 0)

-- In every run the walk from a record lists its chain exactly, and can be resumed.
theorem run_walked (keccak256 : Bytes → Bytes32) (ht : ∀ tx ∈ txs, tx.sender ≠ 0)
    (ha : ((init.run keccak256 txs).records start).contributor ≠ 0) (hd : 1 ≤ maxDepth) :
    ∃ hs, (init.run keccak256 txs).Walked start maxDepth hs := by
  have v := Valid.init.run keccak256 ht |>.left
  have ⟨hs, c⟩ := v.exists_chain ha
  have hw := v.walkLineage_eq c hd
  refine ⟨hs, {
    chain      := c
    unique     := fun hs' c' => c'.unique c
    nodup      := v.nodup_chain c
    status     := by rw [hw]; rfl
    ancestors  := by rw [hw]; rfl
    capped     := by simp [hw, lineageOf]
    nextParent := by rw [hw]; rfl
    resumed    := v.exists_resumed c hd
    complete   := fun as r => v.resumed_eq r c hd
  }⟩

theorem run_walked_alice :
    ∃ hs, (init.run Keccak.keccak256 [⟨alice, 1, 0, .anchor 7 []⟩, ⟨alice, 2, 0, .anchorWithParent 9 [] 7⟩]).Walked
      9 1 hs :=
  run_walked Keccak.keccak256 (by decide) (by decide) (by decide)

end

end Registry.State
