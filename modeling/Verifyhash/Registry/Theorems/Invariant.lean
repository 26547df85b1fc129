import Verifyhash.Hash.Keccak
import Verifyhash.Registry.Theorems.Step

namespace Registry

namespace State

variable {keccak256 : Bytes → Bytes32} {s s' : State} {tx : Tx}

-- The fields of a state which describe the records agree with each other.
structure Valid (s : State) : Prop where
  total_lt  : s.total < UINT256
  zero      : (s.records 0).contributor = 0
  unset     : ∀ h, (s.records h).contributor = 0 → s.records h = default
  recorded  : ∀ i < s.total, (s.records <| s.hashByIndex i).contributor ≠ 0
  indexed   : ∀ h, (s.records h).contributor ≠ 0 → ∃ i < s.total, s.hashByIndex i = h
  injective : ∀ i < s.total, ∀ j < s.total, s.hashByIndex i = s.hashByIndex j → i = j
  indices   : ∀ a, s.contributorIndices a =
    (List.range s.total).filter fun i => (s.records <| s.hashByIndex i).contributor = a
  count     : ∀ a, s.contributorCount a = (s.contributorIndices a).length
  parents   : ∀ i < s.total, (s.records <| s.hashByIndex i).parent ≠ 0 →
    ∃ j < i, s.hashByIndex j = (s.records <| s.hashByIndex i).parent

namespace Valid

theorem log (v : s.Valid) : (s.log es).Valid :=
  ⟨v.total_lt, v.zero, v.unset, v.recorded, v.indexed, v.injective, v.indices, v.count, v.parents⟩

theorem setCommitment (v : s.Valid) : (s.setCommitment x c).Valid :=
  ⟨v.total_lt, v.zero, v.unset, v.recorded, v.indexed, v.injective, v.indices, v.count, v.parents⟩

theorem init : Registry.init.Valid where
  total_lt  := by simp [Registry.init, UINT256]
  zero      := rfl
  unset _ _ := rfl
  recorded  := by simp [Registry.init]
  indexed _ h := absurd rfl h
  injective := by simp [Registry.init]
  indices _ := rfl
  count _   := rfl
  parents   := by simp [Registry.init]

theorem length_contributorIndices_le (v : s.Valid) (a : Address) :
    (s.contributorIndices a).length ≤ s.total := by
  rw [v.indices]
  exact (List.length_filter_le ..).trans List.length_range.le

-- There are fewer than `2 ^ 256` records, as each one has a hash of its own.
theorem lt_uint256 {f : ℕ → Bytes32} (h₀ : ∀ i < n, f i ≠ 0)
    (h : ∀ i < n, ∀ j < n, f i = f j → i = j) : n < UINT256 := by
  have hm : Set.MapsTo (fun i => (f i).toNat) (Finset.range n) (Finset.Ico 1 UINT256) := by
    intro i hi
    have := h₀ i (by simpa using hi)
    have : (f i).toNat ≠ 0 := fun h => this <| BitVec.eq_of_toNat_eq h
    have hl := (f i).isLt
    simp only [Finset.coe_Ico, Set.mem_Ico, UINT256]
    omega
  have hi : Set.InjOn (fun i => (f i).toNat) (Finset.range n) := fun i hi j hj hf =>
    h i (by simpa using hi) j (by simpa using hj) <| BitVec.eq_of_toNat_eq hf
  have := Finset.card_le_card_of_injOn _ hm hi
  simp only [Finset.card_range, Nat.card_Ico, UINT256] at *
  omega

section

variable (v : s.Valid) (w : s.Writable contentHash parent)

include v w

theorem hashByIndex_ne (hi : i < s.total) : s.hashByIndex i ≠ contentHash :=
  fun h => v.recorded i hi <| h ▸ w.fresh

theorem total_succ_lt : s.total + 1 < UINT256 := by
  let f := Function.update s.hashByIndex s.total contentHash
  have hf (i) (hi : i < s.total) : f i = s.hashByIndex i := Function.update_of_ne hi.ne ..
  have ht : f s.total = contentHash := Function.update_self ..
  have hn := fun i (hi : i < s.total) => v.hashByIndex_ne w hi
  refine lt_uint256 (f := f) (fun i hi => ?_) (fun i hi j hj h => ?_)
  · rcases Nat.lt_succ_iff_lt_or_eq.mp hi with hi | rfl
    · rw [hf i hi]
      exact fun h => v.recorded i hi <| h ▸ v.zero
    · exact ht ▸ w.nonzero
  · have := v.injective
    grind

end

end Valid

section

variable {contentHash : Bytes32} {uri : Bytes} {authorBound : Bool} {parent : Bytes32}

theorem write_records_self :
    (s.write tx contentHash uri authorBound parent).records contentHash =
      ⟨tx.sender, authorBound, .ofNat 64 tx.timestamp, .ofNat 64 tx.block, uri, parent⟩ :=
  Function.update_self ..

theorem write_records_of_ne (h : other ≠ contentHash) :
    (s.write tx contentHash uri authorBound parent).records other = s.records other :=
  Function.update_of_ne h ..

theorem write_hashByIndex_self :
    (s.write tx contentHash uri authorBound parent).hashByIndex s.total = contentHash :=
  Function.update_self ..

theorem write_hashByIndex_of_ne (h : i ≠ s.total) :
    (s.write tx contentHash uri authorBound parent).hashByIndex i = s.hashByIndex i :=
  Function.update_of_ne h ..

theorem write_contributorIndices (a : Address) :
    (s.write tx contentHash uri authorBound parent).contributorIndices a =
      s.contributorIndices a ++ if a = tx.sender then [s.total] else [] := by
  by_cases h : a = tx.sender <;> simp [write, h]

theorem write_contributorCount (a : Address) :
    (s.write tx contentHash uri authorBound parent).contributorCount a =
      if a = tx.sender then (s.contributorCount a + 1) % UINT256 else s.contributorCount a := by
  by_cases h : a = tx.sender <;> simp [write, h]

end

namespace Valid

variable (v : s.Valid) (w : s.Writable contentHash parent)

include v w

theorem write_total : (s.write tx contentHash uri authorBound parent).total = s.total + 1 :=
  Nat.mod_eq_of_lt <| v.total_succ_lt w

-- The records below the new one are those from before.
theorem write_records_lt (hi : i < s.total) :
    (s.write tx contentHash uri authorBound parent).records
      ((s.write tx contentHash uri authorBound parent).hashByIndex i) =
    s.records (s.hashByIndex i) := by
  rw [write_hashByIndex_of_ne hi.ne, write_records_of_ne <| v.hashByIndex_ne w hi]

theorem write (hs : tx.sender ≠ 0) : (s.write tx contentHash uri authorBound parent).Valid where
  total_lt  := v.write_total w ▸ v.total_succ_lt w
  zero      := write_records_of_ne (s := s) w.nonzero.symm ▸ v.zero
  unset     := by
    intro other h
    by_cases ho : other = contentHash
    case pos =>
      subst ho
      rw [write_records_self] at h
      exact absurd h hs
    case neg =>
      rw [write_records_of_ne ho] at h ⊢
      exact v.unset other h
  recorded  := by
    intro i hi
    rw [v.write_total w] at hi
    rcases Nat.lt_succ_iff_lt_or_eq.mp hi with hi | rfl
    · rw [v.write_records_lt w hi]
      exact v.recorded i hi
    · rw [write_hashByIndex_self, write_records_self]
      exact hs
  indexed   := by
    intro other h
    rw [v.write_total w]
    by_cases ho : other = contentHash
    case pos => exact ⟨s.total, Nat.lt_succ_self _, ho ▸ write_hashByIndex_self⟩
    case neg =>
      rw [write_records_of_ne ho] at h
      have ⟨i, hi, he⟩ := v.indexed other h
      exact ⟨i, Nat.lt_succ_of_lt hi, write_hashByIndex_of_ne hi.ne ▸ he⟩
  injective := by
    intro i hi j hj h
    rw [v.write_total w] at hi hj
    rcases Nat.lt_succ_iff_lt_or_eq.mp hi with hi | rfl <;>
      rcases Nat.lt_succ_iff_lt_or_eq.mp hj with hj | rfl
    · rw [write_hashByIndex_of_ne hi.ne, write_hashByIndex_of_ne hj.ne] at h
      exact v.injective i hi j hj h
    · rw [write_hashByIndex_of_ne hi.ne, write_hashByIndex_self] at h
      exact absurd h <| v.hashByIndex_ne w hi
    · rw [write_hashByIndex_of_ne hj.ne, write_hashByIndex_self] at h
      exact absurd h.symm <| v.hashByIndex_ne w hj
    · rfl
  indices   := by
    intro a
    have hf : ∀ i ∈ List.range s.total,
        decide (((s.write tx contentHash uri authorBound parent).records
          ((s.write tx contentHash uri authorBound parent).hashByIndex i)).contributor = a) =
        decide ((s.records <| s.hashByIndex i).contributor = a) :=
      fun i hi => by rw [v.write_records_lt w <| List.mem_range.mp hi]
    rw [v.write_total w, write_contributorIndices, v.indices, List.range_succ, List.filter_append,
      List.filter_congr hf, List.filter_singleton, write_hashByIndex_self, write_records_self]
    simp [eq_comm]
  count     := by
    intro a
    have hl := v.length_contributorIndices_le a
    have ht := v.total_succ_lt w
    rw [write_contributorCount, write_contributorIndices, v.count]
    split_ifs
    · rw [Nat.mod_eq_of_lt (by omega), List.length_append, List.length_singleton]
    · simp
  parents   := by
    intro i hi hp
    rw [v.write_total w] at hi
    rcases Nat.lt_succ_iff_lt_or_eq.mp hi with hi | rfl
    · rw [v.write_records_lt w hi] at hp ⊢
      have ⟨j, hj, he⟩ := v.parents i hi hp
      exact ⟨j, hj, write_hashByIndex_of_ne (hj.trans hi).ne ▸ he⟩
    · rw [write_hashByIndex_self, write_records_self] at hp ⊢
      have ⟨j, hj, he⟩ := v.indexed parent (w.linked hp).right
      exact ⟨j, hj, write_hashByIndex_of_ne hj.ne ▸ he⟩

end Valid

-- The records of the first state are in the second one, at the same indices.
structure Extends (s s' : State) : Prop where
  total       : s.total ≤ s'.total
  hashByIndex : ∀ i < s.total, s'.hashByIndex i = s.hashByIndex i
  records     : ∀ h, (s.records h).contributor ≠ 0 → s'.records h = s.records h

namespace Extends

theorem refl (s : State) : Extends s s :=
  ⟨le_rfl, fun _ _ => rfl, fun _ _ => rfl⟩

theorem trans (e₁ : Extends s₁ s₂) (e₂ : Extends s₂ s₃) : Extends s₁ s₃ where
  total             := e₁.total.trans e₂.total
  hashByIndex i hi  := (e₂.hashByIndex i <| hi.trans_le e₁.total).trans <| e₁.hashByIndex i hi
  records h hr      := (e₂.records h <| e₁.records h hr ▸ hr).trans <| e₁.records h hr

theorem write (v : s.Valid) (w : s.Writable contentHash parent) :
    Extends s (s.write tx contentHash uri authorBound parent) where
  total             := v.write_total w ▸ Nat.le_succ _
  hashByIndex _ hi  := write_hashByIndex_of_ne hi.ne
  records _ hr      := write_records_of_ne fun he => hr <| he ▸ w.fresh

end Extends

theorem Writable.setCommitment (w : s.Writable contentHash parent) :
    (s.setCommitment x c).Writable contentHash parent :=
  ⟨w.nonzero, w.fresh, w.linked⟩

theorem Succeeds.valid (h : s.Succeeds keccak256 tx s') (v : s.Valid) (hs : tx.sender ≠ 0) :
    s'.Valid :=
  match h with
  | .anchor _ w   => v.write w hs
  | .commit ..    => v.setCommitment.log
  | .reveal _ _ w => (v.setCommitment.write w.setCommitment hs).log

theorem Succeeds.extends (h : s.Succeeds keccak256 tx s') (v : s.Valid) : Extends s s' :=
  match h with
  | .anchor _ w   => .write v w
  | .commit ..    => ⟨le_rfl, fun _ _ => rfl, fun _ _ => rfl⟩
  | .reveal _ _ w =>
    have e := Extends.write v.setCommitment w.setCommitment
    ⟨e.total, e.hashByIndex, e.records⟩

theorem Valid.step (v : s.Valid) (hs : tx.sender ≠ 0) : (s.step keccak256 tx).Valid := by
  rcases step_cases keccak256 s tx with h | ⟨h, _⟩
  · exact h.valid v hs
  · rwa [h]

theorem Valid.extends_step (v : s.Valid) : Extends s (s.step keccak256 tx) := by
  rcases step_cases keccak256 s tx with h | ⟨h, _⟩
  · exact h.extends v
  · rw [h]
    exact .refl s

variable (keccak256) in
theorem Valid.run (v : s.Valid) (hs : ∀ tx ∈ txs, tx.sender ≠ 0) :
    (s.run keccak256 txs).Valid ∧ Extends s (s.run keccak256 txs) :=
  List.foldlRecOn (motive := fun s' => s'.Valid ∧ Extends s s') txs _ ⟨v, .refl s⟩
    fun _ ⟨v, e⟩ tx hm => ⟨v.step (hs tx hm), e.trans v.extends_step⟩

-- What the fields of the storage say about each other.
structure Indexed (s : State) : Prop where
  bijection  : Set.BijOn s.hashByIndex (Set.Iio s.total) {h | (s.records h).contributor ≠ 0}
  zero       : (s.records 0).contributor = 0
  sorted     : ∀ a, (s.contributorIndices a).Pairwise (· < ·)
  mem        : ∀ a i, i ∈ s.contributorIndices a ↔
    i < s.total ∧ (s.records <| s.hashByIndex i).contributor = a
  count      : ∀ a, s.contributorCount a = (s.contributorIndices a).length
  sum        : ∑ᶠ a, s.contributorCount a = s.total
  parents    : ∀ i < s.total, (s.records <| s.hashByIndex i).parent ≠ 0 →
    ∃ j < i, s.hashByIndex j = (s.records <| s.hashByIndex i).parent
  terminates : ∀ h, ∃ n, (fun h => (s.records h).parent)^[n] h = 0

namespace Valid

theorem sum_contributorCount (v : s.Valid) : ∑ᶠ a, s.contributorCount a = s.total := by
  let contributor i := (s.records <| s.hashByIndex i).contributor
  have hc (a) : s.contributorCount a = ((Finset.range s.total).filter (contributor · = a)).card := by
    rw [v.count, v.indices]
    rfl
  have hs : Function.support s.contributorCount ⊆ (Finset.range s.total).image contributor := by
    intro a ha
    rw [Function.mem_support, hc, Finset.card_ne_zero] at ha
    obtain ⟨i, hi⟩ := ha
    have := Finset.mem_filter.mp hi
    exact Finset.mem_image.mpr ⟨i, this⟩
  rw [finsum_eq_sum_of_support_subset _ hs, Finset.sum_congr rfl fun a _ => hc a,
    ←Finset.card_eq_sum_card_image, Finset.card_range]

-- Following parents goes down in the indices.
theorem terminates (v : s.Valid) (h : Bytes32) : ∃ n, (fun h => (s.records h).parent)^[n] h = 0 := by
  by_cases hr : (s.records h).contributor = 0
  case pos => exact ⟨1, by simp [v.unset h hr]; rfl⟩
  case neg =>
    obtain ⟨i, hi, rfl⟩ := v.indexed h hr
    induction i using Nat.strong_induction_on
    case h i ih =>
      by_cases hp : (s.records <| s.hashByIndex i).parent = 0
      case pos => exact ⟨1, hp⟩
      case neg =>
        have ⟨j, hj, he⟩ := v.parents i hi hp
        have ⟨n, hn⟩ := ih j hj (hj.trans hi) (v.recorded j <| hj.trans hi)
        exact ⟨n + 1, by rwa [Function.iterate_succ_apply, ←he]⟩

theorem toIndexed (v : s.Valid) : s.Indexed where
  bijection   := ⟨v.recorded, fun i hi j hj => v.injective i hi j hj, v.indexed⟩
  zero        := v.zero
  sorted a    := v.indices a ▸ List.pairwise_lt_range.filter _
  mem a i     := by simp [v.indices]
  count       := v.count
  sum         := v.sum_contributorCount
  parents     := v.parents
  terminates  := v.terminates

end Valid

-- In every run the storage is consistent, and what is written stays as it is.
theorem run_indexed (keccak256 : Bytes → Bytes32) (hs : ∀ tx ∈ txs₁ ++ txs₂, tx.sender ≠ 0) :
    (init.run keccak256 txs₁).Indexed ∧
    Extends (init.run keccak256 txs₁) (init.run keccak256 <| txs₁ ++ txs₂) := by
  have ⟨v, _⟩ := Valid.init.run keccak256 fun _ hm => hs _ <| List.mem_append_left _ hm
  have ⟨_, e⟩ := v.run keccak256 fun _ hm => hs _ <| List.mem_append_right _ hm
  exact ⟨v.toIndexed, run_append ▸ e⟩

end State

def alice : Address := 0xa11ce

def attacker : Address := 0xbad

def content : Bytes32 := 7

def secret : Bytes32 := 5

def aliceCommitment : Bytes32 :=
  commitmentOf Keccak.keccak256 content alice secret

def aliceClaims : List Tx := [
    ⟨alice, 1, 0, .commit aliceCommitment⟩,
    ⟨alice, 3, 0, .reveal content secret []⟩
  ]

theorem run_indexed_alice :
    (init.run Keccak.keccak256 aliceClaims).Indexed ∧
    State.Extends (init.run Keccak.keccak256 aliceClaims)
      (init.run Keccak.keccak256 <| aliceClaims ++ [⟨attacker, 4, 0, .anchorWithParent 9 [] content⟩]) :=
  State.run_indexed Keccak.keccak256 (by decide)

end Registry
