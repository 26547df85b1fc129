import Verifyhash.Library.Fallible
import Verifyhash.Registry.Contract

namespace Registry

open Fallible

variable {keccak256 : Bytes → Bytes32} {s s' : State} {tx : Tx}

theorem revertIf_eq_ok [Decidable p] {u : Unit} : revertIf p e = .ok u ↔ ¬p := by
  by_cases h : p <;> simp [revertIf, h]

theorem checkedAdd_eq_ok {x y z : BitVec 64} :
    checkedAdd x y = .ok z ↔ x.toNat + y.toNat < 2 ^ 64 ∧ x + y = z := by
  rw [checkedAdd]
  split_ifs with h
  case pos => simp only [h, Except.ok.injEq, true_and]
  case neg => simp only [h, false_and]

namespace Call

-- The arguments of a call which anchors without a commitment.
def anchors : Call → Option (Bytes32 × Bytes × Bytes32)
  | anchor contentHash uri                  => some (contentHash, uri, 0)
  | anchorWithParent contentHash uri parent => some (contentHash, uri, parent)
  | _                                       => none

-- The arguments of a call which opens a commitment.
def reveals : Call → Option (Bytes32 × Bytes32 × Bytes × Bytes32)
  | reveal contentHash salt uri                  => some (contentHash, salt, uri, 0)
  | revealWithParent contentHash salt uri parent => some (contentHash, salt, uri, parent)
  | _                                            => none

end Call

namespace State

-- A record of the hash can be written, below the given parent.
structure Writable (s : State) (contentHash parent : Bytes32) : Prop where
  nonzero : contentHash ≠ 0
  fresh   : (s.records contentHash).contributor = 0
  linked  : parent ≠ 0 → parent ≠ contentHash ∧ (s.records parent).contributor ≠ 0

-- The commitment is registered, for more than the delay.
structure Mature (s : State) (tx : Tx) (commitment : Bytes32) : Prop where
  committed : (s.commitments commitment).committer ≠ 0
  delay     : (s.commitments commitment).blockNumber.toNat + 1 < tx.block % 2 ^ 64

def committed (s : State) (tx : Tx) (commitment : Bytes32) : State :=
  (s.setCommitment commitment ⟨tx.sender, .ofNat 64 tx.block⟩).log
    [.committed commitment tx.sender (.ofNat 64 tx.block)]

def opened (s : State) (tx : Tx) (contentHash : Bytes32) (uri : Bytes) (parent commitment : Bytes32) :
    State :=
  ((s.setCommitment commitment default).write tx contentHash uri true parent).log
    [.revealed contentHash tx.sender s.total commitment (.ofNat 64 tx.timestamp) uri]

-- Everything that a transaction can do without reverting.
inductive Succeeds (s : State) (keccak256 : Bytes → Bytes32) (tx : Tx) : State → Prop
  | anchor :
    (tx.call.anchors = some (contentHash, uri, parent)) → (s.Writable contentHash parent) →
    Succeeds s keccak256 tx (s.write tx contentHash uri false parent)
  | commit :
    (tx.call = .commit commitment) → (commitment ≠ 0) → ((s.commitments commitment).committer = 0) →
    Succeeds s keccak256 tx (s.committed tx commitment)
  | reveal :
    (tx.call.reveals = some (contentHash, salt, uri, parent)) →
    (s.Mature tx <| commitmentOf keccak256 contentHash tx.sender salt) → (s.Writable contentHash parent) →
    Succeeds s keccak256 tx
      (s.opened tx contentHash uri parent <| commitmentOf keccak256 contentHash tx.sender salt)

theorem record_eq_ok :
    s.record tx contentHash uri authorBound parent = .ok (index, s') ↔
      s.Writable contentHash parent ∧ s.total = index ∧
      s.write tx contentHash uri authorBound parent = s' := by
  simp only [record, bind_eq_ok, revertIf_eq_ok, pure_eq_ok, exists_const, Prod.mk.injEq]
  constructor
  · rintro ⟨h₀, h₁, h₂, h₃, rfl, rfl⟩
    exact ⟨⟨h₀, not_not.mp h₁, by grind⟩, rfl, rfl⟩
  · rintro ⟨⟨h₀, h₁, h₂⟩, rfl, rfl⟩
    exact ⟨h₀, not_not.mpr h₁, by grind, by grind, rfl, rfl⟩

theorem commit_eq_ok :
    s.commit tx commitment = .ok s' ↔
      commitment ≠ 0 ∧ (s.commitments commitment).committer = 0 ∧
      s.committed tx commitment = s' := by
  simp only [commit, bind_eq_ok, revertIf_eq_ok, pure_eq_ok, exists_const, ne_eq, not_not]
  rfl

theorem mature_iff :
    s.Mature tx commitment ↔
      (s.commitments commitment).committer ≠ 0 ∧
      ∃ mature, checkedAdd (s.commitments commitment).blockNumber MIN_REVEAL_DELAY = .ok mature ∧
        ¬ BitVec.ofNat 64 tx.block ≤ mature := by
  have h₁ : (1 : BitVec 64).toNat = 1 := rfl
  simp only [checkedAdd_eq_ok, MIN_REVEAL_DELAY, BitVec.not_le, BitVec.lt_def, h₁]
  constructor
  · rintro ⟨hc, hd⟩
    refine ⟨hc, _, ⟨by omega, rfl⟩, ?_⟩
    rw [BitVec.toNat_add_of_lt (by omega), BitVec.toNat_ofNat]
    exact hd
  · rintro ⟨hc, _, ⟨ha, rfl⟩, hd⟩
    rw [BitVec.toNat_add_of_lt ha, BitVec.toNat_ofNat] at hd
    exact ⟨hc, hd⟩

theorem reveal_eq_ok :
    s.reveal keccak256 tx contentHash salt uri parent = .ok (index, s') ↔
      s.Mature tx (commitmentOf keccak256 contentHash tx.sender salt) ∧
      s.Writable contentHash parent ∧ s.total = index ∧
      s.opened tx contentHash uri parent (commitmentOf keccak256 contentHash tx.sender salt) = s' := by
  simp only [reveal, bind_eq_ok, revertIf_eq_ok, pure_eq_ok, exists_const, Prod.exists, record_eq_ok,
    Prod.mk.injEq, mature_iff]
  constructor
  · rintro ⟨_, hc, _, hm, hd, _, _, ⟨hw, rfl, rfl⟩, rfl, rfl⟩
    exact ⟨⟨hc, _, hm, hd⟩, ⟨hw.nonzero, hw.fresh, hw.linked⟩, rfl, rfl⟩
  · rintro ⟨⟨hc, _, hm, hd⟩, hw, rfl, rfl⟩
    exact ⟨hw.nonzero, hc, _, hm, hd, _, _, ⟨⟨hw.nonzero, hw.fresh, hw.linked⟩, rfl, rfl⟩, rfl, rfl⟩

theorem exec_anchors (h : tx.call.anchors = some (contentHash, uri, parent)) :
    s.exec keccak256 tx = do
      let (index, s) ← s.record tx contentHash uri false parent
      return (some index, s) := by
  cases hc : tx.call <;> simp_all [Call.anchors, exec]

theorem exec_reveals (h : tx.call.reveals = some (contentHash, salt, uri, parent)) :
    s.exec keccak256 tx = do
      let (index, s) ← s.reveal keccak256 tx contentHash salt uri parent
      return (some index, s) := by
  cases hc : tx.call <;> simp_all [Call.reveals, exec]

theorem exec_eq_ok :
    (∃ index, s.exec keccak256 tx = .ok (index, s')) ↔ s.Succeeds keccak256 tx s' := by
  constructor
  · rintro ⟨index, h⟩
    cases hc : tx.call <;>
      simp only [exec, hc, bind_eq_ok, pure_eq_ok, Prod.exists, record_eq_ok, reveal_eq_ok,
        commit_eq_ok, Prod.mk.injEq] at h
    case anchor | anchorWithParent =>
      obtain ⟨_, _, ⟨hw, _, rfl⟩, _, rfl⟩ := h
      exact .anchor (by rw [hc, Call.anchors]) hw
    case commit =>
      obtain ⟨_, ⟨h₀, hf, rfl⟩, _, rfl⟩ := h
      exact .commit hc h₀ hf
    case reveal | revealWithParent =>
      obtain ⟨_, _, ⟨hm, hw, _, rfl⟩, _, rfl⟩ := h
      exact .reveal (by rw [hc, Call.reveals]) hm hw
  · rintro (⟨hc, hw⟩ | ⟨hc, h₀, hf⟩ | ⟨hc, hm, hw⟩)
    case anchor =>
      rw [exec_anchors hc]
      exact ⟨_, bind_eq_ok.mpr ⟨_, record_eq_ok.mpr ⟨hw, rfl, rfl⟩, rfl⟩⟩
    case commit =>
      rw [exec, hc]
      exact ⟨_, bind_eq_ok.mpr ⟨_, commit_eq_ok.mpr ⟨h₀, hf, rfl⟩, rfl⟩⟩
    case reveal =>
      rw [exec_reveals hc]
      exact ⟨_, bind_eq_ok.mpr ⟨_, reveal_eq_ok.mpr ⟨hm, hw, rfl, rfl⟩, rfl⟩⟩

variable (keccak256) in
-- A transaction either succeeds, or leaves the state unchanged.
theorem step_cases (s : State) (tx : Tx) :
    s.Succeeds keccak256 tx (s.step keccak256 tx) ∨
      s.step keccak256 tx = s ∧ ∀ s', ¬ s.Succeeds keccak256 tx s' := by
  rw [step]
  split
  case h_1 index s' h => exact .inl <| exec_eq_ok.mp ⟨index, h⟩
  case h_2 e h =>
    refine .inr ⟨rfl, fun s' hs => ?_⟩
    have ⟨_, hs⟩ := exec_eq_ok.mpr hs
    rw [h] at hs
    contradiction

theorem Succeeds.step_eq (h : s.Succeeds keccak256 tx s') : s.step keccak256 tx = s' := by
  have ⟨_, h⟩ := exec_eq_ok.mpr h
  rw [step, h]

theorem run_append : s.run keccak256 (txs₁ ++ txs₂) = (s.run keccak256 txs₁).run keccak256 txs₂ :=
  List.foldl_append

theorem run_concat : s.run keccak256 (txs ++ [tx]) = (s.run keccak256 txs).step keccak256 tx :=
  run_append

end State
end Registry
