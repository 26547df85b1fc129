import Verifyhash.Library.Hashing
import Verifyhash.Library.Runs
import Verifyhash.Registry.Theorems.Invariant

namespace Registry

open State

variable {keccak256 : Bytes → Bytes32} {s s' : State} {tx : Tx} {txs : List Tx}

theorem commitmentInput_inj (h : commitmentInput h₁ a₁ salt₁ = commitmentInput h₂ a₂ salt₂) :
    h₁ = h₂ ∧ a₁ = a₂ ∧ salt₁ = salt₂ := by
  simp only [commitmentInput, List.append_assoc] at h
  have ⟨hh, h⟩ := Bytes.ofBytes32_append_inj h
  have ⟨ha, h⟩ := Bytes.ofBytes32_append_inj h
  refine ⟨hh, ?_, Bytes.ofBytes32_inj h⟩
  have := congrArg BitVec.toNat ha
  simp only [BitVec.toNat_setWidth] at this
  exact BitVec.eq_of_toNat_eq <| by omega

namespace State

-- A transaction which opens the commitment to the hash by its sender.
def Opens (keccak256 : Bytes → Bytes32) (s : State) (tx : Tx) (contentHash salt : Bytes32) : Prop :=
  ∃ uri parent, tx.call.reveals = some (contentHash, salt, uri, parent) ∧
    s.Mature tx (commitmentOf keccak256 contentHash tx.sender salt) ∧ s.Writable contentHash parent

theorem Succeeds.records_eq (h : s.Succeeds keccak256 tx s')
    (hr : (s.records other).contributor ≠ 0) : s'.records other = s.records other :=
  match h with
  | .anchor _ w | .reveal _ _ w => write_records_of_ne fun he => hr <| he ▸ w.fresh
  | .commit ..                  => rfl

theorem records_step (hr : (s.records other).contributor ≠ 0) :
    (s.step keccak256 tx).records other = s.records other := by
  rcases step_cases keccak256 s tx with h | ⟨h, _⟩
  · exact h.records_eq hr
  · rw [h]

theorem records_run (hr : (s.records other).contributor ≠ 0) :
    (s.run keccak256 txs).records other = s.records other :=
  List.foldlRecOn (motive := fun s' : State => s'.records other = s.records other) txs _ rfl
    fun _ h _ _ => h ▸ records_step (h ▸ hr)

-- Only a reveal writes a record whose author is bound.
theorem Succeeds.authorBound (h : s.Succeeds keccak256 tx s')
    (hn : s'.records other ≠ s.records other) (hb : (s'.records other).authorBound) :
    ∃ salt, s.Opens keccak256 tx other salt ∧ (s'.records other).contributor = tx.sender := by
  cases h
  case anchor contentHash _ _ hc w =>
    by_cases ho : other = contentHash
    case pos => simp [ho, write_records_self] at hb
    case neg => exact absurd (write_records_of_ne ho) hn
  case commit => exact absurd rfl hn
  case reveal contentHash salt uri parent hc hm w =>
    by_cases ho : other = contentHash
    case pos =>
      subst ho
      exact ⟨salt, ⟨uri, parent, hc, hm, w⟩, congrArg Record.contributor write_records_self⟩
    case neg => exact absurd (write_records_of_ne ho) hn

-- Only a call of `commit` registers a commitment.
theorem Succeeds.commitment (h : s.Succeeds keccak256 tx s')
    (hn : s'.commitments x ≠ s.commitments x) (hc : (s'.commitments x).committer ≠ 0) :
    tx.call = .commit x ∧ s'.commitments x = ⟨tx.sender, .ofNat 64 tx.block⟩ := by
  cases h
  case anchor => exact absurd rfl hn
  case commit commitment h _ _ =>
    by_cases hx : x = commitment
    case pos =>
      subst hx
      exact ⟨h, Function.update_self ..⟩
    case neg => exact absurd (Function.update_of_ne hx ..) hn
  case reveal contentHash salt uri parent _ _ _ =>
    by_cases hx : x = commitmentOf keccak256 contentHash tx.sender salt
    case pos =>
      subst hx
      have : (s.opened tx contentHash uri parent (commitmentOf keccak256 contentHash tx.sender salt)).commitments
          (commitmentOf keccak256 contentHash tx.sender salt) = default := Function.update_self ..
      rw [this] at hc
      exact absurd rfl hc
    case neg => exact absurd (Function.update_of_ne hx ..) hn

theorem succeeds_of_ne (h : s.step keccak256 tx ≠ s) :
    s.Succeeds keccak256 tx (s.step keccak256 tx) := by
  rcases step_cases keccak256 s tx with h' | ⟨h', _⟩
  · exact h'
  · exact absurd h' h

theorem Opens.contributor (h : s.Opens keccak256 tx contentHash salt) :
    ((s.step keccak256 tx).records contentHash).contributor = tx.sender := by
  obtain ⟨uri, parent, hc, hm, w⟩ := h
  rw [(Succeeds.reveal hc hm w).step_eq]
  exact congrArg Record.contributor write_records_self

-- If the commitment which a reveal opens is registered, it is registered by the sender.
def OwnReveal (keccak256 : Bytes → Bytes32) (s : State) (tx : Tx) : Bool :=
  match tx.call.reveals with
  | some (contentHash, salt, _, _) =>
    (s.commitments <| commitmentOf keccak256 contentHash tx.sender salt).committer ∈ [0, tx.sender]
  | none => true

theorem Opens.committer (h : s.Opens keccak256 tx contentHash salt) (ho : s.OwnReveal keccak256 tx) :
    (s.commitments <| commitmentOf keccak256 contentHash tx.sender salt).committer = tx.sender := by
  obtain ⟨uri, parent, hc, hm, _⟩ := h
  simpa [OwnReveal, hc, show _ ≠ (0#160 : Address) from hm.committed] using ho

end State

-- The inputs which are hashed for the commitments that are to be opened.
def revealInputs (txs : List Tx) : List Bytes :=
  txs.flatMap fun tx =>
    match tx.call.reveals with
    | some (contentHash, salt, _, _) => [commitmentInput contentHash tx.sender salt]
    | none                           => []

-- The record of the hash was written by a reveal of its contributor, which opened a commitment that
-- the contributor had registered before.
def Claimed (keccak256 : Bytes → Bytes32) (txs : List Tx) (contentHash : Bytes32) (contributor : Address) : Prop :=
  ∃ pre commitTx mid revealTx post salt,
    txs = pre ++ commitTx :: mid ++ revealTx :: post ∧
    commitTx.sender = contributor ∧ revealTx.sender = contributor ∧
    let commitment := commitmentOf keccak256 contentHash contributor salt
    let registration : Commitment := ⟨contributor, .ofNat 64 commitTx.block⟩
    let s := init.run keccak256 (pre ++ commitTx :: mid)
    commitTx.call = .commit commitment ∧
    (init.run keccak256 (pre ++ [commitTx])).commitments commitment = registration ∧
    s.commitments commitment = registration ∧ s.Opens keccak256 revealTx contentHash salt ∧
    (s.step keccak256 revealTx).records contentHash = (init.run keccak256 txs).records contentHash ∧
    commitTx.block + MIN_REVEAL_DELAY.toNat < revealTx.block

-- No two reveals open the same commitment.
def OpenedOnce (keccak256 : Bytes → Bytes32) (txs : List Tx) : Prop :=
  ∀ pre tx₁ mid tx₂ post, txs = pre ++ tx₁ :: mid ++ tx₂ :: post →
    ∀ h₁ salt₁ h₂ salt₂, (init.run keccak256 pre).Opens keccak256 tx₁ h₁ salt₁ →
      (init.run keccak256 <| pre ++ tx₁ :: mid).Opens keccak256 tx₂ h₂ salt₂ →
      commitmentOf keccak256 h₁ tx₁.sender salt₁ ≠ commitmentOf keccak256 h₂ tx₂.sender salt₂

theorem run_cons : init.run keccak256 (pre ++ tx :: txs) =
    ((init.run keccak256 pre).step keccak256 tx).run keccak256 txs := by
  rw [run_append]
  rfl

section

variable (ho : ∀ i (hi : i < txs.length),
  (init.run keccak256 <| txs.take i).OwnReveal keccak256 txs[i])

include ho

theorem ownReveal_at (h : txs = pre ++ tx :: post) :
    (init.run keccak256 pre).OwnReveal keccak256 tx := by
  subst h
  simpa using ho pre.length (by simp)

theorem openedOnce (c : CollisionFree keccak256 (revealInputs txs)) : OpenedOnce keccak256 txs := by
  rintro pre tx₁ mid tx₂ post rfl h₁ salt₁ h₂ salt₂ o₁ o₂ he
  have hi : commitmentInput h₁ tx₁.sender salt₁ = commitmentInput h₂ tx₂.sender salt₂ := by
    obtain ⟨_, _, hc₁, _⟩ := o₁
    obtain ⟨_, _, hc₂, _⟩ := o₂
    exact c _ (by simp [revealInputs, hc₁]) _ (by simp [revealInputs, hc₂]) he
  obtain ⟨rfl, -⟩ := commitmentInput_inj hi
  -- The hash of the first reveal is recorded from then on.
  have hs : tx₁.sender ≠ 0 := by
    have hr := o₁.committer <| ownReveal_at ho <| List.append_assoc ..
    obtain ⟨_, _, _, hm, _⟩ := o₁
    exact hr ▸ hm.committed
  have hr := o₁.contributor ▸ hs
  obtain ⟨_, _, _, _, w⟩ := o₂
  have hf := w.fresh
  rw [run_cons, records_run hr] at hf
  exact hr hf

theorem claimed (hb : txs.Pairwise (·.block ≤ ·.block))
    (ha : ((init.run keccak256 txs).records contentHash).authorBound) :
    Claimed keccak256 txs contentHash ((init.run keccak256 txs).records contentHash).contributor := by
  generalize hr : (init.run keccak256 txs).records contentHash = r at ha ⊢
  -- The reveal is the step from which on the record stays as it is.
  have h₀ : init.records contentHash ≠ r := fun h => by simp [←h, init] at ha
  obtain ⟨before, revealTx, post, rfl, hn, hm⟩ :=
    Runs.exists_entry (P := fun s : State => s.records contentHash = r) h₀ hr
  have hm := hm [] List.nil_prefix
  change (init.run keccak256 before).records contentHash ≠ r at hn
  change (init.run keccak256 (before ++ [revealTx])).records contentHash = r at hm
  rw [run_concat] at hm
  rw [←hm] at hn ha
  have hs := succeeds_of_ne <| mt (congrArg fun s : State => s.records contentHash) hn.symm
  obtain ⟨salt, o, hc⟩ := hs.authorBound hn.symm ha
  have how := o.committer <| ownReveal_at ho rfl
  -- The commitment is the step from which on it stays registered as the reveal finds it.
  generalize hx : commitmentOf keccak256 contentHash revealTx.sender salt = x at how
  generalize hv : (init.run keccak256 before).commitments x = v at how
  have hd : v.committer ≠ 0 := by
    obtain ⟨_, _, _, hm, _⟩ := o
    exact hv ▸ hx ▸ hm.committed
  have h₀ : init.commitments x ≠ v := fun h => hd <| h ▸ rfl
  obtain ⟨pre, commitTx, mid, rfl, hn, hs⟩ :=
    Runs.exists_entry (P := fun s : State => s.commitments x = v) h₀ hv
  have hs₁ := hs [] List.nil_prefix
  change (init.run keccak256 pre).commitments x ≠ v at hn
  change (init.run keccak256 (pre ++ [commitTx])).commitments x = v at hs₁
  rw [run_concat] at hs₁
  rw [←hs₁] at hn hd
  have hs₂ := succeeds_of_ne <| mt (congrArg fun s : State => s.commitments x) hn.symm
  obtain ⟨hcall, hc₂⟩ := hs₂.commitment hn.symm hd
  have hreg := hs₁.symm.trans hc₂
  have hsender : commitTx.sender = revealTx.sender := by rw [←how, hreg]
  have hblock := List.pairwise_append.mp hb |>.right.right commitTx (by simp) revealTx (by simp)
  have hdelay : commitTx.block % 2 ^ 64 + 1 < revealTx.block % 2 ^ 64 := by
    obtain ⟨_, _, _, hm, _⟩ := o
    simpa [hx, hv, hreg] using hm.delay
  subst hx
  rw [hm] at hc
  rw [hc]
  refine ⟨pre, commitTx, mid, revealTx, post, salt, rfl, hsender, rfl, hcall, ?_, ?_, o,
    hm.trans hr.symm, ?_⟩
  · rw [run_concat, hs₁, hreg, hsender]
  · rw [hv, hreg, hsender]
  · rw [MIN_REVEAL_DELAY, show (1 : BitVec 64).toNat = 1 from rfl]
    omega

end

-- If every reveal opens a commitment of its sender, a record whose author is bound was claimed by its
-- contributor.
theorem authorBound_claimed (hb : txs.Pairwise (·.block ≤ ·.block))
    (ho : ∀ i (hi : i < txs.length),
      (init.run keccak256 <| txs.take i).OwnReveal keccak256 txs[i])
    (c : CollisionFree keccak256 (revealInputs txs)) :
    (∀ contentHash, ((init.run keccak256 txs).records contentHash).authorBound →
      Claimed keccak256 txs contentHash ((init.run keccak256 txs).records contentHash).contributor) ∧
    OpenedOnce keccak256 txs :=
  ⟨fun _ => claimed ho hb, openedOnce ho c⟩

theorem authorBound_claimed_alice :
    (∀ contentHash, ((init.run Keccak.keccak256 aliceClaims).records contentHash).authorBound →
      Claimed Keccak.keccak256 aliceClaims contentHash
        ((init.run Keccak.keccak256 aliceClaims).records contentHash).contributor) ∧
    OpenedOnce Keccak.keccak256 aliceClaims :=
  have ho : ∀ i (hi : i < aliceClaims.length),
      (init.run Keccak.keccak256 <| aliceClaims.take i).OwnReveal Keccak.keccak256 aliceClaims[i] := by
    decide +kernel
  have c : CollisionFree Keccak.keccak256 (revealInputs aliceClaims) := by decide +kernel
  authorBound_claimed (by decide) ho c

-- The attacker registers the commitment of the account which reveals it.
def attackerCommits : List Tx := [
    ⟨attacker, 1, 0, .commit aliceCommitment⟩,
    ⟨alice, 3, 0, .reveal content secret []⟩
  ]

theorem authorBound_not_claimed :
    attackerCommits.Pairwise (·.block ≤ ·.block) ∧
    CollisionFree Keccak.keccak256 (revealInputs attackerCommits) ∧
    ((init.run Keccak.keccak256 attackerCommits).records content).authorBound ∧
    ¬ Claimed Keccak.keccak256 attackerCommits content
      ((init.run Keccak.keccak256 attackerCommits).records content).contributor := by
  have hc : ((init.run Keccak.keccak256 attackerCommits).records content).contributor = alice := by
    decide +kernel
  refine ⟨by decide, by decide +kernel, by decide +kernel, ?_⟩
  rintro ⟨pre, commitTx, mid, revealTx, post, _, htxs, hs, _, hcall, _⟩
  have hm : commitTx ∈ attackerCommits := htxs ▸ by simp
  simp only [attackerCommits, List.mem_cons, List.not_mem_nil, or_false] at hm
  rcases hm with rfl | rfl
  · exact absurd (hs.trans hc) (by decide)
  · simp only [reduceCtorEq] at hcall

end Registry
