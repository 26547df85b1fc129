import Verifyhash.Registry.Theorems.Attribution

namespace Registry

open State

variable {keccak256 : Bytes → Bytes32} {s s' : State} {tx revealTx : Tx} {others : List Tx}

namespace State

-- A transaction which records the hash: an anchor of it, or a reveal of a commitment to it by the
-- sender.
def Writes (keccak256 : Bytes → Bytes32) (s : State) (tx : Tx) (contentHash : Bytes32) : Prop :=
  (∃ uri parent, tx.call.anchors = some (contentHash, uri, parent) ∧ s.Writable contentHash parent) ∨
    ∃ salt, s.Opens keccak256 tx contentHash salt

theorem Writes.contributor (h : s.Writes keccak256 tx contentHash) :
    ((s.step keccak256 tx).records contentHash).contributor = tx.sender := by
  rcases h with ⟨uri, parent, hc, w⟩ | ⟨salt, o⟩
  · rw [(Succeeds.anchor hc w).step_eq, write_records_self]
  · exact o.contributor

theorem Succeeds.writes (h : s.Succeeds keccak256 tx s') (hn : s'.records other ≠ s.records other) :
    s.Writes keccak256 tx other := by
  cases h
  case anchor contentHash uri parent hc w =>
    by_cases ho : other = contentHash
    case pos => exact .inl ⟨uri, parent, ho ▸ hc, ho ▸ w⟩
    case neg => exact absurd (write_records_of_ne ho) hn
  case commit => exact absurd rfl hn
  case reveal contentHash salt uri parent hc hm w =>
    by_cases ho : other = contentHash
    case pos => exact .inr ⟨salt, uri, parent, ho ▸ hc, ho ▸ hm, ho ▸ w⟩
    case neg => exact absurd (write_records_of_ne ho) hn

-- A transaction which does not write the hash leaves its record as it is.
theorem records_step_of_not_writes (h : ¬ s.Writes keccak256 tx contentHash) :
    (s.step keccak256 tx).records contentHash = s.records contentHash := by
  by_contra hn
  exact h <| (succeeds_of_ne <| mt (congrArg fun s : State => s.records contentHash) hn).writes hn

-- A registered commitment stays until it is opened.
theorem Succeeds.commitments_eq (h : s.Succeeds keccak256 tx s') (hc : (s.commitments x).committer ≠ 0)
    (ho : ∀ contentHash salt uri parent, tx.call.reveals = some (contentHash, salt, uri, parent) →
      commitmentOf keccak256 contentHash tx.sender salt ≠ x) : s'.commitments x = s.commitments x := by
  cases h
  case anchor => rfl
  case commit commitment _ _ hf =>
    have hx : x ≠ commitment := by
      rintro rfl
      exact hc hf
    exact Function.update_of_ne hx ..
  case reveal hr _ _ => exact Function.update_of_ne (ho _ _ _ _ hr).symm ..

end State

section

variable {contentHash salt : Bytes32}

-- The others never write the hash.
def Unwritten (keccak256 : Bytes → Bytes32) (s : State) (others : List Tx) (contentHash : Bytes32) :
    Prop :=
  ∀ i (hi : i < others.length), ¬ (s.run keccak256 <| others.take i).Writes keccak256 others[i] contentHash

theorem Unwritten.records_eq (hu : Unwritten keccak256 s others contentHash) (hm : mid <+: others) :
    (s.run keccak256 mid).records contentHash = s.records contentHash := by
  induction mid using List.reverseRecOn
  case nil => rfl
  case append_singleton mid tx ih =>
    have hl := hm.length_le
    obtain ⟨post, rfl⟩ := hm
    have hw := hu mid.length (by simp)
    simp only [List.append_assoc, List.take_left, List.singleton_append, List.getElem_append_right,
      le_refl, Nat.sub_self, List.getElem_cons_zero] at hw
    rw [run_concat, records_step_of_not_writes hw, ih ⟨[tx] ++ post, by simp⟩]

-- Without collisions, the others cannot open the commitment.
theorem commitments_run (hc : (s.commitments <| commitmentOf keccak256 contentHash account salt).committer ≠ 0)
    (hs : ∀ tx ∈ others, tx.sender ≠ account)
    (c : CollisionFree keccak256 (commitmentInput contentHash account salt :: revealInputs others)) :
    (s.run keccak256 others).commitments (commitmentOf keccak256 contentHash account salt) =
      s.commitments (commitmentOf keccak256 contentHash account salt) := by
  refine List.foldlRecOn (motive := fun s' : State => s'.commitments _ = s.commitments _) others _ rfl ?_
  intro s' hs' tx hm
  have ho : ∀ h₂ salt₂ uri parent, tx.call.reveals = some (h₂, salt₂, uri, parent) →
      commitmentOf keccak256 h₂ tx.sender salt₂ ≠ commitmentOf keccak256 contentHash account salt := by
    intro h₂ salt₂ uri parent hr he
    have hi : commitmentInput h₂ tx.sender salt₂ ∈ revealInputs others :=
      List.mem_flatMap.mpr ⟨tx, hm, by simp [hr]⟩
    have := commitmentInput_inj <| c _ (List.mem_cons_of_mem _ hi) _ List.mem_cons_self he
    exact hs tx hm this.right.left
  rcases step_cases keccak256 s' tx with h | ⟨h, _⟩
  · exact (h.commitments_eq (hs' ▸ hc) ho).trans hs'
  · rw [h, hs']

-- Before the reveal no other account is recorded for the hash exactly if none of them writes it, and
-- then the reveal records its sender.
theorem reveal_attributed_iff (h₀ : contentHash ≠ 0) (hf : (s.records contentHash).contributor = 0)
    (hr : revealTx.call = .reveal contentHash salt uri)
    (hm : s.Mature revealTx <| commitmentOf keccak256 contentHash revealTx.sender salt)
    (hs : ∀ tx ∈ others, tx.sender ≠ revealTx.sender ∧ tx.sender ≠ 0)
    (c : CollisionFree keccak256
      (commitmentInput contentHash revealTx.sender salt :: revealInputs others)) :
    ((∀ mid, mid <+: others ++ [revealTx] →
        ((s.run keccak256 mid).records contentHash).contributor ∈ [0, revealTx.sender]) ↔
      Unwritten keccak256 s others contentHash) ∧
    (Unwritten keccak256 s others contentHash →
      ((s.run keccak256 <| others ++ [revealTx]).records contentHash).contributor = revealTx.sender)
    := by
  have hlast (hu : Unwritten keccak256 s others contentHash) :
      ((s.run keccak256 <| others ++ [revealTx]).records contentHash).contributor = revealTx.sender := by
    have hx := commitments_run hm.committed (fun tx hm => (hs tx hm).left) c
    have hm' : (s.run keccak256 others).Mature revealTx
        (commitmentOf keccak256 contentHash revealTx.sender salt) :=
      ⟨hx ▸ hm.committed, hx ▸ hm.delay⟩
    have w : (s.run keccak256 others).Writable contentHash 0 :=
      ⟨h₀, hu.records_eq (List.prefix_refl _) ▸ hf, nofun⟩
    have hc : revealTx.call.reveals = some (contentHash, salt, uri, 0) := by rw [hr, Call.reveals]
    rw [run_concat]
    exact Opens.contributor ⟨uri, 0, hc, hm', w⟩
  refine ⟨⟨fun ha i hi hw => ?_, fun hu mid hmid => ?_⟩, hlast⟩
  · have hp : others.take i ++ [others[i]] <+: others ++ [revealTx] := by
      rw [List.take_append_getElem]
      exact (List.take_prefix ..).trans <| List.prefix_append ..
    have := ha _ hp
    rw [run_concat, hw.contributor] at this
    have := hs others[i] (by simp)
    simp_all
  · rcases List.prefix_concat_iff.mp hmid with rfl | hmid
    · simp [hlast hu]
    · simp [hu.records_eq hmid, hf]

end

-- The commitment of alice is mature, and her reveal is pending.
def aliceCommitted : State :=
  init.run Keccak.keccak256 [⟨alice, 1, 0, .commit aliceCommitment⟩]

def aliceReveal : Tx :=
  ⟨alice, 3, 0, .reveal content secret []⟩

theorem aliceCommitted_mature : aliceCommitted.Mature aliceReveal aliceCommitment :=
  ⟨by decide +kernel, by decide +kernel⟩

theorem reveal_attributed_iff_alice :
    ((∀ mid, mid <+: [⟨attacker, 3, 0, .anchor 9 []⟩] ++ [aliceReveal] →
        ((aliceCommitted.run Keccak.keccak256 mid).records content).contributor ∈ [0, alice]) ↔
      Unwritten Keccak.keccak256 aliceCommitted [⟨attacker, 3, 0, .anchor 9 []⟩] content) ∧
    (Unwritten Keccak.keccak256 aliceCommitted [⟨attacker, 3, 0, .anchor 9 []⟩] content →
      ((aliceCommitted.run Keccak.keccak256 <|
        [⟨attacker, 3, 0, .anchor 9 []⟩] ++ [aliceReveal]).records content).contributor = alice) :=
  have c : CollisionFree Keccak.keccak256
      (commitmentInput content aliceReveal.sender secret ::
        revealInputs [⟨attacker, 3, 0, .anchor 9 []⟩]) := by decide +kernel
  reveal_attributed_iff (by decide) (by decide +kernel) rfl aliceCommitted_mature (by decide) c

-- Once the reveal is visible, the attacker anchors the hash.
theorem anchor_before_reveal :
    (aliceCommitted.commitments aliceCommitment).committer = alice ∧
    aliceCommitted.Mature aliceReveal aliceCommitment ∧
    (aliceCommitted.records content).contributor = 0 ∧
    ((aliceCommitted.run Keccak.keccak256
      [⟨attacker, 3, 0, .anchor content []⟩, aliceReveal]).records content).contributor = attacker :=
  ⟨by decide +kernel, aliceCommitted_mature, by decide +kernel, by decide +kernel⟩

end Registry
