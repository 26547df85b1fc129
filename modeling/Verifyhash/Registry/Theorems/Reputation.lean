import Verifyhash.Library.Fields
import Verifyhash.Registry.Reputation
import Verifyhash.Registry.Theorems.Pagination

namespace Reputation

open Fallible
open Registry (Address Record Tx UINT256)

-- The records of the registry and of the contract above it, where a hash can be converted.
structure Mintable (t : Points) (s : Registry.State) (contentHash : Bytes32) : Prop where
  unminted    : ¬ t.minted contentHash
  recorded    : (s.records contentHash).contributor ≠ 0
  authorBound : (s.records contentHash).authorBound

namespace Points

variable {t t' : Points} {s : Registry.State}

theorem minted_credit : (t.credit a h).minted h' = if h' = h then true else t.minted h' :=
  Function.update_apply ..

theorem points_credit :
    (t.credit a h).points a' = if a' = a then (t.points a + 1) % UINT256 else t.points a' :=
  Function.update_apply ..

theorem mint_eq_ok : t.mint s h = .ok (a, t') ↔
    Mintable t s h ∧ (s.records h).contributor = a ∧ t.credit (s.records h).contributor h = t' := by
  rw [mint, getRecord]
  by_cases hm : t.minted h
  case pos =>
    rw [if_pos hm]
    exact iff_of_false nofun fun hc => hc.left.unminted hm
  case neg =>
    rw [if_neg hm]
    by_cases hr : (s.records h).contributor = 0
    case pos =>
      rw [if_pos hr]
      exact iff_of_false nofun fun hc => hc.left.recorded hr
    case neg =>
      rw [if_neg hr]
      by_cases hb : (s.records h).authorBound
      case neg =>
        rw [ok_bind, if_pos hb]
        exact iff_of_false nofun fun hc => hb hc.left.authorBound
      case pos =>
        rw [ok_bind, if_neg <| not_not.mpr hb, pure_eq_ok, Prod.mk.injEq]
        exact ⟨fun h => ⟨⟨hm, hr, hb⟩, h⟩, And.right⟩

theorem mint_of_not_mintable (h : ¬ Mintable t s contentHash) : ∃ e, t.mint s contentHash = .error e := by
  cases hm : t.mint s contentHash
  case error e => exact ⟨e, rfl⟩
  case ok r => exact absurd (mint_eq_ok.mp hm).left h

-- After a hash is converted, the others can still be converted.
theorem mintable_credit_iff : Mintable (t.credit a h) s h' ↔ h' ≠ h ∧ Mintable t s h' := by
  constructor
  · intro hm
    have := hm.unminted
    rw [minted_credit] at this
    split_ifs at this with he
    · exact absurd rfl this
    · exact ⟨he, this, hm.recorded, hm.authorBound⟩
  · rintro ⟨he, hm⟩
    exact ⟨by rw [minted_credit, if_neg he]; exact hm.unminted, hm.recorded, hm.authorBound⟩

-- The contract after the hashes are converted, one after the other.
def creditAll (t : Points) (s : Registry.State) (hs : List Bytes32) : Points :=
  hs.foldl (fun t h => t.credit (s.records h).contributor h) t

theorem mintBatch_eq_ok {hs : List Bytes32} : t.mintBatch s hs = .ok (as, t') ↔
    hs.Nodup ∧ (∀ h ∈ hs, Mintable t s h) ∧ hs.map (fun h => (s.records h).contributor) = as ∧
      t.creditAll s hs = t' := by
  induction hs generalizing t as t'
  case nil => simp [mintBatch, creditAll]
  case cons h hs ih =>
    simp only [mintBatch, bind_eq_ok, pure_eq_ok, Prod.exists, mint_eq_ok, ih, List.nodup_cons, List.forall_mem_cons,
      List.map_cons, Prod.mk.injEq]
    constructor
    · rintro ⟨_, _, ⟨hm, rfl, rfl⟩, _, _, ⟨hn, ha, rfl, rfl⟩, rfl, rfl⟩
      refine ⟨⟨fun hh => (mintable_credit_iff.mp <| ha h hh).left rfl, hn⟩, ⟨hm, fun h' hh => ?_⟩, rfl, rfl⟩
      exact (mintable_credit_iff.mp <| ha h' hh).right
    · rintro ⟨⟨hh, hn⟩, ⟨hm, ha⟩, rfl, rfl⟩
      refine ⟨_, _, ⟨hm, rfl, rfl⟩, _, _, ⟨hn, fun h' hh' => ?_, rfl, rfl⟩, rfl, rfl⟩
      exact mintable_credit_iff.mpr ⟨fun he => hh <| he ▸ hh', ha h' hh'⟩

theorem mintBatch_of_not_mintable {hs : List Bytes32} (h : ¬ (hs.Nodup ∧ ∀ h ∈ hs, Mintable t s h)) :
    ∃ e, t.mintBatch s hs = .error e := by
  cases hm : t.mintBatch s hs
  case error e => exact ⟨e, rfl⟩
  case ok r =>
    obtain ⟨hn, ha, _⟩ := mintBatch_eq_ok.mp hm
    exact absurd ⟨hn, ha⟩ h

end Points

-- The contract counts the hashes of the list, which are all those it has converted.
structure Counted (s : Registry.State) (t : Points) (hs : List Bytes32) : Prop where
  nodup       : hs.Nodup
  mem         : ∀ h, t.minted h ↔ h ∈ hs
  recorded    : ∀ h ∈ hs, (s.records h).contributor ≠ 0
  authorBound : ∀ h ∈ hs, (s.records h).authorBound
  points      : ∀ a, t.points a = hs.countP fun h => (s.records h).contributor = a
  totalPoints : t.totalPoints = hs.length

namespace Counted

variable {s s' : Registry.State} {t : Points} {hs : List Bytes32}

theorem init : Counted Registry.init Reputation.init.points [] :=
  ⟨.nil, fun _ => by simp [Reputation.init], by simp, by simp, fun _ => rfl, rfl⟩

theorem length_lt (v : s.Valid) (hn : hs.Nodup) (hr : ∀ h ∈ hs, (s.records h).contributor ≠ 0) :
    hs.length < UINT256 := by
  refine Registry.State.Valid.lt_uint256 (f := fun i => hs.getD i 0) (fun i hi => ?_) fun i hi j hj he => ?_
  · rw [List.getD_eq_getElem _ _ hi]
    intro h
    exact hr _ (List.getElem_mem hi) <| h ▸ v.zero
  · simp only [List.getD_eq_getElem _ _ hi, List.getD_eq_getElem _ _ hj] at he
    exact (List.Nodup.getElem_inj_iff hn).mp he

theorem credit (c : Counted s t hs) (v : s.Valid) (hm : Mintable t s h) :
    Counted s (t.credit (s.records h).contributor h) (h :: hs) := by
  have hn : (h :: hs).Nodup := List.nodup_cons.mpr ⟨mt (c.mem h).mpr hm.unminted, c.nodup⟩
  have hr : ∀ h' ∈ h :: hs, (s.records h').contributor ≠ 0 := List.forall_mem_cons.mpr ⟨hm.recorded, c.recorded⟩
  have hl : hs.length + 1 < UINT256 := length_lt v hn hr
  refine ⟨hn, fun h' => ?_, hr, List.forall_mem_cons.mpr ⟨hm.authorBound, c.authorBound⟩, fun a => ?_, ?_⟩
  · rw [Points.minted_credit, List.mem_cons, ←c.mem h']
    split_ifs with he <;> simp [he]
  · have hc : hs.countP (fun h' => (s.records h').contributor = (s.records h).contributor) + 1 < UINT256 :=
      (Nat.succ_le_succ List.countP_le_length).trans_lt hl
    rw [Points.points_credit, List.countP_cons]
    split_ifs with he hc' hc'
    · rw [he, c.points, Nat.mod_eq_of_lt hc]
    · simp [he] at hc'
    · simp [Ne.symm he] at hc'
    · exact c.points a
  · exact (congrArg (· % UINT256) <| congrArg (· + 1) c.totalPoints).trans <| Nat.mod_eq_of_lt hl

theorem creditAll {batch : List Bytes32} (c : Counted s t hs) (v : s.Valid) (hn : batch.Nodup)
    (hm : ∀ h ∈ batch, Mintable t s h) : Counted s (t.creditAll s batch) (batch.reverse ++ hs) := by
  induction batch generalizing t hs
  case nil => exact c
  case cons h batch ih =>
    have ⟨hh, hn⟩ := List.nodup_cons.mp hn
    have ⟨hm, ha⟩ := List.forall_mem_cons.mp hm
    rw [List.reverse_cons, List.append_assoc]
    exact ih (c.credit v hm) hn fun h' hh' => Points.mintable_credit_iff.mpr ⟨fun he => hh <| he ▸ hh', ha h' hh'⟩

-- The registry keeps the records which are counted.
theorem mono (c : Counted s t hs) (e : Registry.State.Extends s s') : Counted s' t hs where
  nodup       := c.nodup
  mem         := c.mem
  recorded    := fun h hh => e.records h (c.recorded h hh) ▸ c.recorded h hh
  authorBound := fun h hh => e.records h (c.recorded h hh) ▸ c.authorBound h hh
  points      := fun a => (c.points a).trans <| List.countP_congr fun h hh => by rw [e.records h <| c.recorded h hh]
  totalPoints := c.totalPoints

end Counted

-- The senders of the transactions to the registry are accounts.
def Sent (ops : List Op) : Prop :=
  ∀ tx, Op.registry tx ∈ ops → tx.sender ≠ 0

-- A state in which some hashes are converted.
structure Valid (s : State) (hs : List Bytes32) : Prop where
  registry : s.registry.Valid
  counted  : Counted s.registry s.points hs

namespace State

variable {keccak256 : Bytes → Bytes32} {s : State} {hs : List Bytes32}

-- One step keeps what is converted, and may convert more.
theorem valid_step (v : Valid s hs) (hs' : ∀ tx, op = .registry tx → tx.sender ≠ 0) :
    (∃ new, Valid (s.step keccak256 op) (new ++ hs)) ∧
    Registry.State.Extends s.registry (s.step keccak256 op).registry := by
  cases op
  case registry tx =>
    have e : Registry.State.Extends s.registry (s.registry.step keccak256 tx) := v.registry.extends_step
    exact ⟨⟨[], v.registry.step <| hs' tx rfl, v.counted.mono e⟩, e⟩
  case mint sender h =>
    refine ⟨?_, .refl _⟩
    rw [step]
    cases hm : s.points.mint s.registry h
    case error => exact ⟨[], v⟩
    case ok r =>
      obtain ⟨hm, -, ht⟩ := Points.mint_eq_ok.mp hm
      rw [commitOr, ←ht]
      exact ⟨[h], v.registry, v.counted.credit v.registry hm⟩
  case mintBatch sender batch =>
    refine ⟨?_, .refl _⟩
    rw [step]
    cases hm : s.points.mintBatch s.registry batch
    case error => exact ⟨[], v⟩
    case ok r =>
      obtain ⟨hn, ha, -, ht⟩ := Points.mintBatch_eq_ok.mp hm
      rw [commitOr, ←ht]
      exact ⟨batch.reverse, v.registry, v.counted.creditAll v.registry hn ha⟩

theorem valid_run (v : Valid s hs) (h : Sent ops) :
    (∃ new, Valid (s.run keccak256 ops) (new ++ hs)) ∧
    Registry.State.Extends s.registry (s.run keccak256 ops).registry := by
  induction ops generalizing s hs
  case nil => exact ⟨⟨[], v⟩, .refl _⟩
  case cons op ops ih =>
    have hs : (∃ new, Valid (s.step keccak256 op) (new ++ hs)) ∧
        Registry.State.Extends s.registry (s.step keccak256 op).registry :=
      valid_step v fun tx ho => h tx <| ho ▸ List.mem_cons_self
    obtain ⟨⟨new, v'⟩, e⟩ := hs
    obtain ⟨⟨new', v''⟩, e'⟩ := ih v' fun tx ho => h tx <| List.mem_cons_of_mem _ ho
    exact ⟨⟨new' ++ new, by rw [List.append_assoc]; exact v''⟩, e.trans e'⟩

end State

theorem ncard_eq {hs : List Bytes32} {p : Bytes32 → Bool} (hn : hs.Nodup) :
    {h | h ∈ hs ∧ p h}.ncard = hs.countP p := by
  have he : {h | h ∈ hs ∧ p h} = ↑(hs.filter p).toFinset := by
    ext h
    simp
  rw [he, Set.ncard_coe_finset, List.toFinset_card_of_nodup <| hn.filter _, List.countP_eq_length_filter]

section

variable {s : Registry.State} {t : Points} {hs : List Bytes32}

theorem Counted.points_eq_ncard (c : Counted s t hs) (a : Address) :
    t.points a = {h | t.minted h ∧ (s.records h).contributor = a}.ncard := by
  have := ncard_eq (p := fun h => (s.records h).contributor = a) c.nodup
  simpa only [c.points, c.mem, decide_eq_true_eq] using this.symm

theorem Counted.totalPoints_eq_ncard (c : Counted s t hs) : t.totalPoints = {h | t.minted h}.ncard := by
  have := ncard_eq (p := fun _ => true) c.nodup
  simpa only [c.totalPoints, c.mem, and_true, List.countP_true] using this.symm

-- Every converted hash is credited to one address.
theorem Counted.sum_points (c : Counted s t hs) : ∑ᶠ a, t.points a = t.totalPoints := by
  let as := hs.map fun h => (s.records h).contributor
  have hp (a) : t.points a = as.count a := by
    rw [c.points, List.count, List.countP_map]
    exact List.countP_congr fun _ _ => by simp
  have hs' : Function.support t.points ⊆ as.toFinset := by
    intro a ha
    rw [Function.mem_support, hp] at ha
    simpa using List.count_pos_iff.mp <| Nat.pos_of_ne_zero ha
  rw [finsum_eq_sum_of_support_subset _ hs', Finset.sum_congr rfl fun a _ => hp a, List.sum_toFinset_count_eq_length,
    List.length_map, c.totalPoints]

theorem finite_authorBound (v : s.Valid) (a : Address) :
    {h | (s.records h).authorBound ∧ (s.records h).contributor = a}.Finite := by
  have hf : ((Set.Iio s.total).image s.hashByIndex).Finite := (Set.finite_Iio _).image _
  refine hf.subset fun h hh => ?_
  have hr : (s.records h).contributor ≠ 0 := by
    intro h0
    have hb := hh.left
    rw [v.unset h h0] at hb
    cases hb
  exact v.indexed h hr

theorem Counted.points_le (c : Counted s t hs) (v : s.Valid) (a : Address) :
    t.points a ≤ {h | (s.records h).authorBound ∧ (s.records h).contributor = a}.ncard := by
  rw [c.points_eq_ncard]
  refine Set.ncard_le_ncard (fun h hh => ?_) (finite_authorBound v a)
  exact ⟨c.authorBound h <| (c.mem h).mp hh.left, hh.right⟩

end

-- A record of the registry as the projection reads it, with its hexadecimal texts in any letter case.
structure Spells (entry : Bytes32 × Record) (r : JsRecord) : Prop where
  contentHash : normalizeContentHash r.contentHash = some (Hex.hexlify entry.1)
  contributor : normalizeAddress r.contributor = some (addressText entry.2.contributor)
  authorBound : r.authorBound = entry.2.authorBound

theorem addressText_inj (h : addressText a = addressText b) : a = b := by
  have hd (a : Address) : ((Numeral.digits 16 40 a.toNat).map Hex.lowerDigit).map Hex.digit? =
      (Numeral.digits 16 40 a.toNat).map some := by
    rw [List.map_map]
    exact List.map_congr_left fun d hd => Hex.digit?_lowerDigit <| Numeral.digits_lt (by omega) hd
  have ht := congrArg (List.map Hex.digit?) <| List.append_cancel_left h
  rw [hd, hd, List.map_inj_right fun _ _ => Option.some.inj] at ht
  have ha : a.toNat < 16 ^ 40 := a.isLt
  have hb : b.toNat < 16 ^ 40 := b.isLt
  apply BitVec.eq_of_toNat_eq
  rw [←Numeral.value_digits ha, ht, Numeral.value_digits hb]

theorem lookup_addPoint {points : List (JsString × ℕ)} :
    ((addPoint points key).lookup key').getD 0 = (points.lookup key').getD 0 + if key = key' then 1 else 0 := by
  rw [addPoint]
  split_ifs with hm hk hk
  case pos =>
    subst hk
    obtain ⟨n, hn⟩ := Option.isSome_iff_exists.mp <| Fields.mem_map_fst_iff.mp hm
    rw [Fields.lookup_map_ite (f := fun n : ℕ => n + 1), if_pos rfl, hn]
    rfl
  case neg =>
    rw [Fields.lookup_map_ite (f := fun n : ℕ => n + 1), if_neg <| Ne.symm hk]
    rfl
  case pos =>
    subst hk
    have hn : points.lookup key = none := Option.not_isSome_iff_eq_none.mp <| mt Fields.mem_map_fst_iff.mpr hm
    simp [List.lookup_append, hn]
  case neg => simp [List.lookup_append, List.lookup_cons, beq_false_of_ne (Ne.symm hk)]

-- The loop counts the records which are bound to their author, each for its contributor.
theorem lookup_projection {entries : List (Bytes32 × Record)} {records : List JsRecord}
    (hr : List.Forall₂ Spells entries records) (hn : (entries.map Prod.fst).Nodup) {p : Projection}
    (hp : ∀ e ∈ entries, Hex.hexlify e.1 ∉ p.minted) (a : Address) :
    ((records.foldl Projection.add p).points.lookup <| addressText a).getD 0 =
      (p.points.lookup <| addressText a).getD 0 + entries.countP fun e => e.2.authorBound ∧ e.2.contributor = a := by
  induction hr generalizing p
  case nil => rfl
  case cons e r entries records h _ ih =>
    have ⟨he, hn⟩ := List.nodup_cons.mp hn
    have ⟨hpe, hp⟩ := List.forall_mem_cons.mp hp
    rw [List.foldl_cons, List.countP_cons]
    by_cases hb : e.2.authorBound
    case neg =>
      have hadd : (p.add r).points = p.points ∧ (p.add r).minted = p.minted := by
        simp [Projection.add, h.contentHash, h.contributor, h.authorBound, hb]
      rw [ih hn (hadd.right ▸ hp), hadd.left]
      simp [hb]
    case pos =>
      have hadd : (p.add r).points = addPoint p.points (addressText e.2.contributor) ∧
          (p.add r).minted = p.minted ++ [Hex.hexlify e.1] := by
        simp [Projection.add, h.contentHash, h.contributor, h.authorBound, hb, hpe]
      have hne : ∀ e' ∈ entries, Hex.hexlify e'.1 ∉ (p.add r).minted := by
        intro e' he'
        rw [hadd.right, List.mem_append, List.mem_singleton, not_or]
        refine ⟨hp e' he', fun hh => he ?_⟩
        rw [←Hex.hexlify_inj hh]
        exact List.mem_map_of_mem he'
      have hk : addressText e.2.contributor = addressText a ↔ e.2.contributor = a := ⟨addressText_inj, congrArg _⟩
      rw [ih hn hne, hadd.left, lookup_addPoint]
      simp only [hk, hb, true_and, decide_eq_true_eq]
      omega

section

variable {s : Registry.State} {t : Points} {hs : List Bytes32}

-- If all records which are bound to their author are converted, then the two counts agree.
theorem Counted.points_eq_pointsOf (c : Counted s t hs) (v : s.Valid)
    (ha : ∀ h, (s.records h).authorBound → t.minted h) {records : List JsRecord}
    (hr : List.Forall₂ Spells s.entries records) (hk : normalizeAddress (some address) = some (addressText a)) :
    pointsOf records address = some (t.points a) := by
  have hl := lookup_projection hr v.nodup_entries (p := ⟨[], [], [], ⟨0, 0, 0⟩⟩) (by simp) a
  rw [List.lookup_nil, Option.getD_none, Nat.zero_add] at hl
  rw [pointsOf, hk, Option.map_some, projectPoints, hl, c.points]
  let p (e : Bytes32 × Record) : Bool := e.2.authorBound ∧ e.2.contributor = a
  have hn : ((s.entries.filter p).map Prod.fst).Nodup := v.nodup_entries.sublist <| List.filter_sublist.map _
  have hperm : ((s.entries.filter p).map Prod.fst).Perm (hs.filter fun h => (s.records h).contributor = a) := by
    refine (List.perm_ext_iff_of_nodup hn <| c.nodup.filter _).mpr fun h => ?_
    simp only [List.mem_map, List.mem_filter, p, decide_eq_true_eq, Prod.exists, exists_and_right, exists_eq_right]
    constructor
    · rintro ⟨r, hm, hb, rfl⟩
      obtain ⟨-, rfl⟩ := v.mem_entries.mp hm
      exact ⟨(c.mem h).mp <| ha h hb, rfl⟩
    · rintro ⟨hm, rfl⟩
      exact ⟨s.records h, v.mem_entries.mpr ⟨c.recorded h hm, rfl⟩, c.authorBound h hm, rfl⟩
  rw [List.countP_eq_length_filter, List.countP_eq_length_filter, ←hperm.length_eq, List.length_map]

end

-- What the points of a state are.
structure Proven (s : State) : Prop where
  authorBound : ∀ h, s.points.minted h → (s.registry.records h).contributor ≠ 0 ∧ (s.registry.records h).authorBound
  finite      : {h | s.points.minted h}.Finite
  points      : ∀ a, s.points.points a = {h | s.points.minted h ∧ (s.registry.records h).contributor = a}.ncard
  totalPoints : s.points.totalPoints = {h | s.points.minted h}.ncard
  sum         : ∑ᶠ a, s.points.points a = s.points.totalPoints
  bounded     : ∀ a, s.points.points a ≤
    {h | (s.registry.records h).authorBound ∧ (s.registry.records h).contributor = a}.ncard
  projected   : (∀ h, (s.registry.records h).authorBound → s.points.minted h) →
    ∀ records, List.Forall₂ Spells s.registry.entries records →
      ∀ address a, normalizeAddress (some address) = some (addressText a) →
        pointsOf records address = some (s.points.points a)

theorem Valid.toProven (v : Valid s hs) : Proven s where
  authorBound h hm  := ⟨v.counted.recorded h <| (v.counted.mem h).mp hm, v.counted.authorBound h <| (v.counted.mem h).mp hm⟩
  finite            := (hs.finite_toSet).subset fun h hm => (v.counted.mem h).mp hm
  points            := v.counted.points_eq_ncard
  totalPoints       := v.counted.totalPoints_eq_ncard
  sum               := v.counted.sum_points
  bounded           := v.counted.points_le v.registry
  projected ha _ hr _ _ hk := v.counted.points_eq_pointsOf v.registry ha hr hk

-- The threshold of the contract is the one of the projection.
theorem Proven.hasAtLeast_eq (p : Proven s) (ha : ∀ h, (s.registry.records h).authorBound → s.points.minted h)
    (hr : List.Forall₂ Spells s.registry.entries records) (hk : normalizeAddress (some address) = some (addressText a)) :
    hasAtLeast records address n = some (s.points.meetsThreshold a n) := by
  rw [hasAtLeast, p.projected ha _ hr _ _ hk]
  rfl

-- What the calls do in a state: they convert what can be converted, or change nothing.
structure Atomic (keccak256 : Bytes → Bytes32) (s : State) : Prop where
  mint      : ∀ sender h, Mintable s.points s.registry h →
    s.points.mint s.registry h = .ok ((s.registry.records h).contributor, (s.step keccak256 <| .mint sender h).points)
  mintBatch : ∀ sender hs, hs.Nodup → (∀ h ∈ hs, Mintable s.points s.registry h) →
    s.points.mintBatch s.registry hs =
      .ok (hs.map fun h => (s.registry.records h).contributor, (s.step keccak256 <| .mintBatch sender hs).points)
  failed    : ∀ sender h, ¬ Mintable s.points s.registry h →
    (∃ e, s.points.mint s.registry h = .error e) ∧ s.step keccak256 (.mint sender h) = s
  failedAll : ∀ sender hs, ¬ (hs.Nodup ∧ ∀ h ∈ hs, Mintable s.points s.registry h) →
    (∃ e, s.points.mintBatch s.registry hs = .error e) ∧ s.step keccak256 (.mintBatch sender hs) = s

theorem atomic (keccak256 : Bytes → Bytes32) (s : State) : Atomic keccak256 s where
  mint _ h hm         := by
    have := Points.mint_eq_ok.mpr ⟨hm, rfl, rfl⟩
    rw [State.step, this]
    rfl
  mintBatch _ hs hn hm := by
    have := Points.mintBatch_eq_ok.mpr ⟨hn, hm, rfl, rfl⟩
    rw [State.step, this]
    rfl
  failed _ h hm       := by
    obtain ⟨e, he⟩ := Points.mint_of_not_mintable hm
    refine ⟨⟨e, he⟩, ?_⟩
    rw [State.step, he]
    rfl
  failedAll _ hs hm   := by
    obtain ⟨e, he⟩ := Points.mintBatch_of_not_mintable hm
    refine ⟨⟨e, he⟩, ?_⟩
    rw [State.step, he]
    rfl

open Registry (alice attacker content)

end Reputation
