import Verifyhash.Library.Filling
import Verifyhash.Library.Lists
import Verifyhash.Trustledger.Reconcile

namespace Reconcile

open Filling

-- A deposit with what covers it: the coverage of its beneficiary, and the generic pool.
structure Cover where
  deposit : Record
  own     : ℤ
  generic : ℤ

def Cover.amount (c : Cover) : ℤ :=
  c.deposit.amount

def Cover.isShort (c : Cover) : Bool :=
  c.own + c.generic < c.amount

theorem Cover.isShort_iff {c : Cover} : c.isShort ↔ c.own + c.generic < c.deposit.amount :=
  ⟨of_decide_eq_true, decide_eq_true⟩

def Cover.uncovered (c : Cover) : ℤ :=
  c.amount - (c.own + c.generic)

section

variable (toLowerCase : JsString → JsString)

def Cover.key (c : Cover) : JsString :=
  partyKey toLowerCase c.deposit.party

-- The amount which is attributed to a beneficiary.
def attributed (book : List Record) (key : JsString) : ℤ :=
  (((segregationMoves toLowerCase book).filter fun move => move.1 ≠ [] ∧ move.1 = key).map (·.2)).sum

def unattributed (book : List Record) : ℤ :=
  (((segregationMoves toLowerCase book).filter fun move => move.1 = []).map (·.2)).sum

-- The deposits, one after the other, with what covers them.
def cover (covered : List (JsString × ℤ)) (pool : ℤ) : List Record → List Cover
  | []      => []
  | r :: rs =>
    let key := partyKey toLowerCase r.party
    let own := min (coverage covered key) r.amount
    let generic := min pool (r.amount - own)
    ⟨r, own, generic⟩ :: cover (setCoverage covered key (coverage covered key - own)) (pool - generic) rs

end

theorem coverage_setCoverage :
    coverage (setCoverage covered key cents) key' = if key' = key then cents else coverage covered key' := by
  rw [coverage, coverage, setCoverage, List.lookup_cons]
  by_cases h : key' = key
  case pos => simp [h]
  case neg =>
    have hb : (key' == key) = false := beq_false_of_ne h
    have hl : (covered.filter (·.1 ≠ key)).lookup key' = covered.lookup key' := by
      induction covered
      case nil => rfl
      case cons entry covered ih =>
        by_cases he : entry.1 = key
        case pos =>
          have hb' : (key' == entry.1) = false := by rw [he]; exact hb
          rw [List.filter_cons_of_neg (by simpa using he), ih, List.lookup_cons, hb']
        case neg =>
          rw [List.filter_cons_of_pos (by simpa using he), List.lookup_cons, List.lookup_cons, ih]
    rw [hb, hl, if_neg h]

theorem pools_concat : pools (moves ++ [move]) =
    if move.1 = [] then ((pools moves).1, (pools moves).2 + move.2)
    else (setCoverage (pools moves).1 move.1 (coverage (pools moves).1 move.1 + move.2), (pools moves).2) := by
  rw [pools, List.foldl_concat, ←pools]

-- The pools have the amounts which are attributed to their keys.
theorem pools_eq (moves : List (JsString × ℤ)) :
    (∀ key, coverage (pools moves).1 key = ((moves.filter fun move => move.1 ≠ [] ∧ move.1 = key).map (·.2)).sum) ∧
    (pools moves).2 = ((moves.filter fun move => move.1 = []).map (·.2)).sum := by
  induction moves using List.reverseRecOn
  case nil => exact ⟨fun _ => rfl, rfl⟩
  case append_singleton moves move ih =>
    obtain ⟨hc, hg⟩ := ih
    rw [pools_concat]
    split_ifs with h
    case pos => simp [h, hc, hg]
    case neg =>
      refine ⟨fun key => ?_, by simp [h, hg]⟩
      rw [coverage_setCoverage]
      split_ifs with hk
      case pos => simp [hk, h, hc]
      case neg => simp [Ne.symm hk, hc]

section

variable {toLowerCase : JsString → JsString}

theorem attributed_eq : coverage (pools <| segregationMoves toLowerCase book).1 key = attributed toLowerCase book key :=
  (pools_eq _).left key

theorem unattributed_eq : (pools <| segregationMoves toLowerCase book).2 = unattributed toLowerCase book :=
  (pools_eq _).right

theorem segregationMoves_nonneg (h : move ∈ segregationMoves toLowerCase book) : 0 ≤ move.2 := by
  obtain ⟨r, -, rfl⟩ := List.mem_map.mp h
  exact abs_nonneg r.amount

theorem attributed_nonneg : 0 ≤ attributed toLowerCase book key := by
  refine List.sum_nonneg fun cents hc => ?_
  obtain ⟨move, hm, rfl⟩ := List.mem_map.mp hc
  exact segregationMoves_nonneg (List.mem_filter.mp hm).left

theorem unattributed_nonneg : 0 ≤ unattributed toLowerCase book := by
  refine List.sum_nonneg fun cents hc => ?_
  obtain ⟨move, hm, rfl⟩ := List.mem_map.mp hc
  exact segregationMoves_nonneg (List.mem_filter.mp hm).left

theorem map_deposit_cover : (cover toLowerCase covered pool rs).map (·.deposit) = rs := by
  induction rs generalizing covered pool
  case nil => rfl
  case cons r rs ih => rw [cover, List.map_cons, ih]

-- The deposits of each beneficiary are filled from its own coverage, whatever the others have.
theorem own_cover (key : JsString) (rs : List Record) (covered : List (JsString × ℤ)) (pool : ℤ) :
    ((cover toLowerCase covered pool rs).filter fun c => c.key toLowerCase = key).map (·.own) =
      fill (coverage covered key) (((cover toLowerCase covered pool rs).filter fun c => c.key toLowerCase = key).map
        (·.amount)) := by
  induction rs generalizing covered pool
  case nil => rfl
  case cons r rs ih =>
    have hk (own generic : ℤ) : Cover.key toLowerCase ⟨r, own, generic⟩ = partyKey toLowerCase r.party := rfl
    rw [cover]
    simp only [List.filter_cons, hk]
    by_cases h : partyKey toLowerCase r.party = key
    case pos =>
      simp only [h, decide_true, if_true, List.map_cons, fill, ih, coverage_setCoverage]
      rfl
    case neg =>
      simp only [h, decide_false, Bool.false_eq_true, if_false, ih, coverage_setCoverage, Ne.symm h]

theorem coverage_nonneg_step (hc : ∀ key, 0 ≤ coverage covered key) (n : ℤ) (key' : JsString) :
    0 ≤ coverage (setCoverage covered key (coverage covered key - min (coverage covered key) n)) key' := by
  rw [coverage_setCoverage]
  split_ifs
  · omega
  · exact hc key'

section

variable {rs : List Record} {pool : ℤ} (hc : ∀ key, 0 ≤ coverage covered key) (hp : 0 ≤ pool)

include hc hp

theorem cover_bounds (hr : ∀ r ∈ rs, 0 < r.amount) :
    ∀ c ∈ cover toLowerCase covered pool rs, 0 ≤ c.own ∧ 0 ≤ c.generic ∧ c.own + c.generic ≤ c.amount := by
  induction rs generalizing covered pool
  case nil => simp [cover]
  case cons r rs ih =>
    have ⟨h, hrs⟩ := List.forall_mem_cons.mp hr
    have hk := hc <| partyKey toLowerCase r.party
    rw [cover, List.forall_mem_cons]
    refine ⟨?_, ih (coverage_nonneg_step hc _) (by omega) hrs⟩
    simp only [Cover.amount]
    omega

theorem sum_generic_cover : ((cover toLowerCase covered pool rs).map (·.generic)).sum ≤ pool := by
  induction rs generalizing covered pool
  case nil => exact hp
  case cons r rs ih =>
    rw [cover, List.map_cons, List.sum_cons]
    exact Int.add_le_of_le_sub_left <| ih (coverage_nonneg_step hc _) (by omega)

-- The deposits which are reported are those which neither their own coverage nor the pool covers.
theorem unsegregated_eq (hr : ∀ r ∈ rs, 0 < r.amount) : unsegregated pool (stillShort toLowerCase covered rs) =
    ((cover toLowerCase covered pool rs).filter (·.isShort)).map fun c => (c.deposit, c.uncovered) := by
  induction rs generalizing covered pool
  case nil => rfl
  case cons r rs ih =>
    have ⟨h, hrs⟩ := List.forall_mem_cons.mp hr
    have hs : ∀ key, 0 ≤ coverage (setCoverage covered (partyKey toLowerCase r.party)
        (coverage covered (partyKey toLowerCase r.party) -
          min (coverage covered <| partyKey toLowerCase r.party) r.amount)) key := coverage_nonneg_step hc _
    generalize hown : min (coverage covered <| partyKey toLowerCase r.party) r.amount = own at hs
    have hle : own ≤ r.amount := hown ▸ min_le_right ..
    rw [cover, stillShort, hown]
    by_cases hn : 0 < r.amount - own
    case neg =>
      have h0 : min pool (r.amount - own) = 0 := by omega
      rw [if_neg hn, h0, sub_zero, ih hs hp hrs, List.filter_cons_of_neg]
      rw [Cover.isShort_iff]
      dsimp only
      omega
    case pos =>
      rw [if_pos hn, unsegregated]
      split_ifs with hg
      case pos =>
        have hm : min pool (r.amount - own) = r.amount - own := min_eq_right hg
        rw [hm, ih hs (by omega) hrs, List.filter_cons_of_neg]
        rw [Cover.isShort_iff]
        dsimp only
        omega
      case neg =>
        have hm : min pool (r.amount - own) = pool := min_eq_left <| by omega
        rw [hm, sub_self, ih hs le_rfl hrs, List.filter_cons_of_pos, List.map_cons]
        · have : r.amount - own - pool = r.amount - (own + pool) := by ring
          rw [this]
          rfl
        · rw [Cover.isShort_iff]
          dsimp only
          omega

end

theorem mem_secDeposits (h : r ∈ secDeposits toLowerCase book) : 0 < r.amount := by
  have := List.mem_filter.mp <| (List.perm_insertionSort _ _).subset h
  simp only [decide_eq_true_eq] at this
  exact this.right.right

end

-- The deposits of a list which are reported, or not.
def unflagged (cs : List Cover) : List Cover :=
  cs.filter fun c => ¬ c.isShort

def amounts (cs : List Cover) : ℤ :=
  (cs.map (·.amount)).sum

section

variable {cs : List Cover} (h : ∀ c ∈ cs, 0 ≤ c.own ∧ 0 ≤ c.generic ∧ c.own + c.generic ≤ c.amount)

include h

theorem amounts_unflagged_le : amounts (unflagged cs) ≤ (cs.map (·.own)).sum + (cs.map (·.generic)).sum := by
  induction cs
  case nil => simp [amounts, unflagged]
  case cons c cs ih =>
    have ⟨hc, h⟩ := List.forall_mem_cons.mp h
    have ih := ih h
    rw [unflagged, amounts] at ih ⊢
    rw [List.filter_cons]
    by_cases hs : c.isShort
    case pos =>
      simp only [hs, not_true_eq_false, decide_false, Bool.false_eq_true, if_false, List.map_cons, List.sum_cons]
      omega
    case neg =>
      have hs' : ¬ c.own + c.generic < c.amount := by simpa [Cover.isShort] using hs
      simp only [hs, Bool.false_eq_true, not_false_eq_true, decide_true, if_true, List.map_cons, List.sum_cons]
      omega

theorem sum_generic_filter_le (p : Cover → Bool) :
    ((cs.filter p).map (·.generic)).sum ≤ (cs.map (·.generic)).sum :=
  (List.filter_sublist.map _).sum_le_sum fun g hg => by
    obtain ⟨c, hc, rfl⟩ := List.mem_map.mp hg
    exact (h c hc).right.left

end

-- The amounts of the transfers are attributed to one beneficiary each, or to none.
theorem sum_attributed {toLowerCase : JsString → JsString} {book : List Record} {s : Finset JsString}
    (h : ∀ move ∈ segregationMoves toLowerCase book, move.1 ∈ s) :
    (∑ key ∈ s, attributed toLowerCase book key) + unattributed toLowerCase book =
      ((book.filter <| isSegregationMove toLowerCase).map fun r => |r.amount|).sum := by
  have hm : ((segregationMoves toLowerCase book).map (·.2)).sum =
      ((book.filter <| isSegregationMove toLowerCase).map fun r => |r.amount|).sum := by
    rw [segregationMoves, List.map_map]
    exact ((List.perm_insertionSort _ _).map _).sum_eq
  have ha : ∑ key ∈ s, attributed toLowerCase book key =
      (((segregationMoves toLowerCase book).filter fun move => move.1 ≠ []).map (·.2)).sum := by
    rw [Lists.sum_map_eq (·.1) (·.2) fun move hm => h move (List.mem_filter.mp hm).left]
    refine Finset.sum_congr rfl fun key _ => ?_
    rw [attributed, List.filter_filter]
    refine congrArg (fun l => (List.map _ l).sum) <| List.filter_congr fun move _ => ?_
    simp [and_comm]
  rw [ha, ←hm, unattributed]
  induction segregationMoves toLowerCase book
  case nil => rfl
  case cons move moves ih =>
    by_cases hn : move.1 = []
    case pos =>
      simp [hn] at ih ⊢
      omega
    case neg =>
      simp [hn] at ih ⊢
      omega

end Reconcile
