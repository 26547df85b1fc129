import Verifyhash.Library.Fallible
import Verifyhash.Trustledger.Reconcile

namespace Reconcile

open Fallible

-- The amounts which remain are the difference of the multisets of the amounts.
theorem coe_map_cancel (others : List ℤ) (rs : List Record) :
    (↑((cancel others rs).map (·.amount)) : Multiset ℤ) = ↑(rs.map (·.amount)) - ↑others := by
  induction rs generalizing others
  case nil => simp [cancel]
  case cons r rs ih =>
    rw [cancel]
    split_ifs with h
    case pos =>
      have hc : 0 < others.count r.amount := List.count_pos_iff.mpr h
      rw [ih]
      ext a
      simp only [Multiset.count_sub, Multiset.coe_count, List.map_cons, List.count_cons, List.count_erase]
      by_cases ha : r.amount = a
      case pos =>
        subst ha
        simp
        omega
      case neg => simp [ha]
    case neg =>
      have hc : others.count r.amount = 0 := List.count_eq_zero.mpr h
      ext a
      have := congrArg (Multiset.count a) (ih others)
      simp only [Multiset.count_sub, Multiset.coe_count, List.map_cons, List.count_cons] at this ⊢
      rw [this]
      by_cases ha : r.amount = a
      case pos =>
        subst ha
        simp
        omega
      case neg => simp [ha]

section

variable {toLowerCase : JsString → JsString} {self other : List Record}

theorem perm_sorted (records : List Record) : (sorted toLowerCase records).Perm records :=
  List.perm_insertionSort ..

theorem sumAmounts_perm {rs rs' : List Record} (h : rs.Perm rs') : sumAmounts rs = sumAmounts rs' :=
  (h.map _).sum_eq

theorem coe_map_residue : (↑((residue toLowerCase self other).map (·.amount)) : Multiset ℤ) =
    ↑(self.map (·.amount)) - ↑(other.map (·.amount)) := by
  rw [residue, coe_map_cancel]
  congr 1
  exact Multiset.coe_eq_coe.mpr <| (perm_sorted self).map _

-- Lines which are cancelled have the same amounts on both sides.
theorem sumAmounts_residue : sumAmounts self - sumAmounts other =
    sumAmounts (residue toLowerCase self other) - sumAmounts (residue toLowerCase other self) := by
  have hs (rs : List Record) : sumAmounts rs = (↑(rs.map (·.amount)) : Multiset ℤ).sum := (Multiset.sum_coe _).symm
  have h {s t : Multiset ℤ} : s.sum = (s - t).sum + (s ∩ t).sum := by
    rw [←Multiset.sum_add, Multiset.sub_add_inter]
  have h₁ := @h (self.map (·.amount)) (other.map (·.amount))
  have h₂ := @h (other.map (·.amount)) (self.map (·.amount))
  rw [Multiset.inter_comm] at h₂
  rw [hs self, hs other, hs (residue ..), hs (residue ..), coe_map_residue, coe_map_residue]
  omega

-- What is only in the book is outstanding, unless it is a returned item.
theorem outstanding_eq (rs : List Record) : outstandingDeposits toLowerCase rs + outstandingChecks toLowerCase rs =
    sumAmounts rs - sumAmounts (rs.filter <| isNsf toLowerCase) := by
  induction rs
  case nil => rfl
  case cons r rs ih =>
    simp only [outstandingDeposits, outstandingChecks, sumAmounts, List.filter_cons] at ih ⊢
    by_cases hn : isNsf toLowerCase r
    case pos =>
      simp [hn] at ih ⊢
      omega
    case neg =>
      rcases Int.lt_trichotomy r.amount 0 with h | h | h
      · simp [hn, h, not_lt.mpr h.le] at ih ⊢
        omega
      · simp [hn, h] at ih ⊢
        omega
      · simp [hn, h, not_lt.mpr h.le] at ih ⊢
        omega

theorem prefix_ownerDraws (exceptions : List Finding) (book : List Record) :
    exceptions <+: ownerDraws toLowerCase exceptions book := by
  rw [ownerDraws]
  induction (sorted toLowerCase book).filter (isOwnerDraw toLowerCase) generalizing exceptions
  case nil => exact List.prefix_rfl
  case cons r rs ih =>
    rw [List.foldl_cons]
    split_ifs
    · exact ih exceptions
    · exact (List.prefix_append ..).trans <| ih _

theorem prefix_classifyOwnerDraws (exceptions : List Finding) (book : List Record) (subBalances : SubBalances) (tol : ℤ) :
    exceptions <+: classifyOwnerDraws toLowerCase book subBalances exceptions tol :=
  (prefix_ownerDraws exceptions book).trans <| List.prefix_append ..

-- Each line which is only in the book is reported with its amount.
theorem map_bookOnly (rs : List Record) : (rs.flatMap <| bookOnly toLowerCase).map (fun e => (e.amount, e.records)) =
    (rs.filter fun r => isNsf toLowerCase r ∨ r.amount ≠ 0).map fun r => (r.amount, [r]) := by
  induction rs
  case nil => rfl
  case cons r rs ih =>
    rw [List.flatMap_cons, List.map_append, ih, List.filter_cons]
    by_cases hn : isNsf toLowerCase r
    case pos => simp [hn, bookOnly, finding]
    case neg =>
      rcases Int.lt_trichotomy r.amount 0 with h | h | h
      · by_cases hd : isOwnerDraw toLowerCase r
        · simp [hn, bookOnly, finding, h, h.ne, not_lt.mpr h.le, hd]
        · simp [hn, bookOnly, finding, h, h.ne, not_lt.mpr h.le, hd]
      · simp [hn, bookOnly, h]
      · simp [hn, bookOnly, finding, h, h.ne']

theorem map_bankOnly (rs : List Record) : (rs.map <| bankOnly toLowerCase).map (fun e => (e.amount, e.records)) =
    rs.map fun r => (r.amount, [r]) := by
  rw [List.map_map]
  refine List.map_congr_left fun r _ => ?_
  simp only [Function.comp_apply, bankOnly]
  split_ifs <;> rfl

end

-- A record without the optional markers.
def record (date : String) (amount : ℤ) (memo kind party : String) : Record where
  date        := js date
  amount      := amount
  memo        := js memo
  kind        := js kind
  party       := js party
  depositType := none
  ambiguous   := none
  expected    := none

def juneBank : List Record :=
  [record "2026-06-03" 120000 "rent june" "deposit" "", record "2026-06-09" (-1500) "service fee" "fee" ""]

def juneBook : List Record := [
    record "2026-06-02" 120000 "rent june" "deposit" "Jones (4B)",
    record "2026-06-28" (-40000) "plumber" "check" ""
  ]

end Reconcile
