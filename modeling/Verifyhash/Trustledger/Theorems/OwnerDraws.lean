import Verifyhash.Library.Novel
import Verifyhash.Trustledger.Theorems.Conservation

-- Which of the draws of owners are reported.
namespace Reconcile

open Novel

-- The records of the findings for draws of owners.
def reportedDraws (exceptions : List Finding) : List Record :=
  (exceptions.filter (·.type = .ownerDraw)).flatMap (·.records)

section

variable (toLowerCase : JsString → JsString)

-- The findings which `reconcile` makes before the draws are classified.
def outstanding (bank book : List Record) : List Finding :=
  (sorted toLowerCase (residue toLowerCase book bank)).flatMap (bookOnly toLowerCase) ++
    (sorted toLowerCase (residue toLowerCase bank book)).map (bankOnly toLowerCase)

-- The draws which are only in the book.
def outstandingDraws (bank book : List Record) : List Record :=
  (residue toLowerCase book bank).filter fun r => isOwnerDraw toLowerCase r ∧ ¬ isNsf toLowerCase r

-- Every draw of the book is reported once.
def ReportsDraws (book : List Record) (exceptions : List Finding) : Prop :=
  (reportedDraws exceptions).Perm <| book.filter <| isOwnerDraw toLowerCase

end

section

variable {toLowerCase : JsString → JsString} {bank book : List Record} {exceptions exceptions' : List Finding}

theorem isOwnerDraw_neg (h : isOwnerDraw toLowerCase r) : r.amount < 0 := by
  rw [isOwnerDraw, decide_eq_true_eq] at h
  exact h.left

@[simp]
theorem reportedDraws_append :
    reportedDraws (exceptions ++ exceptions') = reportedDraws exceptions ++ reportedDraws exceptions' := by
  simp [reportedDraws]

theorem reportedDraws_eq_nil (h : ∀ e ∈ exceptions, e.type ≠ .ownerDraw) : reportedDraws exceptions = [] := by
  rw [reportedDraws, List.filter_eq_nil_iff.mpr fun e he => by simpa using h e he]
  rfl

theorem reportedDraws_bookOnly : reportedDraws (bookOnly toLowerCase r) =
    if isOwnerDraw toLowerCase r ∧ ¬ isNsf toLowerCase r then [r] else [] := by
  rw [bookOnly]
  by_cases hn : isNsf toLowerCase r
  case pos => simp [hn, reportedDraws, finding]
  case neg =>
    by_cases hd : isOwnerDraw toLowerCase r
    case pos =>
      have ha := isOwnerDraw_neg hd
      simp [hn, hd, ha, not_lt.mpr ha.le, reportedDraws, finding]
    case neg =>
      simp only [hn, hd]
      split_ifs <;> simp_all [reportedDraws, finding]

theorem reportedDraws_flatMap_bookOnly (rs : List Record) : reportedDraws (rs.flatMap <| bookOnly toLowerCase) =
    rs.filter fun r => isOwnerDraw toLowerCase r ∧ ¬ isNsf toLowerCase r := by
  induction rs
  case nil => rfl
  case cons r rs ih =>
    rw [List.flatMap_cons, reportedDraws_append, ih, reportedDraws_bookOnly, List.filter_cons]
    split_ifs <;> simp_all

theorem reportedDraws_outstanding :
    (reportedDraws (outstanding toLowerCase bank book)).Perm (outstandingDraws toLowerCase bank book) := by
  have hb : reportedDraws ((sorted toLowerCase (residue toLowerCase bank book)).map (bankOnly toLowerCase)) = [] := by
    refine reportedDraws_eq_nil fun e he => ?_
    obtain ⟨r, -, rfl⟩ := List.mem_map.mp he
    rw [bankOnly]
    split_ifs <;> simp [finding]
  rw [outstanding, reportedDraws_append, hb, List.append_nil, reportedDraws_flatMap_bookOnly]
  exact (perm_sorted _).filter _

theorem cancel_sublist {others : List ℤ} {rs : List Record} : (cancel others rs).Sublist rs := by
  induction rs generalizing others
  case nil => exact .refl _
  case cons r rs ih =>
    rw [cancel]
    split_ifs
    · exact ih.cons r
    · exact ih.cons_cons r

theorem outstandingDraws_subperm :
    (outstandingDraws toLowerCase bank book).Subperm (book.filter <| isOwnerDraw toLowerCase) := by
  have hr : (residue toLowerCase book bank).Subperm book :=
    cancel_sublist.subperm.trans (perm_sorted book).subperm
  have hf := hr.filter <| isOwnerDraw toLowerCase
  refine List.Subperm.trans ?_ hf
  have : outstandingDraws toLowerCase bank book = ((residue toLowerCase book bank).filter <| isOwnerDraw toLowerCase).filter
      fun r => ¬ isNsf toLowerCase r := by
    rw [List.filter_filter, outstandingDraws]
    congr 1
    funext r
    cases isOwnerDraw toLowerCase r <;> simp
  rw [this]
  exact List.filter_sublist.subperm

-- Every finding for a draw has one record.
def Single (exceptions : List Finding) : Prop :=
  ∀ e ∈ exceptions, e.type = .ownerDraw → ∃ r, e.records = [r]

theorem single_outstanding : Single (outstanding toLowerCase bank book) := by
  intro e he ht
  rcases List.mem_append.mp he with he | he
  · obtain ⟨r, -, he⟩ := List.mem_flatMap.mp he
    refine ⟨r, ?_⟩
    rw [bookOnly] at he
    split_ifs at he <;> simp_all [finding]
  · obtain ⟨r, -, rfl⟩ := List.mem_map.mp he
    rw [bankOnly] at ht
    split_ifs at ht <;> simp [finding] at ht

theorem any_ownerDraw_iff (h : Single exceptions) (r : Record) :
    (exceptions.any fun e => e.type = .ownerDraw ∧
      (e.records.head?.map (recKey toLowerCase)) = some (recKey toLowerCase r)) ↔
    recKey toLowerCase r ∈ (reportedDraws exceptions).map (recKey toLowerCase) := by
  rw [List.any_eq_true]
  constructor
  case mp =>
    rintro ⟨e, he, hk⟩
    obtain ⟨ht, hk⟩ := of_decide_eq_true hk
    obtain ⟨s, hs⟩ := h e he ht
    rw [hs] at hk
    refine List.mem_map.mpr ⟨s, List.mem_flatMap.mpr ⟨e, List.mem_filter.mpr ⟨he, by simpa using ht⟩, ?_⟩, ?_⟩
    · simp [hs]
    · simpa using hk
  case mpr =>
    intro hm
    obtain ⟨s, hs, hk⟩ := List.mem_map.mp hm
    obtain ⟨e, he, hs⟩ := List.mem_flatMap.mp hs
    obtain ⟨he, ht⟩ := List.mem_filter.mp he
    have ht := of_decide_eq_true ht
    obtain ⟨t, hr⟩ := h e he ht
    rw [hr, List.mem_singleton] at hs
    refine ⟨e, he, decide_eq_true ⟨ht, ?_⟩⟩
    rw [hr, ←hs]
    simp [hk]

-- The draws which are added are those whose keys were not seen before.
theorem reportedDraws_foldl (rs : List Record) (h : Single exceptions)
    (hs : ∀ k, k ∈ seen ↔ k ∈ (reportedDraws exceptions).map (recKey toLowerCase)) (detail : JsString) :
    reportedDraws (rs.foldl (fun exceptions r =>
      if exceptions.any fun e => e.type = .ownerDraw ∧
          (e.records.head?.map (recKey toLowerCase)) = some (recKey toLowerCase r) then exceptions
      else exceptions ++ [finding .ownerDraw r.amount "Owner draw" detail [r]]) exceptions) =
    reportedDraws exceptions ++ novel (recKey toLowerCase) seen rs := by
  induction rs generalizing exceptions seen
  case nil => simp [novel]
  case cons r rs ih =>
    rw [List.foldl_cons, novel]
    by_cases hk : recKey toLowerCase r ∈ seen
    case pos => rw [if_pos <| (any_ownerDraw_iff h r).mpr <| (hs _).mp hk, if_pos hk, ih h hs]
    case neg =>
      have hr : reportedDraws [finding .ownerDraw r.amount "Owner draw" detail [r]] = [r] := by
        simp [reportedDraws, finding]
      have hsingle : Single <| exceptions ++ [finding .ownerDraw r.amount "Owner draw" detail [r]] := by
        intro e he ht
        rcases List.mem_append.mp he with he | he
        · exact h e he ht
        · exact ⟨r, List.mem_singleton.mp he ▸ rfl⟩
      have hseen : ∀ k, k ∈ recKey toLowerCase r :: seen ↔ k ∈
          (reportedDraws <| exceptions ++ [finding .ownerDraw r.amount "Owner draw" detail [r]]).map
            (recKey toLowerCase) := by
        intro k
        simp [hr, hs, or_comm]
      rw [if_neg <| mt (any_ownerDraw_iff h r).mp <| mt (hs _).mpr hk, if_neg hk, ih hsingle hseen,
        reportedDraws_append, hr, List.append_assoc]
      rfl

theorem reportedDraws_ownerOverdraw {subBalances : SubBalances} (keys : List JsString) :
    reportedDraws (keys.flatMap (ownerOverdraw toLowerCase book subBalances tol)) = [] := by
  refine reportedDraws_eq_nil fun e he => ?_
  obtain ⟨key, -, he⟩ := List.mem_flatMap.mp he
  obtain ⟨-, he⟩ := List.mem_ite_nil_left.mp he
  rw [List.mem_singleton.mp he]
  simp [finding]

theorem reportedDraws_classifyOwnerDraws (h : Single exceptions) {subBalances : SubBalances} :
    reportedDraws (classifyOwnerDraws toLowerCase book subBalances exceptions tol) = reportedDraws exceptions ++
      novel (recKey toLowerCase) ((reportedDraws exceptions).map (recKey toLowerCase))
        ((sorted toLowerCase book).filter <| isOwnerDraw toLowerCase) := by
  simp only [classifyOwnerDraws, reportedDraws_append, reportedDraws_ownerOverdraw, List.append_nil, ownerDraws]
  exact reportedDraws_foldl _ h (fun _ => Iff.rfl) _

theorem reportsDraws_iff (h : Single exceptions)
    (hs : (reportedDraws exceptions).Subperm (book.filter <| isOwnerDraw toLowerCase)) {subBalances : SubBalances} :
    ReportsDraws toLowerCase book (classifyOwnerDraws toLowerCase book subBalances exceptions tol) ↔
      Kept (recKey toLowerCase) (reportedDraws exceptions) (book.filter <| isOwnerDraw toLowerCase) := by
  have hp : ((sorted toLowerCase book).filter <| isOwnerDraw toLowerCase).Perm (book.filter <| isOwnerDraw toLowerCase) :=
    (perm_sorted book).filter _
  rw [ReportsDraws, reportedDraws_classifyOwnerDraws h, ←kept_congr (.refl _) hp,
    ←append_novel_perm_iff <| hs.trans hp.symm.subperm]
  exact ⟨fun h => h.trans hp.symm, fun h => h.trans hp⟩

end

-- Every draw is reported once if and only if no two draws have the same key. After the outstanding lines are
-- reported, the draws with one key may also be outstanding, all of them.
theorem classifyOwnerDraws_reports_iff (toLowerCase : JsString → JsString) (bank book : List Record)
    (subBalances : SubBalances) (tol : ℤ) :
    (ReportsDraws toLowerCase book (classifyOwnerDraws toLowerCase book subBalances [] tol) ↔
      Kept (recKey toLowerCase) [] (book.filter <| isOwnerDraw toLowerCase)) ∧
    (ReportsDraws toLowerCase book
        (classifyOwnerDraws toLowerCase book subBalances (outstanding toLowerCase bank book) tol) ↔
      Kept (recKey toLowerCase) (outstandingDraws toLowerCase bank book) (book.filter <| isOwnerDraw toLowerCase)) := by
  constructor
  case left => exact @reportsDraws_iff toLowerCase book [] tol (List.forall_mem_nil _) List.nil_subperm subBalances
  case right =>
    have hp := @reportedDraws_outstanding toLowerCase bank book
    rw [reportsDraws_iff single_outstanding <| hp.subperm.trans outstandingDraws_subperm, kept_congr hp (.refl _)]

-- Two equal draws on one day, of which both are on the bank statement.
def twoDraws : List Record :=
  [record "2026-06-15" (-50000) "owner draw" "check" "Owner", record "2026-06-15" (-50000) "owner draw" "check" "Owner"]

theorem not_reportsDraws : ¬ ReportsDraws Hex.toLowerCase twoDraws
    (classifyOwnerDraws Hex.toLowerCase twoDraws [] (outstanding Hex.toLowerCase twoDraws twoDraws) 0) := by
  intro h
  have := h.length_eq
  revert this
  decide

end Reconcile
