import Verifyhash.Library.Fields
import Verifyhash.Trustledger.Theorems.Conservation
import Verifyhash.Trustledger.Theorems.Segregation

namespace Reconcile

open Fields

section

variable (toLowerCase : JsString → JsString)

-- Rows which the order of the sort tells apart.
def Distinguished (rows : List Record) : Prop :=
  ∀ r ∈ rows, ∀ s ∈ rows, recKey toLowerCase r = recKey toLowerCase s → r = s

-- The rows whose amounts occur more often than on the other side.
def surplus (self other : List Record) : List Record :=
  self.filter fun r => (other.map (·.amount)).count r.amount < (self.map (·.amount)).count r.amount

-- The rows which can be reported are told apart by the order of the sort, and all balances are numbers.
structure Determined (bank book : List Record) (tenants : Tenants) (opts : Options) : Prop where
  unmatchedBank : opts.matchResult = none → Distinguished toLowerCase (surplus bank book)
  unmatchedBook : opts.matchResult = none → Distinguished toLowerCase (surplus book bank)
  ownerDraws    : Distinguished toLowerCase <| book.filter <| isOwnerDraw toLowerCase
  deposits      : Distinguished toLowerCase <| book.filter fun r => isSecurityDeposit toLowerCase r ∧ 0 < r.amount
  ambiguous     : Distinguished toLowerCase <| book.filter <| isAmbiguousDeposit toLowerCase
  numbers       : ∀ rows, tenants = .rows rows → ∀ r ∈ rows, normTenantParty r.party ∉ PROTOTYPE

end

-- The same tenants, with their rows in any order.
inductive Tenants.Perm : Tenants → Tenants → Prop
  | refl : Perm tenants tenants
  | rows {rs rs' : List TenantRow} : rs.Perm rs' → Perm (.rows rs) (.rows rs')

section

variable {toLowerCase : JsString → JsString} {rows rows' : List Record}

theorem pairwise_sorted :
    (sorted toLowerCase rows).Pairwise fun x y => recKey toLowerCase x ≤ recKey toLowerCase y := by
  have : Std.Total fun x y : Record => recKey toLowerCase x ≤ recKey toLowerCase y := ⟨fun _ _ => List.le_total ..⟩
  have : IsTrans Record fun x y => recKey toLowerCase x ≤ recKey toLowerCase y := ⟨fun _ _ _ => List.le_trans⟩
  exact List.pairwise_insertionSort ..

-- The rows which are selected from the sorted rows do not depend on the order of the rows.
theorem filter_sorted_congr {p : Record → Bool} (h : rows.Perm rows')
    (hd : Distinguished toLowerCase <| rows.filter p) :
    (sorted toLowerCase rows).filter p = (sorted toLowerCase rows').filter p := by
  have hp : ((sorted toLowerCase rows).filter p).Perm (rows.filter p) := (perm_sorted rows).filter p
  have hp' : ((sorted toLowerCase rows').filter p).Perm (rows.filter p) := ((perm_sorted rows').trans h.symm).filter p
  refine List.Perm.eq_of_pairwise ?_ (pairwise_sorted.filter p) (pairwise_sorted.filter p) (hp.trans hp'.symm)
  intro r s hr hs hle hge
  exact hd r (hp.subset hr) s (hp'.subset hs) <| List.le_antisymm hle hge

theorem sorted_congr (h : rows.Perm rows') (hd : Distinguished toLowerCase rows) :
    sorted toLowerCase rows = sorted toLowerCase rows' := by
  simpa using filter_sorted_congr (p := fun _ => true) h <| by simpa using hd

-- Amounts which do not occur more often than on the other side do not remain.
theorem cancel_congr {others others' : List ℤ} {p : ℤ → Bool} {rs : List Record}
    (hc : ∀ a, p a → others.count a = others'.count a)
    (hs : ∀ a, ¬ p a → (rs.map (·.amount)).count a ≤ others.count a) :
    cancel others rs = cancel others' (rs.filter fun r => p r.amount) := by
  induction rs generalizing others others'
  case nil => rfl
  case cons r rs ih =>
    have he (a) (ha : a ≠ r.amount) : (others.erase r.amount).count a = others.count a :=
      List.count_erase_of_ne ha
    have hr (a) (ha : a ≠ r.amount) : ((r :: rs).map (·.amount)).count a = (rs.map (·.amount)).count a := by
      rw [List.map_cons, List.count_cons_of_ne ha.symm]
    by_cases hp : p r.amount
    case pos =>
      have hf : (r :: rs).filter (fun r => p r.amount) = r :: rs.filter fun r => p r.amount :=
        List.filter_cons_of_pos hp
      rw [hf, cancel, cancel]
      have hm : r.amount ∈ others ↔ r.amount ∈ others' := by
        rw [←List.count_pos_iff, ←List.count_pos_iff, hc _ hp]
      have hs' (a) (ha : ¬ p a) : (rs.map (·.amount)).count a ≤ others.count a := by
        have hne : a ≠ r.amount := fun h => ha <| h ▸ hp
        exact (hr a hne) ▸ hs a ha
      by_cases h : r.amount ∈ others
      case pos =>
        rw [if_pos h, if_pos <| hm.mp h]
        refine ih (fun a ha => ?_) (fun a ha => ?_)
        · rw [List.count_erase, List.count_erase, hc a ha]
        · exact (hs' a ha).trans_eq (he a fun h => ha <| h ▸ hp).symm
      case neg => rw [if_neg h, if_neg <| mt hm.mpr h, ih hc hs']
    case neg =>
      have hle := hs _ hp
      rw [List.map_cons, List.count_cons_self] at hle
      have h : r.amount ∈ others := List.count_pos_iff.mp <| Nat.lt_of_lt_of_le (Nat.succ_pos _) hle
      have hf : (r :: rs).filter (fun r => p r.amount) = rs.filter fun r => p r.amount := List.filter_cons_of_neg hp
      rw [hf, cancel, if_pos h]
      refine ih (fun a ha => ?_) (fun a ha => ?_)
      · exact (he a fun h => hp <| h ▸ ha).trans (hc a ha)
      · by_cases hne : a = r.amount
        case pos =>
          subst hne
          rw [List.count_erase_self]
          exact Nat.le_sub_one_of_lt hle
        case neg => exact (hr a hne) ▸ (hs a ha).trans_eq (he a hne).symm

section

variable {self self' other other' : List Record}

theorem residue_congr (hs : self.Perm self') (ho : other.Perm other')
    (hd : Distinguished toLowerCase <| surplus self other) :
    residue toLowerCase self other = residue toLowerCase self' other' := by
  have hc {l l' : List Record} (h : l.Perm l') (a) : (l.map (·.amount)).count a = (l'.map (·.amount)).count a :=
    (h.map _).count_eq a
  have h {l l' : List Record} (hl : l.Perm self) (hl' : l'.Perm other) :
      residue toLowerCase l l' = cancel (other.map (·.amount)) ((sorted toLowerCase l).filter fun r =>
        (other.map (·.amount)).count r.amount < (self.map (·.amount)).count r.amount) := by
    refine cancel_congr (p := fun a => (other.map (·.amount)).count a < (self.map (·.amount)).count a)
      (fun a _ => hc hl' a) (fun a ha => ?_)
    rw [hc ((perm_sorted l).trans hl), hc hl']
    simpa using ha
  rw [h (.refl _) (.refl _), h hs.symm ho.symm, filter_sorted_congr hs hd]

end

section

variable {book book' : List Record}

theorem ownerDraws_congr (h : book.Perm book') (hd : Distinguished toLowerCase <| book.filter <| isOwnerDraw toLowerCase)
    (exceptions : List Finding) : ownerDraws toLowerCase exceptions book = ownerDraws toLowerCase exceptions book' := by
  rw [ownerDraws, filter_sorted_congr h hd, ownerDraws]

theorem ownerOverdraw_congr {subBalances subBalances' : SubBalances} (h : book.Perm book')
    (hd : Distinguished toLowerCase <| book.filter <| isOwnerDraw toLowerCase) (hs : subBalances.Perm subBalances') :
    ownerOverdraw toLowerCase book subBalances tol key = ownerOverdraw toLowerCase book' subBalances' tol key := by
  have hw : (sorted toLowerCase book).filter (fun r => isOwnerDraw toLowerCase r ∧ partyKey toLowerCase r.party = key) =
      (sorted toLowerCase book').filter fun r => isOwnerDraw toLowerCase r ∧ partyKey toLowerCase r.party = key := by
    refine filter_sorted_congr h fun r hr s hs => hd r ?_ s ?_
    · simp_all
    · simp_all
  have hi := sumAmounts_perm <| h.filter fun r =>
    ¬ isOwnerDraw toLowerCase r ∧ 0 < r.amount ∧ key ≠ [] ∧ partyKey toLowerCase r.party = key
  have hb := hs.filterMap fun entry : JsString × Option ℤ =>
    if partyKey toLowerCase entry.1 = key then entry.2 else none
  rw [ownerOverdraw, ownerOverdraw, hw, hi, hb.sum_eq]
  simp only [←List.length_eq_zero_iff, hb.length_eq]

theorem classifyOwnerDraws_congr {subBalances subBalances' : SubBalances} (h : book.Perm book')
    (hd : Distinguished toLowerCase <| book.filter <| isOwnerDraw toLowerCase) (hs : subBalances.Perm subBalances')
    (exceptions : List Finding) : classifyOwnerDraws toLowerCase book subBalances exceptions tol =
      classifyOwnerDraws toLowerCase book' subBalances' exceptions tol := by
  rw [classifyOwnerDraws, classifyOwnerDraws, filter_sorted_congr h hd, ownerDraws_congr h hd]
  congr 2
  funext key
  exact ownerOverdraw_congr h hd hs

theorem secDeposits_congr (h : book.Perm book')
    (hd : Distinguished toLowerCase <| book.filter fun r => isSecurityDeposit toLowerCase r ∧ 0 < r.amount) :
    secDeposits toLowerCase book = secDeposits toLowerCase book' :=
  sorted_congr (h.filter _) hd

theorem segregationMoves_perm (h : book.Perm book')
    (hd : secDeposits toLowerCase book = secDeposits toLowerCase book') :
    (segregationMoves toLowerCase book).Perm (segregationMoves toLowerCase book') := by
  rw [segregationMoves, segregationMoves, hd]
  exact ((perm_sorted _).trans <| (h.filter _).trans (perm_sorted _).symm).map _

theorem pools_congr {moves moves' : List (JsString × ℤ)} (h : moves.Perm moves') :
    (∀ key, coverage (pools moves).1 key = coverage (pools moves').1 key) ∧ (pools moves).2 = (pools moves').2 := by
  obtain ⟨hc, hg⟩ := pools_eq moves
  obtain ⟨hc', hg'⟩ := pools_eq moves'
  refine ⟨fun key => ?_, ?_⟩
  · rw [hc, hc', ((h.filter _).map _).sum_eq]
  · rw [hg, hg', ((h.filter _).map _).sum_eq]

theorem stillShort_congr {covered covered' : List (JsString × ℤ)}
    (h : ∀ key, coverage covered key = coverage covered' key) (rs : List Record) :
    stillShort toLowerCase covered rs = stillShort toLowerCase covered' rs := by
  induction rs generalizing covered covered'
  case nil => rfl
  case cons r rs ih =>
    simp only [stillShort, h]
    rw [ih fun key => ?_]
    rw [coverage_setCoverage, coverage_setCoverage, h]

theorem classifySecurityDeposits_congr (h : book.Perm book')
    (hd : Distinguished toLowerCase <| book.filter fun r => isSecurityDeposit toLowerCase r ∧ 0 < r.amount)
    (bank bank' : List Record) :
    classifySecurityDeposits toLowerCase book bank = classifySecurityDeposits toLowerCase book' bank' := by
  have hs := secDeposits_congr h hd
  obtain ⟨hc, hg⟩ := pools_congr <| segregationMoves_perm h hs
  simp only [classifySecurityDeposits]
  rw [hg, stillShort_congr hc, hs]

theorem classifyAmbiguousDeposits_congr (h : book.Perm book')
    (hd : Distinguished toLowerCase <| book.filter <| isAmbiguousDeposit toLowerCase) :
    classifyAmbiguousDeposits toLowerCase book = classifyAmbiguousDeposits toLowerCase book' := by
  rw [classifyAmbiguousDeposits, sorted_congr (h.filter _) hd, classifyAmbiguousDeposits]

end

-- What a row does to the balance under one name.
def addRow (party : JsString) (balance : Option (Option ℤ)) (r : TenantRow) : Option (Option ℤ) :=
  if normTenantParty r.party = party ∧ party ≠ js "__proto__" then
    some <| if party ∈ PROTOTYPE then balance.getD none else (balance.getD (some 0)).map (· + r.amount)
  else balance

theorem addRow_comm : addRow party (addRow party balance r) s = addRow party (addRow party balance s) r := by
  by_cases hr : normTenantParty r.party = party ∧ party ≠ js "__proto__"
  case neg => simp only [addRow, if_neg hr]
  case pos =>
    by_cases hs : normTenantParty s.party = party ∧ party ≠ js "__proto__"
    case neg => simp only [addRow, if_neg hs]
    case pos =>
      simp only [addRow, if_pos hr, if_pos hs]
      split_ifs
      · rfl
      · cases balance.getD (some 0) <;> simp [Int.add_right_comm]

theorem nodup_addBalance {out : SubBalances} (h : (out.map (·.1)).Nodup) :
    ((addBalance out party amount).map (·.1)).Nodup := by
  have hn (x : Option ℤ) (hm : party ∉ out.map (·.1)) : ((out ++ [(party, x)]).map (·.1)).Nodup := by
    rw [List.map_append, List.nodup_append]
    refine ⟨h, List.nodup_singleton _, fun a ha b hb => ?_⟩
    have hb : b = party := List.mem_singleton.mp hb
    exact fun h => hm <| hb ▸ h ▸ ha
  rw [addBalance]
  split_ifs with hp hm hi hi
  · exact h
  · exact h
  · exact hn _ hi
  · rw [List.map_map]
    refine (congrArg List.Nodup <| List.map_congr_left fun entry _ => ?_).mp h
    by_cases he : entry.1 = party
    case pos => simp [he]
    case neg => simp [he]
  · exact hn _ hi

theorem lookup_addBalance {out : SubBalances} :
    (addBalance out (normTenantParty r.party) r.amount).lookup party = addRow party (out.lookup party) r := by
  have hn (x : Option ℤ) : (out ++ [(normTenantParty r.party, x)]).lookup party =
      (out.lookup party).or (if normTenantParty r.party = party then some x else none) := by
    rw [List.lookup_append, List.lookup_cons]
    by_cases h : normTenantParty r.party = party
    case pos => simp [h]
    case neg => simp [h, beq_false_of_ne (Ne.symm h)]
  by_cases h : normTenantParty r.party = party
  case neg =>
    have hg : ¬ (normTenantParty r.party = party ∧ party ≠ js "__proto__") := fun h' => h h'.left
    rw [addRow, if_neg hg, addBalance]
    split_ifs
    · rfl
    · rfl
    · simp [hn, h]
    · rw [lookup_map_ite, if_neg (Ne.symm h)]
    · simp [hn, h]
  case pos =>
    subst h
    by_cases hp : normTenantParty r.party = js "__proto__"
    case pos => simp only [addBalance, addRow, hp, if_true, ne_eq, not_true_eq_false, and_false, if_false]
    case neg =>
      have hg : normTenantParty r.party = normTenantParty r.party ∧ normTenantParty r.party ≠ js "__proto__" := ⟨rfl, hp⟩
      rw [addRow, if_pos hg, addBalance, if_neg hp]
      simp only [mem_map_fst_iff]
      cases hl : out.lookup <| normTenantParty r.party
      case none => split_ifs <;> simp_all
      case some balance => split_ifs <;> simp_all [lookup_map_ite]

-- The balance under a name, which each row with that name changes.
theorem lookup_tenantBalances {rs : List TenantRow} :
    (tenantBalances (.rows rs)).lookup party = rs.foldl (addRow party) none ∧
    ((tenantBalances (.rows rs)).map (·.1)).Nodup := by
  suffices h : ∀ out : SubBalances, (out.map (·.1)).Nodup →
      (rs.foldl (fun out r => addBalance out (normTenantParty r.party) r.amount) out).lookup party =
        rs.foldl (addRow party) (out.lookup party) ∧
      ((rs.foldl (fun out r => addBalance out (normTenantParty r.party) r.amount) out).map (·.1)).Nodup from
    h [] List.nodup_nil
  induction rs
  case nil => exact fun out ho => ⟨rfl, ho⟩
  case cons r rs ih =>
    intro out ho
    rw [List.foldl_cons, List.foldl_cons, ←lookup_addBalance]
    exact ih _ <| nodup_addBalance ho

theorem nodup_tenantBalances {rs : List TenantRow} : ((tenantBalances (.rows rs)).map (·.1)).Nodup :=
  have h : (tenantBalances (.rows rs)).lookup [] = _ ∧ _ := lookup_tenantBalances
  h.right

theorem lookup_tenantBalances_congr (h : Tenants.Perm tenants tenants') :
    (tenantBalances tenants).lookup party = (tenantBalances tenants').lookup party := by
  cases h
  case refl => rfl
  case rows h =>
    rw [lookup_tenantBalances.left, lookup_tenantBalances.left]
    exact h.foldl_eq' (fun _ _ _ _ _ => addRow_comm) none

theorem tenantBalances_perm (h : Tenants.Perm tenants tenants') :
    (tenantBalances tenants).Perm (tenantBalances tenants') := by
  cases h
  case refl => rfl
  case rows rs rs' h =>
    have hn (rs) : ((tenantBalances (.rows rs)).map (·.1)).Nodup := nodup_tenantBalances
    have hm {rs} (entry : JsString × Option ℤ) :
        entry ∈ tenantBalances (.rows rs) ↔ (tenantBalances (.rows rs)).lookup entry.1 = some entry.2 :=
      ⟨lookup_of_mem <| hn rs, mem_of_lookup⟩
    refine (List.perm_ext_iff_of_nodup (hn rs).of_map (hn rs').of_map).mpr fun entry => ?_
    rw [hm, hm, lookup_tenantBalances_congr <| .rows h]

theorem total_congr {subBalances subBalances' : SubBalances} (h : subBalances.Perm subBalances') :
    total subBalances = total subBalances' := by
  refine (h.map _).foldl_eq' (fun x _ y _ z => ?_) _
  cases x <;> cases y <;> cases z <;> simp [Int.add_right_comm]

theorem mem_controlAccountKeys_congr (h : Tenants.Perm tenants tenants') :
    party ∈ controlAccountKeys tenants ↔ party ∈ controlAccountKeys tenants' := by
  cases h
  case refl => rfl
  case rows h => exact ((h.filter _).map _).mem_iff

theorem insertionSort_congr {l l' : List JsString} (h : l.Perm l') :
    (l.insertionSort (· ≤ ·)) = l'.insertionSort (· ≤ ·) := by
  have : Std.Total fun x y : JsString => x ≤ y := ⟨fun _ _ => List.le_total ..⟩
  have : IsTrans JsString fun x y => x ≤ y := ⟨fun _ _ _ => List.le_trans⟩
  refine List.Perm.eq_of_pairwise (fun _ _ _ _ => List.le_antisymm) (List.pairwise_insertionSort ..)
    (List.pairwise_insertionSort ..) ?_
  exact (List.perm_insertionSort ..).trans <| h.trans (List.perm_insertionSort ..).symm

theorem classifyNegativeTenantLedgers_congr (h : Tenants.Perm tenants tenants') :
    classifyNegativeTenantLedgers toLowerCase (tenantBalances tenants) tol (controlAccountKeys tenants) =
      classifyNegativeTenantLedgers toLowerCase (tenantBalances tenants') tol (controlAccountKeys tenants') := by
  rw [classifyNegativeTenantLedgers, classifyNegativeTenantLedgers]
  simp only [lookup_tenantBalances_congr h, mem_controlAccountKeys_congr h,
    insertionSort_congr ((tenantBalances_perm h).map _)]

variable {bank bank' book book' : List Record} {opts : Options}

theorem matcherUnmatched_congr {side : MatchResult → Option (List Record)} (hs : rows.Perm rows')
    (ho : book.Perm book') (hd : opts.matchResult = none → Distinguished toLowerCase (surplus rows book)) :
    matcherUnmatched toLowerCase opts.matchResult side rows book =
      matcherUnmatched toLowerCase opts.matchResult side rows' book' := by
  cases hm : opts.matchResult
  case none => exact residue_congr hs ho <| hd hm
  case some => rfl

end

instance {rows : List Record} : Decidable (Distinguished Hex.toLowerCase rows) :=
  inferInstanceAs (Decidable (∀ r ∈ rows, ∀ s ∈ rows, recKey Hex.toLowerCase r = recKey Hex.toLowerCase s → r = s))

-- Two deposits in transit whose memos differ in their case only, and so have the same place in the sort.
def tied : List Record :=
  [record "2026-06-02" 120000 "Rent June" "deposit" "Jones (4B)", record "2026-06-02" 120000 "rent june" "deposit" "Jones (4B)"]

end Reconcile
