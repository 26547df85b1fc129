import Verifyhash.Trustledger.Theorems.Permutation

-- What the balances of the beneficiaries have to do with the rows of the rent roll.
namespace Reconcile

open Fields

-- The names under which a plain object does not keep a number.
def RESERVED : List JsString :=
  js "__proto__" :: PROTOTYPE

def sumTenants (rows : List TenantRow) : ℤ :=
  (rows.map (·.amount)).sum

def rowsOf (party : JsString) (rows : List TenantRow) : List TenantRow :=
  rows.filter fun r => normTenantParty r.party = party

-- The balances sum up to the amounts, and there is one for each party, which is the sum of its rows.
structure Conserves (rows : List TenantRow) : Prop where
  total  : total (tenantBalances (.rows rows)) = some (sumTenants rows)
  nodup  : ((tenantBalances (.rows rows)).map (·.1)).Nodup
  lookup : ∀ party, (tenantBalances (.rows rows)).lookup party =
    if rowsOf party rows = [] then none else some (some (sumTenants (rowsOf party rows)))

section

variable {rows : List TenantRow} {party : JsString}

theorem sumTenants_cons : sumTenants (r :: rows) = r.amount + sumTenants rows :=
  List.sum_cons

theorem rowsOf_cons_of_eq (h : normTenantParty r.party = party) : rowsOf party (r :: rows) = r :: rowsOf party rows :=
  List.filter_cons_of_pos <| by simpa using h

theorem rowsOf_cons_of_ne (h : normTenantParty r.party ≠ party) : rowsOf party (r :: rows) = rowsOf party rows :=
  List.filter_cons_of_neg <| by simpa using h

theorem mem_rowsOf (h : r ∈ rows) : r ∈ rowsOf (normTenantParty r.party) rows :=
  List.mem_filter.mpr ⟨h, by simp⟩

theorem addRow_of_ne (h : normTenantParty r.party ≠ party) : addRow party balance r = balance :=
  if_neg fun h' => h h'.left

theorem foldl_addRow_some (h : party ∉ RESERVED) (n : ℤ) :
    rows.foldl (addRow party) (some (some n)) = some (some (n + sumTenants (rowsOf party rows))) := by
  have ⟨hp, hm⟩ := not_or.mp <| mt List.mem_cons.mpr h
  induction rows generalizing n
  case nil => simp [rowsOf, sumTenants]
  case cons r rows ih =>
    rw [List.foldl_cons]
    by_cases hr : normTenantParty r.party = party
    case pos =>
      have ha : addRow party (some (some n)) r = some (some (n + r.amount)) := by
        rw [addRow, if_pos ⟨hr, hp⟩, if_neg hm]
        rfl
      rw [ha, ih, rowsOf_cons_of_eq hr, sumTenants_cons, Int.add_assoc]
    case neg => rw [addRow_of_ne hr, ih, rowsOf_cons_of_ne hr]

theorem foldl_addRow_none (h : party ∉ RESERVED) : rows.foldl (addRow party) none =
    if rowsOf party rows = [] then none else some (some (sumTenants (rowsOf party rows))) := by
  have ⟨hp, hm⟩ := not_or.mp <| mt List.mem_cons.mpr h
  induction rows
  case nil => rfl
  case cons r rows ih =>
    rw [List.foldl_cons]
    by_cases hr : normTenantParty r.party = party
    case pos =>
      have ha : addRow party none r = some (some r.amount) := by
        rw [addRow, if_pos ⟨hr, hp⟩, if_neg hm]
        simp
      rw [ha, foldl_addRow_some h, rowsOf_cons_of_eq hr, if_neg (List.cons_ne_nil _ _), sumTenants_cons]
    case neg => rw [addRow_of_ne hr, ih, rowsOf_cons_of_ne hr]

-- Under a reserved name there is no number.
theorem foldl_addRow_of_reserved (h : party ∈ RESERVED) {balance : Option (Option ℤ)} (hb : balance.bind id = none) :
    (rows.foldl (addRow party) balance).bind id = none := by
  induction rows generalizing balance
  case nil => exact hb
  case cons r rows ih =>
    rw [List.foldl_cons]
    refine ih ?_
    rw [addRow]
    split_ifs with hr hm
    · cases balance <;> simp_all
    · exact absurd (List.mem_cons.mp h) <| not_or.mpr ⟨hr.right, hm⟩
    · exact hb

theorem foldl_total (n : ℤ) (balances : SubBalances) :
    (balances.map (·.2)).foldl (fun a b => a.bind fun a => b.map (a + ·)) (some n) = (total balances).map (n + ·) := by
  have hn (l : List (Option ℤ)) : l.foldl (fun a b => a.bind fun a => b.map (a + ·)) none = none := by
    induction l
    case nil => rfl
    case cons b l ih => exact ih
  induction balances generalizing n
  case nil => simp [total]
  case cons entry balances ih =>
    rw [total, List.map_cons, List.foldl_cons, List.foldl_cons]
    cases entry.2
    case none => simp [hn]
    case some m =>
      simp only [Option.bind_some, Option.map_some]
      rw [ih, ih, Option.map_map]
      congr 1
      funext k
      simp [Int.add_assoc]

theorem total_cons : total ((party, some m) :: balances) = (total balances).map (m + ·) := by
  have h := foldl_total m balances
  rw [total, List.map_cons, List.foldl_cons]
  simpa using h

theorem total_append {balances balances' : SubBalances} (h : total balances = some n) :
    total (balances ++ balances') = (total balances').map (n + ·) := by
  have h : (balances.map (·.2)).foldl (fun a b => a.bind fun a => b.map (a + ·)) (some 0) = some n := h
  rw [total, List.map_append, List.foldl_append, h, foldl_total]

theorem map_ite_of_notMem {balances : SubBalances} {f : JsString × Option ℤ → JsString × Option ℤ}
    (h : party ∉ balances.map (·.1)) : (balances.map fun entry => if entry.1 = party then f entry else entry) = balances := by
  refine (List.map_congr_left fun entry he => ?_).trans <| List.map_id balances
  have hp : entry.1 ≠ party := fun h' => h <| h' ▸ List.mem_map_of_mem he
  simp [hp]

-- Only one of the balances is changed.
theorem total_map_ite {balances : SubBalances} (hn : (balances.map (·.1)).Nodup) (hm : party ∈ balances.map (·.1))
    (h : total balances = some n) :
    total (balances.map fun entry => if entry.1 = party then (party, entry.2.map (· + amount)) else entry) =
      some (n + amount) := by
  induction balances generalizing n
  case nil => simp at hm
  case cons entry balances ih =>
    obtain ⟨name, balance⟩ := entry
    rw [List.map_cons, List.nodup_cons] at hn
    cases balance
    case none =>
      have : total ((name, none) :: balances) = none := by
        rw [total, List.map_cons, List.foldl_cons]
        simp only [Option.map_none, Option.bind_some]
        generalize balances.map (·.2) = l
        induction l
        case nil => rfl
        case cons b l ih => exact ih
      simp [this] at h
    case some m =>
      rw [total_cons, Option.map_eq_some_iff] at h
      obtain ⟨k, hk, rfl⟩ := h
      by_cases hp : name = party
      case pos =>
        subst hp
        rw [List.map_cons, map_ite_of_notMem (f := fun entry => (name, entry.2.map (· + amount))) hn.left]
        simp only [if_true, Option.map_some]
        rw [total_cons, hk]
        simp [Int.add_right_comm]
      case neg =>
        have hm : party ∈ balances.map (·.1) := by
          rw [List.map_cons] at hm
          exact (List.mem_cons.mp hm).resolve_left <| Ne.symm hp
        rw [List.map_cons, if_neg hp, total_cons, ih hn.right hm hk]
        simp [Int.add_assoc]

theorem total_addBalance {balances : SubBalances} (hr : party ∉ RESERVED) (hn : (balances.map (·.1)).Nodup)
    (h : total balances = some n) : total (addBalance balances party amount) = some (n + amount) := by
  have ⟨hp, hm⟩ := not_or.mp <| mt List.mem_cons.mpr hr
  rw [addBalance, if_neg hp, if_neg hm]
  split_ifs with hi
  case pos => exact total_map_ite hn hi h
  case neg =>
    rw [total_append h]
    simp [total]

theorem total_tenantBalances (h : ∀ r ∈ rows, normTenantParty r.party ∉ RESERVED) :
    total (tenantBalances (.rows rows)) = some (sumTenants rows) := by
  suffices hs : ∀ (out : SubBalances) n, (out.map (·.1)).Nodup → total out = some n →
      total (rows.foldl (fun out r => addBalance out (normTenantParty r.party) r.amount) out) =
        some (n + sumTenants rows) by
    rw [tenantBalances, hs [] 0 List.nodup_nil rfl, Int.zero_add]
  induction rows
  case nil =>
    intro out n _ hn
    simpa [sumTenants] using hn
  case cons r rows ih =>
    intro out n ho hn
    have ⟨hr, h⟩ := List.forall_mem_cons.mp h
    rw [List.foldl_cons, ih h _ _ (nodup_addBalance ho) (total_addBalance hr ho hn), sumTenants_cons, Int.add_assoc]

end

end Reconcile
