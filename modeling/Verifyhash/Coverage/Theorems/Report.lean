import Verifyhash.Coverage.Report
import Verifyhash.Library.Fallible

namespace Coverage

open Json

namespace Status

-- A status outside of `STATUS_PRECEDENCE` comes last.
def rank (s : Status) : ℕ :=
  (STATUS_PRECEDENCE s).getD 4

theorem rank_injective : Function.Injective rank := by
  intro s t h
  cases s <;> cases t <;> first | rfl | exact absurd h <| by decide

theorem rank_le_one_iff (s : Status) : s.rank ≤ 1 ↔ s ∈ COVERED_STATUSES := by
  cases s <;> decide

end Status

-- A claim which covers its commit.
def ClaimRow.Covers (cl : ClaimRow) : Prop :=
  claimStatus cl.packetVerified cl.rootVerified ∈ COVERED_STATUSES

theorem ClaimRow.Covers.packetVerified {cl : ClaimRow} (h : cl.Covers) : cl.packetVerified = true := by
  by_contra hp
  have hs : claimStatus cl.packetVerified cl.rootVerified = .claimUnverifiedPacket := if_pos hp
  exact absurd (hs ▸ h : Status.claimUnverifiedPacket ∈ COVERED_STATUSES) <| by decide

def ClaimRow.Valid (cl : ClaimRow) : Prop :=
  isOid cl.oid ∧ validateClaimFacts cl.gitRoot cl.packetLabel = none

-- The arguments which are evaluated, with their normalized policy.
structure Accepted (args : Args) (policy : Policy) : Prop where
  commits_le : args.commits.length ≤ MAX_COMMITS
  oids       : ∀ oid ∈ args.commits, isOid oid
  nodup      : args.commits.Nodup
  claims_le  : args.claims.length ≤ MAX_CLAIMS
  claims     : ∀ cl ∈ args.claims, cl.Valid
  policy     : checkPolicy args.commits args.policy = .ok policy

def statusOf (kept : List ClaimRow) (oid : JsString) : Status :=
  commitStatus <| entriesOf kept oid

def Totals.sum (t : Totals) : ℕ :=
  t.claimRootMismatch + t.claimUnverifiedPacket + t.coveredOidOnly + t.coveredVerified + t.uncovered

-- The report lists the commit as covered.
def Report.Covered (r : Report) (oid : JsString) : Prop :=
  ∃ e ∈ r.commits, e.oid = oid ∧ e.status ∈ COVERED_STATUSES

-- The commits which a policy requires to be covered: all of them, or those from a commit on.
def Policy.required (p : Policy) (oidOf : α → JsString) (commits : List α) : List α :=
  if p.requireAll then commits else p.requireSince.elim [] fun oid => commits.dropWhile (oidOf · ≠ oid)

def Policy.rule (p : Policy) : Rule :=
  if p.requireAll then .requireAll else .requireSince

section

variable {args : Args} {commits oids seen : List JsString} {kept kept' cls : List ClaimRow} {policy : Policy}
         {oid : JsString}

theorem checkCommits_eq_ok {i : ℕ} : checkCommits i seen oids = .ok () ↔
    (∀ oid ∈ oids, isOid oid) ∧ oids.Nodup ∧ ∀ oid ∈ oids, oid ∉ seen := by
  induction oids generalizing i seen
  case nil => simp [checkCommits]
  case cons oid oids ih =>
    rw [checkCommits]
    by_cases ho : isOid oid
    case neg => simp [ho]
    case pos =>
      rw [if_neg <| not_not.mpr ho]
      by_cases hs : oid ∈ seen
      case pos => simp [hs]
      case neg =>
        rw [if_neg hs, ih]
        grind

theorem checkClaims_eq_ok {i : ℕ} : checkClaims commits i cls = .ok kept ↔
    (∀ cl ∈ cls, cl.Valid) ∧ cls.filter (·.oid ∈ commits) = kept := by
  induction cls generalizing i kept
  case nil => simp [checkClaims]
  case cons cl cls ih =>
    rw [checkClaims]
    by_cases ho : isOid cl.oid
    case neg => simp [ClaimRow.Valid, ho]
    case pos =>
      rw [if_neg <| not_not.mpr ho]
      cases hf : validateClaimFacts cl.gitRoot cl.packetLabel
      case some f => simp [ClaimRow.Valid, hf]
      case none =>
        have hv : cl.Valid := ⟨ho, hf⟩
        cases hr : checkClaims commits (i + 1) cls
        case error e =>
          have hn : ¬ ∀ cl ∈ cls, cl.Valid := by
            intro h
            simpa [hr] using ih (i := i + 1) |>.mpr ⟨h, rfl⟩
          simp [Except.map, hv, hn]
        case ok kept' =>
          obtain ⟨h, rfl⟩ := ih.mp hr
          simp [Except.map, hv, List.filter_cons]
          tauto

theorem evaluateCoverage_eq_ok {r : Report} : evaluateCoverage args = .ok r ↔
    ∃ policy, Accepted args policy ∧
      reportOf args.commits (args.claims.filter (·.oid ∈ args.commits)) policy = r := by
  rw [evaluateCoverage]
  constructor
  case mp =>
    intro h
    by_cases hm : args.commits.length > MAX_COMMITS
    case pos => simp [hm] at h
    by_cases hl : args.claims.length > MAX_CLAIMS
    case pos =>
      simp only [hm, hl, if_true, if_false] at h
      obtain ⟨_, _, h⟩ := Fallible.bind_eq_ok.mp h
      simp at h
    simp only [hm, hl, if_false] at h
    obtain ⟨⟨⟩, hc, h⟩ := Fallible.bind_eq_ok.mp h
    obtain ⟨kept, hk, h⟩ := Fallible.bind_eq_ok.mp h
    obtain ⟨policy, hp, h⟩ := Fallible.bind_eq_ok.mp h
    have ⟨ho, hn, _⟩ := checkCommits_eq_ok.mp hc
    obtain ⟨hv, rfl⟩ := checkClaims_eq_ok.mp hk
    exact ⟨policy, ⟨by omega, ho, hn, by omega, hv, hp⟩, Fallible.pure_eq_ok.mp h⟩
  case mpr =>
    rintro ⟨policy, a, rfl⟩
    have hc : checkCommits 0 [] args.commits = .ok () := checkCommits_eq_ok.mpr ⟨a.oids, a.nodup, by simp⟩
    have hk : checkClaims args.commits 0 args.claims = .ok _ := checkClaims_eq_ok.mpr ⟨a.claims, rfl⟩
    simp [Nat.not_lt.mpr a.commits_le, Nat.not_lt.mpr a.claims_le, hc, hk, a.policy]

theorem betterStatus_snd_rank {b : Option ℕ × Status} (hb : b.fst = STATUS_PRECEDENCE b.snd) (ce : ClaimEntry) :
    (betterStatus b ce).fst = STATUS_PRECEDENCE (betterStatus b ce).snd ∧
      (betterStatus b ce).snd.rank = min b.snd.rank ce.status.rank := by
  obtain ⟨r, s⟩ := b
  obtain rfl : r = STATUS_PRECEDENCE s := hb
  rw [betterStatus]
  cases s <;> cases ce.status <;> decide

theorem rank_foldl_le {b : Option ℕ × Status} {entries : List ClaimEntry} {n : ℕ}
    (hb : b.fst = STATUS_PRECEDENCE b.snd) :
    (entries.foldl betterStatus b).snd.rank ≤ n ↔ b.snd.rank ≤ n ∨ ∃ ce ∈ entries, ce.status.rank ≤ n := by
  induction entries generalizing b
  case nil => simp
  case cons ce entries ih =>
    have ⟨hb', hr⟩ := betterStatus_snd_rank hb ce
    rw [List.foldl_cons, ih hb', hr, min_le_iff, or_assoc]
    simp

theorem rank_commitStatus_le {entries : List ClaimEntry} {n : ℕ} :
    (commitStatus entries).rank ≤ n ↔ 4 ≤ n ∨ ∃ ce ∈ entries, ce.status.rank ≤ n :=
  rank_foldl_le rfl

-- The status of a commit depends on which claims there are, not on their order or number.
theorem commitStatus_congr {entries entries' : List ClaimEntry} (h : ∀ ce, ce ∈ entries ↔ ce ∈ entries') :
    commitStatus entries = commitStatus entries' := by
  apply Status.rank_injective
  apply eq_of_forall_ge_iff
  intro n
  simp only [rank_commitStatus_le, h]

theorem mem_entriesOf {ce : ClaimEntry} : ce ∈ entriesOf kept oid ↔ ∃ cl ∈ kept, cl.oid = oid ∧ cl.entry = ce := by
  simp [entriesOf, and_assoc]

theorem statusOf_covered : statusOf kept oid ∈ COVERED_STATUSES ↔ ∃ cl ∈ kept, cl.oid = oid ∧ cl.Covers := by
  rw [← Status.rank_le_one_iff, statusOf, rank_commitStatus_le]
  simp only [mem_entriesOf, Status.rank_le_one_iff]
  constructor
  · rintro (h | ⟨_, ⟨cl, hm, ho, rfl⟩, hc⟩)
    · contradiction
    · exact ⟨cl, hm, ho, hc⟩
  · rintro ⟨cl, hm, ho, hc⟩
    exact .inr ⟨_, ⟨cl, hm, ho, rfl⟩, hc⟩

theorem covered_reportOf : (reportOf commits kept policy).Covered oid ↔
    oid ∈ commits ∧ statusOf kept oid ∈ COVERED_STATUSES := by
  constructor
  · rintro ⟨e, he, rfl, hc⟩
    obtain ⟨o, ho, rfl⟩ := List.mem_map.mp he
    exact ⟨ho, hc⟩
  · rintro ⟨ho, hc⟩
    exact ⟨commitEntry kept oid, List.mem_map_of_mem ho, rfl, hc⟩

-- Of the claims of accepted arguments, those decide which name a commit of the range.
theorem covered_filter {claims : List ClaimRow} :
    (reportOf commits (claims.filter (·.oid ∈ commits)) policy).Covered oid ↔
      oid ∈ commits ∧ ∃ cl ∈ claims, cl.oid = oid ∧ cl.Covers := by
  rw [covered_reportOf, statusOf_covered]
  constructor
  · rintro ⟨ho, cl, hm, rfl, hc⟩
    exact ⟨ho, cl, (List.mem_filter.mp hm).left, rfl, hc⟩
  · rintro ⟨ho, cl, hm, rfl, hc⟩
    exact ⟨ho, cl, List.mem_filter.mpr ⟨hm, by simpa using ho⟩, rfl, hc⟩

-- The failures among commits which are counted from a position.
theorem filterMap_failureAt_all (hp : policy.requireAll = true) (since : Option ℕ) (entries : List CommitEntry)
    (k : ℕ) :
    (entries.zipIdx k).filterMap (fun e => failureAt policy since e.fst e.snd) =
      (entries.filter (·.status ∉ COVERED_STATUSES)).map fun e =>
        { oid := e.oid, rule := .requireAll, status := e.status } := by
  induction entries generalizing k
  case nil => rfl
  case cons e entries ih =>
    rw [List.zipIdx_cons, List.filterMap_cons, ih]
    by_cases hc : e.status ∈ COVERED_STATUSES <;> simp [failureAt, hc, hp]

theorem filterMap_failureAt_since (hp : policy.requireAll = false) {n : ℕ} (entries : List CommitEntry) (k : ℕ) :
    (entries.zipIdx k).filterMap (fun e => failureAt policy (some n) e.fst e.snd) =
      ((entries.drop (n - k)).filter (·.status ∉ COVERED_STATUSES)).map fun e =>
        { oid := e.oid, rule := .requireSince, status := e.status } := by
  induction entries generalizing k
  case nil => simp
  case cons e entries ih =>
    rw [List.zipIdx_cons, List.filterMap_cons, ih]
    by_cases hn : n ≤ k
    case pos =>
      have hz : n - k = 0 := by omega
      have hz' : n - (k + 1) = 0 := by omega
      by_cases hc : e.status ∈ COVERED_STATUSES <;> simp [failureAt, hc, hp, hn, hz, hz']
    case neg =>
      have hs : n - k = n - (k + 1) + 1 := by omega
      simp [failureAt, hp, hn, hs]

theorem filterMap_failureAt_none (hp : policy.requireAll = false) (entries : List CommitEntry) (k : ℕ) :
    (entries.zipIdx k).filterMap (fun e => failureAt policy none e.fst e.snd) = [] := by
  simp [failureAt, hp]

theorem drop_idxOf (oid : JsString) (commits : List JsString) :
    commits.drop (commits.idxOf oid) = commits.dropWhile (· ≠ oid) := by
  induction commits
  case nil => rfl
  case cons o commits ih =>
    by_cases h : o = oid
    case pos => simp [h]
    case neg => simpa [List.idxOf_cons_ne _ h, h] using ih

-- The failures are the required commits which are not covered, in their order.
theorem failures_reportOf : (reportOf commits kept policy).verdict.failures =
    ((policy.required id commits).filter (statusOf kept · ∉ COVERED_STATUSES)).map fun oid =>
      { oid, rule := policy.rule, status := statusOf kept oid } := by
  simp only [reportOf]
  cases hp : policy.requireAll
  case true =>
    rw [filterMap_failureAt_all hp]
    simp only [Policy.required, Policy.rule, hp, List.filter_map, List.map_map, if_true]
    rfl
  case false =>
    cases hs : policy.requireSince
    case none => simp [filterMap_failureAt_none hp, Policy.required, hp, hs]
    case some oid =>
      rw [Option.map_some, filterMap_failureAt_since hp, Nat.sub_zero, ← List.map_drop, drop_idxOf]
      simp only [Policy.required, Policy.rule, hp, hs, List.filter_map, List.map_map]
      rfl

theorem pass_reportOf : (reportOf commits kept policy).verdict.pass = true ↔
    ∀ oid ∈ policy.required id commits, statusOf kept oid ∈ COVERED_STATUSES := by
  have hp : (reportOf commits kept policy).verdict.pass =
    decide ((reportOf commits kept policy).verdict.failures.length = 0) := rfl
  rw [hp, failures_reportOf]
  simp

theorem required_sublist : (policy.required id commits).Sublist commits := by
  rw [Policy.required]
  split_ifs
  · exact List.Sublist.refl _
  · cases policy.requireSince
    · exact List.nil_sublist _
    · exact List.dropWhile_sublist _

theorem required_map {oidOf : β → JsString} {f : α → β} {l : List α} :
    policy.required oidOf (l.map f) = (policy.required (oidOf ∘ f) l).map f := by
  rw [Policy.required, Policy.required]
  split_ifs
  case pos => rfl
  case neg =>
    cases policy.requireSince
    case none => rfl
    case some oid => exact List.dropWhile_map

-- The same for the entries of the report
theorem failures_eq : (reportOf commits kept policy).verdict.failures =
    ((policy.required CommitEntry.oid (reportOf commits kept policy).commits).filter
      (·.status ∉ COVERED_STATUSES)).map fun e => { oid := e.oid, rule := policy.rule, status := e.status } := by
  rw [failures_reportOf]
  simp only [reportOf, required_map, List.filter_map, List.map_map]
  rfl

theorem totals_reportOf :
    (reportOf commits kept policy).totals = (commits.map (statusOf kept)).foldl Totals.count { } := by
  simp [reportOf, List.foldl_map, commitEntry, statusOf]

-- What the statuses decide
theorem reportOf_congr (h : ∀ oid ∈ commits, statusOf kept oid = statusOf kept' oid) :
    (reportOf commits kept policy).totals = (reportOf commits kept' policy).totals ∧
      (reportOf commits kept policy).verdict.failures = (reportOf commits kept' policy).verdict.failures ∧
      (reportOf commits kept policy).commits.map (fun e => (e.oid, e.status)) =
        (reportOf commits kept' policy).commits.map fun e => (e.oid, e.status) := by
  refine ⟨?_, ?_, ?_⟩
  · rw [totals_reportOf, totals_reportOf, List.map_congr_left h]
  · rw [failures_reportOf, failures_reportOf]
    have hr : ∀ oid ∈ policy.required id commits, statusOf kept oid = statusOf kept' oid :=
      fun oid ho => h oid <| required_sublist.subset ho
    rw [List.filter_congr fun oid ho => by rw [hr oid ho]]
    exact List.map_congr_left fun oid ho => by rw [hr oid (List.mem_filter.mp ho).left]
  · simp only [reportOf, List.map_map]
    exact List.map_congr_left fun oid ho => congrArg (Prod.mk oid) <| h oid ho

theorem Totals.sum_count (t : Totals) (s : Status) : (t.count s).sum = t.sum + 1 := by
  cases s <;> simp only [Totals.count, Totals.sum] <;> omega

theorem Totals.sum_foldl (t : Totals) (ss : List Status) : (ss.foldl count t).sum = t.sum + ss.length := by
  induction ss generalizing t
  case nil => rfl
  case cons s ss ih => rw [List.foldl_cons, ih, sum_count, List.length_cons, add_assoc, add_comm 1]

-- The number which a summary gives for the covered commits
def Totals.covered (t : Totals) : ℕ :=
  t.coveredVerified + t.coveredOidOnly

theorem Totals.covered_foldl (t : Totals) (ss : List Status) :
    (ss.foldl count t).covered = t.covered + ss.countP (· ∈ COVERED_STATUSES) := by
  induction ss generalizing t
  case nil => rfl
  case cons s ss ih =>
    rw [List.foldl_cons, ih, List.countP_cons]
    cases s <;> simp [Totals.count, Totals.covered, COVERED_STATUSES] <;> omega

theorem covered_totals : (reportOf commits kept policy).totals.covered =
    (commits.map (statusOf kept)).countP (· ∈ COVERED_STATUSES) := by
  rw [totals_reportOf, Totals.covered_foldl]
  exact Nat.zero_add _

theorem covered_totals_le : (reportOf commits kept policy).totals.covered ≤ commits.length := by
  rw [covered_totals, ← List.length_map (statusOf kept)]
  exact List.countP_le_length

theorem covered_eq_length_iff : (reportOf commits kept policy).totals.covered = commits.length ↔
    ∀ oid ∈ commits, (reportOf commits kept policy).Covered oid := by
  rw [covered_totals, ← List.length_map (statusOf kept), List.countP_eq_length]
  simp only [covered_reportOf, List.forall_mem_map, decide_eq_true_eq]
  exact forall₂_congr fun oid ho => (and_iff_right ho).symm

end

-- A quotient below the whole stays below it when it is rounded.
theorem percent_eq_iff {covered total : ℕ} (hc : covered ≤ total) (ht : total ≤ MAX_COMMITS) :
    percent covered total = 100 ↔ covered = total := by
  rw [percent]
  split_ifs with hz
  · simp only [true_iff]
    omega
  · have hp : (0 : ℚ) < total := by exact_mod_cast Nat.pos_of_ne_zero hz
    constructor
    case mp =>
      intro h
      by_contra hne
      have hl : (covered : ℚ) + 1 ≤ total := by exact_mod_cast hc.lt_of_ne hne
      have hm : (total : ℚ) ≤ 100000 := by exact_mod_cast ht
      have hq : (covered * 100 / total : ℚ) ≤ 102399 / 1024 := by
        rw [div_le_iff₀ hp]
        linarith
      have hd : Double.IsDouble (102399 / 1024) := ⟨102399, -10, by norm_num, by norm_num, by norm_num, by norm_num⟩
      have ⟨r, hr, hle⟩ := Double.round_le hd (by positivity) hq
      rw [hr, Option.getD_some, Int.floor_eq_iff] at h
      norm_num at h
      linarith
    case mpr =>
      rintro rfl
      have hq : (covered * 100 / covered : ℚ) = (100 : ℕ) := by
        rw [mul_div_cancel_left₀ _ hp.ne']
        norm_num
      rw [hq, Double.round_eq <| Double.isDouble_natCast <| by norm_num]
      norm_num

-- The claims of a report, by commit
def regroup (commits : List JsString) (kept : List ClaimRow) : List ClaimRow :=
  commits.flatMap fun oid => kept.filter (·.oid = oid)

section

variable {args : Args} {r : Report} {commits : List JsString} {kept : List ClaimRow} {policy : Policy} {oid : JsString}

theorem claims_reconstructInputs :
    (reconstructInputs <| reportOf commits kept policy).claims = regroup commits kept := by
  simp only [reconstructInputs, reportOf, List.flatMap_map, regroup]
  refine List.flatMap_congr fun oid _ => ?_
  rw [commitEntry, entriesOf, List.map_map]
  conv_rhs => rw [← List.map_id (kept.filter (·.oid = oid))]
  refine List.map_congr_left fun cl hm => ?_
  obtain rfl : cl.oid = oid := by simpa using (List.mem_filter.mp hm).right
  rfl

theorem commits_reconstructInputs : (reconstructInputs <| reportOf commits kept policy).commits = commits := by
  simp [reconstructInputs, reportOf, commitEntry, Function.comp_def]

theorem mem_regroup {cl : ClaimRow} : cl ∈ regroup commits kept ↔ cl ∈ kept ∧ cl.oid ∈ commits := by
  simp only [regroup, List.mem_flatMap, List.mem_filter, decide_eq_true_eq]
  grind

theorem filter_regroup (hn : commits.Nodup) (ho : oid ∈ commits) :
    (regroup commits kept).filter (·.oid = oid) = kept.filter (·.oid = oid) := by
  induction commits
  case nil => cases ho
  case cons o commits ih =>
    have ⟨ho', hn⟩ := List.nodup_cons.mp hn
    have hc : regroup (o :: commits) kept = kept.filter (·.oid = o) ++ regroup commits kept := rfl
    rw [hc, List.filter_append]
    rcases List.mem_cons.mp ho with rfl | ho
    · have ht : (regroup commits kept).filter (·.oid = oid) = [] := by
        refine List.filter_eq_nil_iff.mpr fun cl hm he => ho' ?_
        exact (by simpa using he : cl.oid = oid) ▸ (mem_regroup.mp hm).right
      rw [ht, List.append_nil, List.filter_filter]
      simp
    · have hh : (kept.filter (·.oid = o)).filter (·.oid = oid) = [] := by
        refine List.filter_eq_nil_iff.mpr fun cl hm he => ho' ?_
        have he' : cl.oid = o := by simpa using (List.mem_filter.mp hm).right
        exact he' ▸ (by simpa using he : cl.oid = oid) ▸ ho
      rw [hh, List.nil_append, ih hn ho]

theorem length_regroup_le (hn : commits.Nodup) : (regroup commits kept).length ≤ kept.length := by
  induction commits generalizing kept
  case nil => simp [regroup]
  case cons o commits ih =>
    have ⟨ho, hn⟩ := List.nodup_cons.mp hn
    have hc : regroup (o :: commits) kept = kept.filter (·.oid = o) ++ regroup commits kept := rfl
    have hr : regroup commits kept = regroup commits (kept.filter (·.oid ≠ o)) := by
      refine List.flatMap_congr fun c hc => ?_
      rw [List.filter_filter]
      refine List.filter_congr fun cl _ => ?_
      have hne : c ≠ o := fun h => ho <| h ▸ hc
      grind
    have hl : (regroup commits (kept.filter (·.oid ≠ o))).length ≤ (kept.filter (·.oid ≠ o)).length := ih hn
    have hp := List.length_eq_length_filter_add (l := kept) (·.oid = o)
    rw [hc, hr, List.length_append]
    simp only [decide_not] at hl hp ⊢
    omega

theorem checkPolicy_of_ok {p : PolicyInput} (h : checkPolicy commits p = .ok policy) :
    policy.requireSince.all isOid ∧ checkPolicy commits {
      requireAll   := if policy.requireAll then some true else none
      requireSince := policy.requireSince
    } = .ok policy := by
  cases hs : p.requireSince
  case none =>
    simp only [checkPolicy, hs, Except.ok.injEq] at h
    subst h
    refine ⟨rfl, ?_⟩
    by_cases ha : p.requireAll = some true <;> simp [checkPolicy, ha]
  case some oid =>
    simp only [checkPolicy, hs] at h
    split_ifs at h with ho hm
    obtain rfl := Except.ok.inj h
    refine ⟨ho, ?_⟩
    by_cases ha : p.requireAll = some true <;> simp [checkPolicy, ho, hm, ha]

-- The report of an evaluation passes its own check, and the facts which it embeds give it again.
theorem evaluateCoverage_reconstructInputs (h : evaluateCoverage args = .ok r) :
    evaluateCoverage (reconstructInputs r) = .ok r := by
  obtain ⟨policy, a, rfl⟩ := evaluateCoverage_eq_ok.mp h
  set kept := args.claims.filter (·.oid ∈ args.commits) with hk
  have hc := @claims_reconstructInputs args.commits kept policy
  have ho := @commits_reconstructInputs args.commits kept policy
  have hv : ∀ cl ∈ regroup args.commits kept, cl.Valid := by
    intro cl hm
    exact a.claims cl (List.mem_filter.mp (mem_regroup.mp hm).left).left
  have hl : (regroup args.commits kept).length ≤ MAX_CLAIMS :=
    (length_regroup_le a.nodup).trans <| (List.length_filter_le ..).trans a.claims_le
  have a' : Accepted (reconstructInputs <| reportOf args.commits kept policy) policy := {
    commits_le := by rw [ho]; exact a.commits_le
    oids       := by rw [ho]; exact a.oids
    nodup      := by rw [ho]; exact a.nodup
    claims_le  := by rw [hc]; exact hl
    claims     := by rw [hc]; exact hv
    policy     := by rw [ho]; exact (checkPolicy_of_ok a.policy).right
  }
  refine evaluateCoverage_eq_ok.mpr ⟨policy, a', ?_⟩
  have hr : (regroup args.commits kept).filter (·.oid ∈ args.commits) = regroup args.commits kept :=
    List.filter_eq_self.mpr fun cl hm => by simpa using (mem_regroup.mp hm).right
  have he : args.commits.map (commitEntry <| regroup args.commits kept) = args.commits.map (commitEntry kept) := by
    refine List.map_congr_left fun oid hm => ?_
    simp only [commitEntry, entriesOf, filter_regroup a.nodup hm]
  rw [hc, ho, hr]
  simp only [reportOf, he]

theorem validateReportShape_of_ok (h : evaluateCoverage args = .ok r) : validateReportShape r = .ok () := by
  obtain ⟨policy, a, rfl⟩ := evaluateCoverage_eq_ok.mp h
  set kept := args.claims.filter (·.oid ∈ args.commits) with hk
  have hc : ¬ (reportOf args.commits kept policy).commits.length > MAX_COMMITS := by
    have hl : (reportOf args.commits kept policy).commits.length = args.commits.length := List.length_map _
    rw [hl]
    exact not_lt.mpr a.commits_le
  have ho : (reportOf args.commits kept policy).commits.all (isOid ·.oid) = true := by
    simp only [reportOf, List.all_map, List.all_eq_true]
    exact a.oids
  have hs : ¬ ((reportOf args.commits kept policy).commits.map (·.claims.length)).sum > MAX_CLAIMS := by
    have hl : ((reportOf args.commits kept policy).commits.map (·.claims.length)).sum =
        (regroup args.commits kept).length := by
      simp [reportOf, commitEntry, entriesOf, regroup, List.length_flatMap, Function.comp_def]
    rw [hl]
    exact not_lt.mpr <| (length_regroup_le a.nodup).trans <| (List.length_filter_le ..).trans a.claims_le
  have hv : (((reportOf args.commits kept policy).commits.flatMap (·.claims)).findSome? fun cl =>
      validateClaimFacts cl.gitRoot cl.packetLabel) = none := by
    refine List.findSome?_eq_none_iff.mpr fun ce hm => ?_
    obtain ⟨e, he, hm⟩ := List.mem_flatMap.mp hm
    obtain ⟨oid, _, rfl⟩ := List.mem_map.mp he
    obtain ⟨cl, hk, _, rfl⟩ := mem_entriesOf.mp hm
    exact (a.claims cl (List.mem_filter.mp hk).left).right
  have hp : (reportOf args.commits kept policy).policy.requireSince.all isOid = true := (checkPolicy_of_ok a.policy).left
  have hf : ¬ (reportOf args.commits kept policy).verdict.failures.length > MAX_COMMITS := by
    rw [failures_reportOf, List.length_map]
    exact not_lt.mpr <| (List.length_filter_le ..).trans <| required_sublist.length_le.trans a.commits_le
  have hi : (reportOf args.commits kept policy).verdict.failures.all (isOid ·.oid) = true := by
    rw [failures_reportOf, List.all_map, List.all_eq_true]
    exact fun oid hm => a.oids oid <| required_sublist.subset (List.mem_filter.mp hm).left
  rw [validateReportShape]
  simp [hc, ho, hs, hv, hp, hf, hi]

-- A report of an evaluation is summarized unless its text is too long.
theorem summarizeCoverage_of_ok (h : evaluateCoverage args = .ok r) (hl : (canon r).length ≤ MAX_REPORT_LENGTH) :
    ∃ s, summarizeCoverage r = .ok s := by
  have hs : serializeCoverageReport r = .ok (canon r) := by
    rw [serializeCoverageReport, validateReportShape_of_ok h, Fallible.ok_bind, evaluateCoverage_reconstructInputs h]
    simp [not_lt.mpr hl]
  rw [summarizeCoverage, hs]
  exact ⟨_, rfl⟩

end

section

variable {args : Args} {r r' : Report} {claims : List ClaimRow}

-- Covers which are kept keep what is covered, and the verdict.
theorem covered_mono (h : evaluateCoverage args = .ok r) (h' : evaluateCoverage { args with claims } = .ok r')
    (hc : ∀ cl ∈ args.claims, cl.Covers → cl ∈ claims) :
    (∀ oid, r.Covered oid → r'.Covered oid) ∧ (r.verdict.pass = true → r'.verdict.pass = true) := by
  obtain ⟨policy, a, rfl⟩ := evaluateCoverage_eq_ok.mp h
  obtain ⟨policy', a', rfl⟩ := evaluateCoverage_eq_ok.mp h'
  obtain rfl : policy = policy' := Except.ok.inj <| a.policy.symm.trans a'.policy
  have hm : ∀ oid, (reportOf args.commits (args.claims.filter (·.oid ∈ args.commits)) policy).Covered oid →
      (reportOf args.commits (claims.filter (·.oid ∈ args.commits)) policy).Covered oid := by
    intro oid ho
    have ⟨ho, cl, hm, he, hv⟩ := covered_filter.mp ho
    exact covered_filter.mpr ⟨ho, cl, hc cl hm hv, he, hv⟩
  refine ⟨hm, fun hp => pass_reportOf.mpr fun oid ho => ?_⟩
  have hs := pass_reportOf.mp hp oid ho
  exact (covered_reportOf.mp <| hm oid <| covered_reportOf.mpr ⟨required_sublist.subset ho, hs⟩).right

theorem evaluateCoverage_perm (h : evaluateCoverage args = .ok r) (hp : args.claims.Perm claims) :
    ∃ r', evaluateCoverage { args with claims } = .ok r' ∧ r'.totals = r.totals ∧ r'.verdict = r.verdict ∧
      r'.commits.map (fun e => (e.oid, e.status)) = r.commits.map fun e => (e.oid, e.status) := by
  obtain ⟨policy, a, rfl⟩ := evaluateCoverage_eq_ok.mp h
  have a' : Accepted { args with claims } policy := {
    commits_le := a.commits_le
    oids       := a.oids
    nodup      := a.nodup
    claims_le  := hp.length_eq ▸ a.claims_le
    claims     := fun cl hm => a.claims cl <| hp.mem_iff.mpr hm
    policy     := a.policy
  }
  have hs : ∀ oid ∈ args.commits, statusOf (claims.filter (·.oid ∈ args.commits)) oid =
      statusOf (args.claims.filter (·.oid ∈ args.commits)) oid := by
    intro oid _
    apply commitStatus_congr
    intro ce
    simp only [mem_entriesOf, List.mem_filter, hp.mem_iff]
  have ⟨ht, hf, hc⟩ := @reportOf_congr args.commits _ _ policy hs
  refine ⟨_, evaluateCoverage_eq_ok.mpr ⟨policy, a', rfl⟩, ht, ?_, hc⟩
  simp only [reportOf] at hf ⊢
  rw [hf]

theorem coveragePercent_eq {s : Summary} (hs : summarizeCoverage r = .ok s) :
    s.coveragePercent = percent r.totals.covered r.commits.length := by
  have ⟨_, _, h⟩ := Fallible.bind_eq_ok.mp hs
  rw [← Fallible.pure_eq_ok.mp h]
  rfl

-- Claims which are added lose no covered commit and no passed verdict. Claims of unverified packets decide nothing,
-- and neither does the order of the claims. The totals and the failures account for all commits.
theorem evaluateCoverage_accounts (h : evaluateCoverage args = .ok r) :
    (∀ claims r', args.claims ⊆ claims → evaluateCoverage { args with claims } = .ok r' →
      (∀ oid, r.Covered oid → r'.Covered oid) ∧ (r.verdict.pass = true → r'.verdict.pass = true)) ∧
    (∀ claims r', (∀ cl : ClaimRow, cl.packetVerified = true → (cl ∈ args.claims ↔ cl ∈ claims)) →
      evaluateCoverage { args with claims } = .ok r' →
      (∀ oid, r.Covered oid ↔ r'.Covered oid) ∧ r.verdict.pass = r'.verdict.pass) ∧
    (∀ claims, args.claims.Perm claims → ∃ r', evaluateCoverage { args with claims } = .ok r' ∧
      r'.totals = r.totals ∧ r'.verdict = r.verdict ∧
      r'.commits.map (fun e => (e.oid, e.status)) = r.commits.map fun e => (e.oid, e.status)) ∧
    (r.commits.map (·.oid) = args.commits ∧ r.totals.sum = args.commits.length) ∧
    (r.verdict.failures = ((r.policy.required CommitEntry.oid r.commits).filter (·.status ∉ COVERED_STATUSES)).map
        (fun e => { oid := e.oid, rule := r.policy.rule, status := e.status }) ∧
      (r.verdict.pass = true ↔ r.verdict.failures = [])) ∧
    ((canon r).length ≤ MAX_REPORT_LENGTH → ∃ s, summarizeCoverage r = .ok s) ∧
    ∀ s, summarizeCoverage r = .ok s → (s.coveragePercent = 100 ↔ ∀ oid ∈ args.commits, r.Covered oid) := by
  refine ⟨?_, ?_, fun claims hp => evaluateCoverage_perm h hp, ?_⟩
  · intro claims r' hs h'
    exact covered_mono h h' fun cl hm _ => hs hm
  · intro claims r' hv h'
    have hm := covered_mono h h' fun cl hm hc => (hv cl hc.packetVerified).mp hm
    have h : evaluateCoverage { { args with claims } with claims := args.claims } = .ok r := h
    have hm' := covered_mono h' h fun cl hm hc => (hv cl hc.packetVerified).mpr hm
    exact ⟨fun oid => ⟨hm.left oid, hm'.left oid⟩, Bool.eq_iff_iff.mpr ⟨hm.right, hm'.right⟩⟩
  · have hs := summarizeCoverage_of_ok h
    obtain ⟨policy, a, rfl⟩ := evaluateCoverage_eq_ok.mp h
    have ho : ((reportOf args.commits (args.claims.filter (·.oid ∈ args.commits)) policy).commits.map (·.oid)) =
        args.commits := by
      simp [reportOf, commitEntry, Function.comp_def]
    refine ⟨⟨ho, ?_⟩, ⟨failures_eq, by simp [reportOf]⟩, hs, ?_⟩
    · rw [totals_reportOf, Totals.sum_foldl, List.length_map]
      exact Nat.zero_add _
    · intro s hs
      have hl : (reportOf args.commits (args.claims.filter (·.oid ∈ args.commits)) policy).commits.length =
          args.commits.length := List.length_map _
      rw [coveragePercent_eq hs, hl, ← covered_eq_length_iff, percent_eq_iff covered_totals_le a.commits_le]

end

-- Two commits, the second of which is not covered
def halfCovered : Args where
  commits := [List.replicate 40 97, List.replicate 40 98]
  claims  := [{
      oid            := List.replicate 40 97
      gitRoot        := js "0x" ++ List.replicate 64 48
      packetLabel    := js "packet"
      packetVerified := true
      rootVerified   := none
    }]

theorem evaluateCoverage_accounts_halfCovered : ∃ r, evaluateCoverage halfCovered = .ok r ∧
    r.commits.map (·.oid) = halfCovered.commits ∧ r.totals.sum = 2 := by
  have h : evaluateCoverage halfCovered = .ok (reportOf halfCovered.commits halfCovered.claims ⟨false, none⟩) := by
    decide +kernel
  exact ⟨_, h, (evaluateCoverage_accounts h).right.right.right.left⟩

end Coverage
