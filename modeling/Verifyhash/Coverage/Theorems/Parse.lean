import Verifyhash.Coverage.Parse
import Verifyhash.Coverage.Theorems.Report
import Verifyhash.Data.Json.Equivalence
import Verifyhash.Session.Theorems.Packet

-- The texts which are read as reports.
namespace Coverage

open Json Value Fallible AgentSession

section

variable {fs : List (JsString × Value)} {fields : List String} {path : JsString} {v : Value}

theorem get_sorted (key : String) : (tidy sortedOrder v).get key = tidy sortedOrder (v.get key) :=
  get_tidy sortedOrder_perm key

theorem noUnknown_sorted (h : ∀ k ∈ fs.map Prod.fst, k ∈ fields.map js) :
    noUnknown fields path (tidy sortedOrder <| .object fs) = .ok () := by
  have hn : (ownKeys (tidy sortedOrder <| .object fs)).find? (· ∉ fields.map js) = none := by
    refine List.find?_eq_none.mpr fun k hk => ?_
    rw [decide_eq_true_eq, not_not]
    exact subset_keys h k <| ownKeys_tidy sortedOrder_perm hk
  rw [noUnknown, hn]

theorem noMissing_sorted (h : ∀ k ∈ fields, v.get k ≠ .undefined) :
    noMissing fields path (tidy sortedOrder v) = .ok () := by
  have hn : fields.find? (¬ (tidy sortedOrder v).has ·) = none := by
    refine List.find?_eq_none.mpr fun k hk => ?_
    rw [decide_eq_true_eq, not_not]
    exact (has_tidy sortedOrder_perm k).mpr <| h k hk
  rw [noMissing, hn]

theorem exactFields_sorted (keys : List String) (hk : fs.map Prod.fst = keys.map js) (hp : keys.Perm fields)
    (hv : ∀ f ∈ fs, f.snd ≠ .undefined) : exactFields fields path (tidy sortedOrder <| .object fs) = .ok () := by
  have hu : ∀ k ∈ fs.map Prod.fst, k ∈ fields.map js := fun k h => (hp.map js).mem_iff.mp <| hk ▸ h
  have hm : ∀ k ∈ fields, (Value.object fs).get k ≠ .undefined := by
    intro k h
    rw [Value.get]
    cases hl : fs.lookup (js k)
    case none =>
      obtain ⟨f, hf, he⟩ := List.mem_map.mp (hk ▸ List.mem_map_of_mem (hp.mem_iff.mpr h) : js k ∈ fs.map Prod.fst)
      exact absurd (he ▸ List.lookup_eq_none_iff.mp hl f hf) <| by simp
    case some v => exact hv _ <| Fields.mem_of_lookup hl
  rw [exactFields, noUnknown_sorted hu, ok_bind, noMissing_sorted hm]

theorem isObject_sorted : (tidy sortedOrder <| .object fs).isObject = true := rfl

end

section

variable {path : JsString} {i : ℕ}

theorem readEach_map {f : α → Value} {l : List α} (read : JsString → Value → Except Refusal α) (path : JsString)
    (h : ∀ a ∈ l, ∀ path, read path (f a) = .ok a) : readEach read path i (l.map f) = .ok l := by
  induction l generalizing i
  case nil => rfl
  case cons a l ih =>
    have ⟨ha, h⟩ := List.forall_mem_cons.mp h
    rw [List.map_cons, readEach, ha, ok_bind, ih h]
    rfl

theorem readText_status (s : Status) : readText Status.text COMMIT_STATUSES (.string s.text) = some s := by
  cases s <;> decide

theorem readText_claimStatus (h : s ∈ CLAIM_STATUSES) : readText Status.text CLAIM_STATUSES (.string s.text) = some s := by
  cases s <;> first | decide | exact absurd h <| by decide

theorem readText_rule (rule : Rule) : readText Rule.text POLICY_RULES (.string rule.text) = some rule := by
  cases rule <;> decide

theorem tidy_string (s : JsString) : tidy sortedOrder (.string s) = .string s := rfl

theorem readOid_string (h : isOid s) : readOid (.string s) = some s := by
  rw [readOid, toString?, Option.filter_some, if_pos h]

-- A claim of a report, as it is checked.
structure ClaimEntry.Valid (ce : ClaimEntry) : Prop where
  gitRoot     : isGitRoot ce.gitRoot
  packetLabel : isValidPacketLabel ce.packetLabel
  status      : ce.status ∈ CLAIM_STATUSES

theorem readClaim_toValue {ce : ClaimEntry} (h : ce.Valid) : readClaim path (tidy sortedOrder ce.toValue) = .ok ce := by
  have hx : exactFields REPORT_CLAIM_FIELDS (path ++ js ".") (tidy sortedOrder ce.toValue) = .ok () := by
    refine exactFields_sorted REPORT_CLAIM_FIELDS rfl (.refl _) ?_
    cases hr : ce.rootVerified <;> simp
  have hg : (tidy sortedOrder ce.toValue).get "gitRoot" = .string ce.gitRoot := get_sorted _
  have hl : (tidy sortedOrder ce.toValue).get "packetLabel" = .string ce.packetLabel := get_sorted _
  have hv : (tidy sortedOrder ce.toValue).get "packetVerified" = .bool ce.packetVerified := get_sorted _
  have hr : (tidy sortedOrder ce.toValue).get "rootVerified" = ce.rootVerified.elim .null .bool := by
    refine (get_sorted _).trans ?_
    change tidy sortedOrder (ce.rootVerified.elim .null .bool) = _
    cases ce.rootVerified <;> rfl
  have hs : (tidy sortedOrder ce.toValue).get "status" = .string ce.status.text := get_sorted _
  rw [readClaim, hx, hg, hl, hv, hr, hs, readText_claimStatus h.status]
  have hn : nullOr toBool? (ce.rootVerified.elim .null .bool) = some ce.rootVerified := by
    cases ce.rootVerified <;> rfl
  simp only [toString?, toBool?, Option.filter_some, h.gitRoot, h.packetLabel, if_true, hn, demand, ok_bind]
  rfl

-- A commit of a report, as it is checked.
structure CommitEntry.Valid (e : CommitEntry) : Prop where
  oid    : isOid e.oid
  claims : ∀ ce ∈ e.claims, ce.Valid

theorem get_claims {e : CommitEntry} : (tidy sortedOrder e.toValue).get "claims" =
    .array (e.claims.map fun ce => tidy sortedOrder ce.toValue) := by
  refine (get_sorted _).trans ?_
  change tidy sortedOrder (.array <| e.claims.map ClaimEntry.toValue) = _
  rw [tidy, tidyElems_eq, List.map_map]
  rfl

theorem readCommit_toValue {e : CommitEntry} (h : e.Valid) (hc : count + e.claims.length ≤ MAX_CLAIMS) :
    readCommit count path (tidy sortedOrder e.toValue) = .ok e := by
  have hx : exactFields REPORT_COMMIT_FIELDS (path ++ js ".") (tidy sortedOrder e.toValue) = .ok () :=
    exactFields_sorted ["oid", "status", "claims"] rfl (by decide) (by simp)
  have ho : (tidy sortedOrder e.toValue).get "oid" = .string e.oid := get_sorted _
  have hs : (tidy sortedOrder e.toValue).get "status" = .string e.status.text := get_sorted _
  have hl : ¬ count + (e.claims.map fun ce => tidy sortedOrder ce.toValue).length > MAX_CLAIMS := by
    rw [List.length_map]
    exact not_lt.mpr hc
  have hr : readEach readClaim (path ++ js ".claims") 0 (e.claims.map fun ce => tidy sortedOrder ce.toValue) = .ok e.claims :=
    readEach_map readClaim _ fun ce hm path => readClaim_toValue <| h.claims ce hm
  rw [readCommit, hx, ho, hs, get_claims, readOid_string h.oid, readText_status, elemsOf?]
  simp only [CommitEntry.toValue, isObject_sorted, not_true, if_false, demand, ok_bind, hl, hr]
  rfl

theorem readCommits_map {es : List CommitEntry} (h : ∀ e ∈ es, e.Valid)
    (hc : count + (es.map (·.claims.length)).sum ≤ MAX_CLAIMS) :
    readCommits i count (es.map fun e => tidy sortedOrder e.toValue) = .ok es := by
  induction es generalizing i count
  case nil => rfl
  case cons e es ih =>
    have ⟨he, h⟩ := List.forall_mem_cons.mp h
    rw [List.map_cons, List.sum_cons] at hc
    rw [List.map_cons, readCommits, readCommit_toValue he (by omega), ok_bind, ih h (by omega)]
    rfl

theorem readFailure_toValue {f : Failure} (h : isOid f.oid) : readFailure path (tidy sortedOrder f.toValue) = .ok f := by
  have hx : exactFields REPORT_FAILURE_FIELDS (path ++ js ".") (tidy sortedOrder f.toValue) = .ok () :=
    exactFields_sorted REPORT_FAILURE_FIELDS rfl (.refl _) (by simp)
  have ho : (tidy sortedOrder f.toValue).get "oid" = .string f.oid := get_sorted _
  have hr : (tidy sortedOrder f.toValue).get "rule" = .string f.rule.text := get_sorted _
  have hs : (tidy sortedOrder f.toValue).get "status" = .string f.status.text := get_sorted _
  rw [readFailure, hx, ho, hr, hs, readOid_string h, readText_rule, readText_status]
  simp only [Failure.toValue, isObject_sorted, not_true, if_false, demand, ok_bind]
  rfl

end

section

-- The parts of a report as values.
def Policy.toValue (p : Policy) : Value :=
  .object [
    (js "requireAll", .bool p.requireAll),
    (js "requireSince", p.requireSince.elim .null .string)
  ]

def Totals.toValue (t : Totals) : Value :=
  .object [
    (js "claim-root-mismatch", nat t.claimRootMismatch),
    (js "claim-unverified-packet", nat t.claimUnverifiedPacket),
    (js "covered-oid-only", nat t.coveredOidOnly),
    (js "covered-verified", nat t.coveredVerified),
    (js "uncovered", nat t.uncovered)
  ]

def Verdict.toValue (v : Verdict) : Value :=
  .object [
    (js "pass", .bool v.pass),
    (js "failures", .array <| v.failures.map Failure.toValue)
  ]

theorem readPolicy_toValue {p : Policy} (h : ∀ oid ∈ p.requireSince, isOid oid) :
    readPolicy (tidy sortedOrder p.toValue) = .ok p := by
  have hx : exactFields POLICY_FIELDS (js "policy.") (tidy sortedOrder p.toValue) = .ok () := by
    refine exactFields_sorted POLICY_FIELDS rfl (.refl _) ?_
    cases hr : p.requireSince <;> simp
  have ha : (tidy sortedOrder p.toValue).get "requireAll" = .bool p.requireAll := get_sorted _
  have hs : (tidy sortedOrder p.toValue).get "requireSince" = p.requireSince.elim .null .string := by
    refine (get_sorted _).trans ?_
    change tidy sortedOrder (p.requireSince.elim .null .string) = _
    cases p.requireSince <;> rfl
  have hn : nullOr readOid (p.requireSince.elim .null .string) = some p.requireSince := by
    cases hp : p.requireSince
    case none => rfl
    case some oid =>
      have ho : readOid (.string oid) = some oid := readOid_string <| h oid hp
      rw [nullOr, Option.elim_some, ho]
      rfl
  rw [readPolicy, hx, ha, hs, hn]
  simp only [Policy.toValue, isObject_sorted, not_true, if_false, demand, ok_bind, toBool?]
  rfl

theorem readCount_nat {n : ℕ} (h : n ≤ MAX_COMMITS) : readCount (nat n) = some n := by
  have hb : 0 ≤ (n : ℤ) ∧ (n : ℤ) ≤ (MAX_SAFE_INTEGER : ℤ) := by
    rw [MAX_COMMITS] at h
    rw [MAX_SAFE_INTEGER]
    omega
  rw [readCount, toInt?_nat, Option.filter_some, if_pos (decide_eq_true hb)]
  rfl

theorem readTotals_toValue {t : Totals} (h : t.sum ≤ MAX_COMMITS) : readTotals (tidy sortedOrder t.toValue) = .ok t := by
  rw [Totals.sum] at h
  have hx : noUnknown TOTALS_FIELDS (js "totals.") (tidy sortedOrder t.toValue) = .ok () := noUnknown_sorted fun k hk => hk
  have hr (key : String) (n : ℕ) (hk : t.toValue.get key = nat n) (hn : n ≤ MAX_COMMITS) :
      readTotal (tidy sortedOrder t.toValue) key = .ok n := by
    have hm : noMissing [key] (js "totals.") (tidy sortedOrder t.toValue) = .ok () := noMissing_sorted fun k hm => by
      obtain rfl := List.mem_singleton.mp hm
      rw [hk]
      exact fun h => by cases h
    have hg : (tidy sortedOrder t.toValue).get key = nat n := by
      rw [get_sorted, hk]
      rfl
    rw [readTotal, hm, ok_bind, hg, readCount_nat hn]
    rfl
  rw [readTotals, hx, hr "claim-root-mismatch" t.claimRootMismatch rfl (by omega),
    hr "claim-unverified-packet" t.claimUnverifiedPacket rfl (by omega), hr "covered-oid-only" t.coveredOidOnly rfl (by omega),
    hr "covered-verified" t.coveredVerified rfl (by omega), hr "uncovered" t.uncovered rfl (by omega)]
  simp only [Totals.toValue, isObject_sorted, not_true, if_false, ok_bind]
  rfl

theorem readVerdict_toValue {v : Verdict} (h : ∀ f ∈ v.failures, isOid f.oid) (hl : v.failures.length ≤ MAX_COMMITS) :
    readVerdict (tidy sortedOrder v.toValue) = .ok v := by
  have hx : exactFields REPORT_VERDICT_FIELDS (js "verdict.") (tidy sortedOrder v.toValue) = .ok () :=
    exactFields_sorted ["pass", "failures"] rfl (by decide) (by simp)
  have hp : (tidy sortedOrder v.toValue).get "pass" = .bool v.pass := get_sorted _
  have hf : (tidy sortedOrder v.toValue).get "failures" = .array (v.failures.map fun f => tidy sortedOrder f.toValue) := by
    refine (get_sorted _).trans ?_
    change tidy sortedOrder (.array <| v.failures.map Failure.toValue) = _
    rw [tidy, tidyElems_eq, List.map_map]
    rfl
  have hr : readEach readFailure (js "verdict.failures") 0 (v.failures.map fun f => tidy sortedOrder f.toValue) =
      .ok v.failures :=
    readEach_map readFailure _ fun f hm path => readFailure_toValue <| h f hm
  have hle : (v.failures.map fun f => tidy sortedOrder f.toValue).length ≤ MAX_COMMITS := by rwa [List.length_map]
  rw [readVerdict, hx, hp, hf, elemsOf?, Option.filter_some, if_pos (decide_eq_true hle)]
  simp only [Verdict.toValue, isObject_sorted, not_true, if_false, demand, ok_bind, toBool?, hr]
  rfl

end

section

variable {args : Args} {r : Report} {s : JsString} {v : Value}

-- A report, as it is checked.
structure Report.Valid (r : Report) : Prop where
  commits_le  : r.commits.length ≤ MAX_COMMITS
  commits     : ∀ e ∈ r.commits, e.Valid
  claims_le   : (r.commits.map (·.claims.length)).sum ≤ MAX_CLAIMS
  since       : ∀ oid ∈ r.policy.requireSince, isOid oid
  totals      : r.totals.sum ≤ MAX_COMMITS
  failures    : ∀ f ∈ r.verdict.failures, isOid f.oid
  failures_le : r.verdict.failures.length ≤ MAX_COMMITS

theorem readReport_toValue (h : r.Valid) : readReport (tidy sortedOrder r.toValue) = .ok r := by
  have hx : exactFields REPORT_TOP_FIELDS [] (tidy sortedOrder r.toValue) = .ok () :=
    exactFields_sorted ["kind", "commits", "policy", "totals", "verdict"] rfl (by decide) (by simp)
  have hk : (tidy sortedOrder r.toValue).get "kind" = .string REPORT_KIND := get_sorted _
  have hc : (tidy sortedOrder r.toValue).get "commits" = .array (r.commits.map fun e => tidy sortedOrder e.toValue) := by
    refine (get_sorted _).trans ?_
    change tidy sortedOrder (.array <| r.commits.map CommitEntry.toValue) = _
    rw [tidy, tidyElems_eq, List.map_map]
    rfl
  have hp : (tidy sortedOrder r.toValue).get "policy" = tidy sortedOrder r.policy.toValue := get_sorted _
  have ht : (tidy sortedOrder r.toValue).get "totals" = tidy sortedOrder r.totals.toValue := get_sorted _
  have hv : (tidy sortedOrder r.toValue).get "verdict" = tidy sortedOrder r.verdict.toValue := get_sorted _
  have hl : ¬ (r.commits.map fun e => tidy sortedOrder e.toValue).length > MAX_COMMITS := by
    rw [List.length_map]
    exact not_lt.mpr h.commits_le
  have hes : readCommits 0 0 (r.commits.map fun e => tidy sortedOrder e.toValue) = .ok r.commits :=
    readCommits_map h.commits <| by rw [Nat.zero_add]; exact h.claims_le
  rw [readReport, hx, hk, hc, hp, ht, hv, elemsOf?, readPolicy_toValue h.since, readTotals_toValue h.totals,
    readVerdict_toValue h.failures h.failures_le]
  simp only [Report.toValue, isObject_sorted, not_true, if_false, toString?, ne_eq, demand, ok_bind, hl, hes]
  rfl

theorem validateReportShape_eq_ok (h : validateReportShape r = .ok ()) :
    r.commits.length ≤ MAX_COMMITS ∧ (∀ e ∈ r.commits, isOid e.oid) ∧
      (r.commits.map (·.claims.length)).sum ≤ MAX_CLAIMS ∧ (∀ oid ∈ r.policy.requireSince, isOid oid) ∧ r.verdict.failures.length ≤ MAX_COMMITS ∧
      ∀ f ∈ r.verdict.failures, isOid f.oid := by
  rw [validateReportShape] at h
  simp only [check_eq_ok] at h
  obtain ⟨h₁, h₂, h₃, h⟩ := h
  split at h
  case h_1 => cases h
  case h_2 =>
    simp only [check_eq_ok, not_not] at h
    obtain ⟨hs, hl, h⟩ := h
    split_ifs at h with hf
    refine ⟨not_lt.mp h₁, List.all_eq_true.mp <| not_not.mp h₂, not_lt.mp h₃, fun oid ho => ?_, not_lt.mp hl,
      List.all_eq_true.mp hf⟩
    rwa [Option.mem_def.mp ho] at hs

theorem claimStatus_mem (packetVerified : Bool) (rootVerified : Option Bool) :
    claimStatus packetVerified rootVerified ∈ CLAIM_STATUSES := by
  rw [claimStatus]
  split_ifs <;> decide

theorem validateClaimFacts_eq_none {gitRoot packetLabel : JsString} (h : validateClaimFacts gitRoot packetLabel = none) :
    isGitRoot gitRoot ∧ isValidPacketLabel packetLabel := by
  rw [validateClaimFacts] at h
  split_ifs at h with hg hl
  exact ⟨hg, hl⟩

theorem valid_of_ok (h : evaluateCoverage args = .ok r) : r.Valid := by
  obtain ⟨h₁, h₂, h₃, h₄, h₅, h₆⟩ := validateReportShape_eq_ok <| validateReportShape_of_ok h
  obtain ⟨policy, a, rfl⟩ := evaluateCoverage_eq_ok.mp h
  refine ⟨h₁, fun e he => ⟨h₂ e he, fun ce hm => ?_⟩, h₃, h₄, ?_, h₆, h₅⟩
  · obtain ⟨oid, _, rfl⟩ := List.mem_map.mp he
    obtain ⟨cl, hk, _, rfl⟩ := mem_entriesOf.mp hm
    have ⟨hg, hl⟩ := validateClaimFacts_eq_none (a.claims cl (List.mem_filter.mp hk).left).right
    exact ⟨hg, hl, claimStatus_mem ..⟩
  · rw [totals_reportOf, Totals.sum_foldl, List.length_map]
    exact (Nat.zero_add _).trans_le a.commits_le

theorem strict_of_fields {fields : List (JsString × Value)} (h : ∀ f ∈ fields, Strict f.snd) : Strict (.object fields) :=
  .object fun _ _ hk => h _ <| Fields.mem_of_lookup hk

theorem strict_nat {n : ℕ} (h : n ≤ MAX_COMMITS) : Strict (nat n) :=
  .number <| Double.isDouble_natCast <| h.trans_lt <| by decide

theorem strict_toValue (h : r.Valid) : Strict r.toValue := by
  have ht := h.totals
  rw [Totals.sum] at ht
  have hc (ce : ClaimEntry) : Strict ce.toValue := by
    refine strict_of_fields fun f hf => ?_
    simp only [List.mem_cons, List.not_mem_nil, or_false] at hf
    rcases hf with rfl | rfl | rfl | rfl | rfl
    case inr.inr.inr.inl => cases ce.rootVerified <;> constructor
    all_goals constructor
  have he (e : CommitEntry) : Strict e.toValue := by
    refine strict_of_fields fun f hf => ?_
    simp only [List.mem_cons, List.not_mem_nil, or_false] at hf
    rcases hf with rfl | rfl | rfl
    case inr.inr => exact .array <| List.forall_mem_map.mpr fun ce _ => hc ce
    all_goals constructor
  have hf (f : Failure) : Strict f.toValue := by
    refine strict_of_fields fun g hg => ?_
    simp only [List.mem_cons, List.not_mem_nil, or_false] at hg
    rcases hg with rfl | rfl | rfl <;> constructor
  refine strict_of_fields fun f hm => ?_
  simp only [List.mem_cons, List.not_mem_nil, or_false] at hm
  rcases hm with rfl | rfl | rfl | rfl | rfl
  · constructor
  · exact .array <| List.forall_mem_map.mpr fun e _ => he e
  · refine strict_of_fields fun f hm => ?_
    simp only [List.mem_cons, List.not_mem_nil, or_false] at hm
    rcases hm with rfl | rfl
    · constructor
    · cases r.policy.requireSince <;> constructor
  · refine strict_of_fields fun f hm => ?_
    simp only [List.mem_cons, List.not_mem_nil, or_false] at hm
    rcases hm with rfl | rfl | rfl | rfl | rfl <;> exact strict_nat (by omega)
  · refine strict_of_fields fun f hm => ?_
    simp only [List.mem_cons, List.not_mem_nil, or_false] at hm
    rcases hm with rfl | rfl
    · constructor
    · exact .array <| List.forall_mem_map.mpr fun f _ => hf f

theorem serializeValue_eq_ok (h : serializeValue v = .ok s) :
    ∃ args r, evaluateCoverage args = .ok r ∧ (canon r).length ≤ MAX_REPORT_LENGTH ∧ canon r = s ∧ canonValue v = s := by
  rw [serializeValue] at h
  obtain ⟨r, -, h⟩ := bind_eq_ok.mp h
  cases he : evaluateCoverage (reconstructInputs r) <;> rw [he] at h
  case error => cases h
  case ok re =>
    simp only [check_eq_ok, ne_eq, not_not, not_lt, pure_eq_ok, gt_iff_lt] at h
    obtain ⟨hc, hl, rfl⟩ := h
    exact ⟨_, re, he, hl, rfl, hc⟩

-- A report passes through its text unchanged.
theorem serializeValue_toValue (h : evaluateCoverage args = .ok r) (hl : (canon r).length ≤ MAX_REPORT_LENGTH) :
    serializeValue (tidy sortedOrder r.toValue) = .ok (canon r) := by
  have hc : canonValue (tidy sortedOrder r.toValue) = canon r := by rw [canonValue, tidy_tidy sortedOrder_perm, canon]
  rw [serializeValue, readReport_toValue <| valid_of_ok h, ok_bind, evaluateCoverage_reconstructInputs h]
  simp only [hc, ne_eq, not_true, if_false, gt_iff_lt, not_lt.mpr hl]
  rfl

theorem parse_canon (h : evaluateCoverage args = .ok r) : parse (canon r) = some (tidy sortedOrder r.toValue) :=
  parse_render <| plain_tidy sortedOrder_perm <| (strict_toValue <| valid_of_ok h).serializable

-- The texts which are read as a report are those of the reports of evaluations, and what is read is that report.
theorem parseCoverageReport_eq_ok : parseCoverageReport s = .ok v ↔ ∃ args r, evaluateCoverage args = .ok r ∧
    (canon r).length ≤ MAX_REPORT_LENGTH ∧ s = canon r ∧ v = tidy sortedOrder r.toValue := by
  constructor
  case mp =>
    intro h
    rw [parseCoverageReport] at h
    obtain ⟨-, h⟩ := check_eq_ok.mp h
    cases hp : parse s <;> rw [hp] at h
    case none => cases h
    case some parsed =>
      obtain ⟨-, h⟩ := check_eq_ok.mp h
      by_cases hk : (parsed.get "kind").toString? = some REPORT_KIND
      case neg =>
        rw [if_pos hk] at h
        cases h
      case pos =>
        rw [if_neg <| not_not.mpr hk] at h
        obtain ⟨json, hj, h⟩ := bind_eq_ok.mp h
        obtain ⟨hs, h⟩ := check_eq_ok.mp h
        obtain ⟨args, r, he, hl, rfl, -⟩ := serializeValue_eq_ok hj
        rw [parse_canon he] at h
        exact ⟨args, r, he, hl, (not_not.mp hs).symm, (pure_eq_ok.mp h).symm⟩
  case mpr =>
    rintro ⟨args, r, h, hl, rfl, rfl⟩
    have hk : (tidy sortedOrder r.toValue).get "kind" = .string REPORT_KIND := get_sorted _
    rw [parseCoverageReport, if_neg (not_lt.mpr hl), parse_canon h]
    simp only [serializeValue_toValue h hl, parse_canon h, ok_bind, hk, toString?, ne_eq, not_true, if_false]
    rfl

-- No value is serialized which is not the report of an evaluation.
theorem serializeValue_report (hv : Strict v) (h : serializeValue v = .ok s) :
    ∃ args r, evaluateCoverage args = .ok r ∧ s = canon r ∧ SameUpToKeys v r.toValue := by
  obtain ⟨args, r, he, -, rfl, hc⟩ := serializeValue_eq_ok h
  have hr := strict_toValue <| valid_of_ok he
  have ht := render_inj (plain_tidy sortedOrder_perm hv.serializable) (plain_tidy sortedOrder_perm hr.serializable) hc
  exact ⟨args, r, he, rfl, (tidy_eq_iff hv hr).mp ht⟩

-- On the reports of evaluations the typed serialization does the same.
theorem serializeValue_iff (h : evaluateCoverage args = .ok r) :
    serializeValue (tidy sortedOrder r.toValue) = .ok s ↔ serializeCoverageReport r = .ok s := by
  have hc : canonValue (tidy sortedOrder r.toValue) = canon r := by rw [canonValue, tidy_tidy sortedOrder_perm, canon]
  rw [serializeValue, readReport_toValue <| valid_of_ok h, serializeCoverageReport, validateReportShape_of_ok h, ok_bind, ok_bind,
    evaluateCoverage_reconstructInputs h]
  simp only [hc, check_eq_ok, pure_eq_ok]

end

-- The report of the two commits
def halfReport : Report :=
  reportOf halfCovered.commits halfCovered.claims ⟨false, none⟩

theorem serializeValue_report_halfCovered : ∃ args r, evaluateCoverage args = .ok r ∧ canon halfReport = canon r ∧
    SameUpToKeys halfReport.toValue r.toValue := by
  have h : evaluateCoverage halfCovered = .ok halfReport := by
    decide +kernel
  have hs : serializeValue halfReport.toValue = .ok (canon halfReport) := by
    decide +kernel
  exact serializeValue_report (strict_toValue <| valid_of_ok h) hs

end Coverage
