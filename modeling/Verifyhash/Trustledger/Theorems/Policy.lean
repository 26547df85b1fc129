import Verifyhash.Library.Comparators
import Verifyhash.Library.Keyed
import Verifyhash.Trustledger.Policy

namespace TrustPolicy

open Value Json Checks Reconcile Fallible

-- What an exception has apart from its severity and its citation.
def Exception.content (ex : Exception) : JsString × ℤ × JsString × JsString × List Record :=
  (ex.type, ex.amount, ex.label, ex.detail, ex.records)

-- The severity which the text of a policy names for a type of exceptions.
def namedSeverity (obj : Value) (type : JsString) : Option Severity :=
  match obj.get "severities" with
  | object fields => (fields.lookup type).bind severity?
  | _             => none

section

variable {fs : List (JsString × Value)}

theorem overrides_spec (h : overrides fs = .ok m) :
    m.map Prod.fst = fs.map Prod.fst ∧ ∀ k, m.lookup k = (fs.lookup k).bind severity? := by
  induction fs generalizing m
  case nil =>
    obtain rfl : [] = m := by simpa [overrides] using h
    exact ⟨rfl, fun _ => rfl⟩
  case cons f fs ih =>
    simp only [overrides, bind_eq_ok, demand_eq_ok, pure_eq_ok] at h
    obtain ⟨_, -, severity, hs, rest, hr, rfl⟩ := h
    obtain ⟨hk, hl⟩ := ih hr
    refine ⟨by simp [hk], fun k => ?_⟩
    rw [List.lookup_cons, List.lookup_cons, hl]
    cases k == f.fst
    case true  => exact hs.symm
    case false => rfl

theorem lookup_entries (k : JsString) : (entries <| object fs).lookup k = fs.lookup k := by
  rw [entries, Fields.lookup_arrange ownOrder_perm, Fields.lookup_map]
  cases fs.lookup k <;> rfl

theorem nodup_entries (v : Value) : ((entries v).map Prod.fst).Nodup := by
  cases v
  case object fields => exact Fields.nodup_arrange _ ownOrder_perm
  all_goals exact .nil

end

theorem lookup_sortedMap {m : List (JsString × α)} (hn : (m.map Prod.fst).Nodup) :
    (sortedMap m).lookup k = m.lookup k := by
  have hp : (sortedMap m).Perm m := List.perm_insertionSort ..
  have hn' : ((sortedMap m).map Prod.fst).Nodup := (hp.map _).nodup_iff.mpr hn
  refine Option.ext fun a => ?_
  rw [Keyed.lookup_eq_some_iff hn', Keyed.lookup_eq_some_iff hn, hp.mem_iff]

-- A policy which is accepted overrides the severities which its text names, and no others.
theorem lookup_severities (h : validatePolicy obj = .ok policy) (type : JsString) :
    policy.severities.lookup type = namedSeverity obj type := by
  simp only [validatePolicy, bind_eq_ok, require_eq_ok, pure_eq_ok] at h
  obtain ⟨-, -, -, -, -, -, state, -, -, -, -, ho, severities, hs, -, -, citations, -, tolerance, -, rfl⟩ := h
  obtain ⟨fields, hf⟩ := isObject_iff.mp ho
  rw [hf] at hs
  obtain ⟨hk, hl⟩ := overrides_spec hs
  rw [lookup_sortedMap <| hk ▸ nodup_entries _, hl, lookup_entries, namedSeverity, hf]

section

variable {toLowerCase : JsString → JsString} {policy : Policy}

-- The comparator compares by the severity first, then by the type, by the amount and by the key of the record.
theorem compareExceptions_eq : (fun a b : Exception => (compareExceptions toLowerCase a b : Prop)) =
    Comparator.By (·.severity.rank) (Comparator.By (·.type) <| Comparator.By (·.amount)
      fun a b => a.recKey toLowerCase ≤ b.recKey toLowerCase) := by
  funext a b
  simp only [compareExceptions, Comparator.By]
  split_ifs <;> simp

instance total_compareExceptions : Std.Total fun a b => (compareExceptions toLowerCase a b : Prop) := by
  rw [compareExceptions_eq]
  infer_instance

instance trans_compareExceptions : IsTrans Exception fun a b => compareExceptions toLowerCase a b := by
  rw [compareExceptions_eq]
  infer_instance

@[simp]
theorem content_relabel (ex : Exception) : (policy.relabel ex).content = ex.content :=
  rfl

theorem relabel_relabel (ex : Exception) : policy.relabel (policy.relabel ex) = policy.relabel ex := by
  simp only [Policy.relabel, Exception.mk.injEq, true_and, and_true]
  cases policy.severities.lookup ex.type <;> rfl

theorem perm_applyPolicy (result : ReconcileResult) :
    (applyPolicy toLowerCase result policy).exceptions.Perm (result.exceptions.map policy.relabel) :=
  List.perm_insertionSort ..

theorem applyPolicy_idem (result : ReconcileResult) :
    applyPolicy toLowerCase (applyPolicy toLowerCase result policy) policy =
      applyPolicy toLowerCase result policy := by
  simp only [applyPolicy, ReconcileResult.mk.injEq, true_and]
  exact Comparator.sort_map_idem relabel_relabel

-- What a policy may change of a result: the severities which its text names, and with them the order.
structure Relabels (toLowerCase : JsString → JsString) (obj : Value) (result out : ReconcileResult) : Prop where
  balances   : out.balances = result.balances
  tiesOut    : out.tiesOut = result.tiesOut
  contents   : (out.exceptions.map (·.content)).Perm (result.exceptions.map (·.content))
  severities : (out.exceptions.map fun ex => (ex.content, ex.severity)).Perm
    (result.exceptions.map fun ex => (ex.content, (namedSeverity obj ex.type).getD ex.severity))
  sorted     : out.exceptions.Pairwise (compareExceptions toLowerCase · ·)

theorem applyPolicy_relabels (h : validatePolicy obj = .ok policy) (result : ReconcileResult) :
    Relabels toLowerCase obj result (applyPolicy toLowerCase result policy) ∧
      applyPolicy toLowerCase (applyPolicy toLowerCase result policy) policy =
        applyPolicy toLowerCase result policy := by
  have hp : (applyPolicy toLowerCase result policy).exceptions.Perm _ := perm_applyPolicy result
  have hc := hp.map (·.content)
  have hs := hp.map fun ex => (ex.content, ex.severity)
  rw [List.map_map] at hc hs
  refine ⟨⟨rfl, rfl, hc, ?_, List.pairwise_insertionSort ..⟩, applyPolicy_idem result⟩
  refine hs.trans <| .of_eq <| List.map_congr_left fun ex _ => ?_
  rw [←lookup_severities h]
  rfl

end

-- A policy for the draws of owners, and a result in which one of them is a warning.
def ownersText : Value :=
  object [
    (js "schemaVersion", nat 1),
    (js "state", string <| js "CA"),
    (js "severities", object [(js "owner_draw", string <| js "error"), (js "timing", string <| js "info")]),
    (js "citations", object [(js "owner_draw", string <| js "Rule 1")])
  ]

def ownersPolicy : Policy where
  state          := js "CA"
  severities     := [(js "owner_draw", .error), (js "timing", .info)]
  citations      := [(js "owner_draw", js "Rule 1")]
  toleranceCents := none

def ownersResult : ReconcileResult where
  balances   := ⟨0, 0, some 0, 0, some 0⟩
  tiesOut    := true
  exceptions := [
    { type := js "nsf_reversal", severity := .warning, amount := 5, label := [], detail := [], records := [] },
    { type := js "owner_draw", severity := .warning, amount := -7, label := [], detail := [], records := [] }
  ]

theorem validatePolicy_owners : validatePolicy ownersText = .ok ownersPolicy := by
  rfl

theorem applyPolicy_relabels_owners :
    Relabels Hex.toLowerCase ownersText ownersResult (applyPolicy Hex.toLowerCase ownersResult ownersPolicy) ∧
      applyPolicy Hex.toLowerCase (applyPolicy Hex.toLowerCase ownersResult ownersPolicy) ownersPolicy =
        applyPolicy Hex.toLowerCase ownersResult ownersPolicy :=
  applyPolicy_relabels validatePolicy_owners ownersResult

section

variable {toLowerCase : JsString → JsString} {policy : Policy}

theorem text_injective : Function.Injective FindingType.text := by
  intro a b
  cases a <;> cases b <;> decide

-- The comparator is the one by which the exceptions of a reconciliation are sorted.
theorem compareExceptions_ofFinding (a b : Finding) :
    compareExceptions toLowerCase (.ofFinding a) (.ofFinding b) = Reconcile.compareExceptions toLowerCase a b := by
  simp only [compareExceptions, Reconcile.compareExceptions, Exception.ofFinding, ne_eq, text_injective.eq_iff]
  rfl

theorem sorted_ofReconciliation (h : reconcile toLowerCase bank book tenants opts = .ok r) :
    (ReconcileResult.ofReconciliation r).exceptions.Pairwise (compareExceptions toLowerCase · ·) := by
  have ht : Std.Total fun a b => (Reconcile.compareExceptions toLowerCase a b : Prop) := by
    simp only [←compareExceptions_ofFinding]
    exact ⟨fun a b => total_compareExceptions.total (.ofFinding a) (.ofFinding b)⟩
  have hr : IsTrans Finding fun a b => Reconcile.compareExceptions toLowerCase a b := by
    simp only [←compareExceptions_ofFinding]
    exact ⟨fun a b c => trans_compareExceptions.trans (.ofFinding a) (.ofFinding b) (.ofFinding c)⟩
  have hs : r.exceptions.Pairwise (Reconcile.compareExceptions toLowerCase · ·) := by
    rw [reconcile, check_eq_ok] at h
    obtain ⟨-, h⟩ := h
    obtain rfl := pure_eq_ok.mp h
    exact List.pairwise_insertionSort ..
  simpa only [ReconcileResult.ofReconciliation, List.pairwise_map, compareExceptions_ofFinding] using hs

-- A policy which names no type leaves a reconciliation as it is.
theorem applyPolicy_silent (h : reconcile toLowerCase bank book tenants opts = .ok r) (hs : policy.severities = [])
    (hc : policy.citations = []) :
    applyPolicy toLowerCase (.ofReconciliation r) policy = .ofReconciliation r := by
  have hr (e : Finding) : policy.relabel (.ofFinding e) = .ofFinding e := by
    simp [Policy.relabel, Exception.ofFinding, hs, hc]
  have hm : (ReconcileResult.ofReconciliation r).exceptions.map policy.relabel =
      (ReconcileResult.ofReconciliation r).exceptions := by
    rw [ReconcileResult.ofReconciliation, List.map_map]
    exact List.map_congr_left fun e _ => hr e
  rw [applyPolicy, hm, (sorted_ofReconciliation h).insertionSort_eq]

end

end TrustPolicy
