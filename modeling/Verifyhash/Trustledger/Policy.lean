import Verifyhash.Data.Checks
import Verifyhash.Trustledger.Reconcile

-- The severity policies of `trustledger/policy.js`.
namespace TrustPolicy

open Value Json Checks Reconcile

def SCHEMA_VERSION : ℕ := 1

-- `EXCEPTION_TYPES`, in the order of `EXCEPTION`
def EXCEPTION_TYPES : List JsString := [
  js "outstanding_deposit",
  js "outstanding_check",
  js "nsf_reversal",
  js "owner_draw",
  js "owner_overdraw",
  js "security_deposit_segregation",
  js "ambiguous_deposit",
  js "timing",
  js "unreconciled_bank",
  js "unreconciled_book",
  js "subledger_out_of_balance",
  js "negative_tenant_ledger",
  js "bank_book_mismatch",
  js "continuity_break"
]

-- `SEVERITY`
def severityText : Severity → JsString
  | .info    => js "info"
  | .warning => js "warning"
  | .error   => js "error"

def SEVERITY_VALUES : List Severity := [.info, .warning, .error]

-- The severity `v`, if `SEVERITY_VALUES.has(v)`.
def severity? : Value → Option Severity
  | string s => SEVERITY_VALUES.find? (severityText · = s)
  | _        => none

-- `[...values].sort().join(", ")`
def legal (values : List JsString) : JsString :=
  (js ", ").intercalate <| sortedOrder values

-- The string `v`, if `typeof v === "string" && v.trim() !== ""`.
def label? : Value → Option JsString
  | string s => if Words.trim s = [] then none else some s
  | _        => none

-- The fields of an object in the order of `Object.keys`.
def entries : Value → List (JsString × Value)
  | object fields => Fields.arrange ownOrder <| fields.map fun f => (f.fst, some f.snd)
  | _             => []

-- The overrides which the fields of `severities` name.
def overrides : List (JsString × Value) → Except JsString (List (JsString × Severity))
  | []               => .ok []
  | (key, val) :: fs => do
    require (key ∈ EXCEPTION_TYPES) <| js "policy.severities has unknown exception type " ++ shown (string key) ++
      js "; legal types are: " ++ legal EXCEPTION_TYPES
    let severity ← demand (severity? val) <| js "policy.severities[" ++ shown (string key) ++
      js "] has invalid severity " ++ shown val ++ js "; must be one of: " ++
      legal (SEVERITY_VALUES.map severityText)
    return (key, severity) :: (← overrides fs)

-- The citations of the rules for overrides.
def cites (severities : List (JsString × Severity)) :
    List (JsString × Value) → Except JsString (List (JsString × JsString))
  | []               => .ok []
  | (key, val) :: fs => do
    require (key ∈ EXCEPTION_TYPES) <| js "policy.citations has unknown exception type " ++ shown (string key)
    require (key ∈ severities.map (·.1)) <| js "policy.citations[" ++ shown (string key) ++
      js "] cites a rule for a type with no severity override; cite only the overrides you apply"
    let cite ← demand (label? val) <|
      js "policy.citations[" ++ shown (string key) ++ js "] must be a non-empty string"
    return (key, cite) :: (← cites severities fs)

-- The entries of a map in the order of their keys.
def sortedMap (m : List (JsString × α)) : List (JsString × α) :=
  m.insertionSort fun e f => e.1 ≤ f.1

-- A policy which is valid. Its field `schemaVersion` is constant.
structure Policy where
  state          : JsString
  severities     : List (JsString × Severity)
  citations      : List (JsString × JsString)
  toleranceCents : Option ℤ

def tolerance (obj : Value) : Except JsString (Option ℤ) :=
  if obj.has "toleranceCents" then do
    let t ← demand ((obj.get "toleranceCents").toInt?.filter (0 ≤ ·)) <|
      js "policy.toleranceCents must be a non-negative integer (cents); got " ++ shown (obj.get "toleranceCents")
    return some t
  else
    return none

def validatePolicy (obj : Value) : Except JsString Policy := do
  require obj.isObject <| js "policy must be a JSON object"
  require (obj.has "schemaVersion") <| js "policy is missing required field: schemaVersion"
  require ((obj.get "schemaVersion").toInt? = some (SCHEMA_VERSION : ℤ)) <| js "unsupported policy schemaVersion " ++
    shown (obj.get "schemaVersion") ++ js "; this build understands schemaVersion " ++ natText SCHEMA_VERSION
  let state ← demand (label? <| obj.get "state") <| js "policy.state must be a non-empty string label"
  require (obj.has "severities") <| js "policy is missing required field: severities"
  require (obj.get "severities").isObject <| js "policy.severities must be an object map"
  let severities ← overrides <| entries <| obj.get "severities"
  require (obj.has "citations" → (obj.get "citations").isObject) <| js "policy.citations must be an object map"
  let citations ← cites severities <| entries <| obj.get "citations"
  let toleranceCents ← tolerance obj
  return { state, severities := sortedMap severities, citations := sortedMap citations, toleranceCents }

-- An exception of a result, with the citation of a rule if a policy gives one.
structure Exception where
  type     : JsString
  severity : Severity
  amount   : ℤ
  label    : JsString
  detail   : JsString
  records  : List Record
  citation : Option JsString := none

-- The result of a reconciliation, to which exceptions of other checks may have been added.
structure ReconcileResult where
  balances   : Balances
  tiesOut    : Bool
  exceptions : List Exception

-- The exceptions as they come from `reconcile`.
def Exception.ofFinding (e : Finding) : Exception where
  type     := e.type.text
  severity := e.severity
  amount   := e.amount
  label    := e.label
  detail   := e.detail
  records  := e.records

def ReconcileResult.ofReconciliation (r : Reconciliation) : ReconcileResult where
  balances   := r.balances
  tiesOut    := r.tiesOut
  exceptions := r.exceptions.map .ofFinding

section

variable (toLowerCase : JsString → JsString)

def Exception.recKey (ex : Exception) : JsString :=
  (ex.records.head?.map (Reconcile.recKey toLowerCase)).getD []

-- `compareExceptions(a, b) <= 0`
def compareExceptions (a b : Exception) : Bool :=
  if a.severity.rank ≠ b.severity.rank then a.severity.rank < b.severity.rank
  else if a.type ≠ b.type then a.type < b.type
  else if a.amount ≠ b.amount then a.amount < b.amount
  else a.recKey toLowerCase ≤ b.recKey toLowerCase

-- The exception `next`. An exception of a type which the policy does not name keeps its severity.
def Policy.relabel (policy : Policy) (ex : Exception) : Exception where
  type     := ex.type
  severity := (policy.severities.lookup ex.type).getD ex.severity
  amount   := ex.amount
  label    := ex.label
  detail   := ex.detail
  records  := ex.records
  citation := policy.citations.lookup ex.type

def applyPolicy (reconcileResult : ReconcileResult) (policy : Option Policy) : ReconcileResult :=
  match policy with
  | none        => reconcileResult
  | some policy => {
      balances   := reconcileResult.balances
      tiesOut    := reconcileResult.tiesOut
      exceptions := (reconcileResult.exceptions.map policy.relabel).insertionSort fun a b =>
        compareExceptions toLowerCase a b
    }

end

end TrustPolicy
