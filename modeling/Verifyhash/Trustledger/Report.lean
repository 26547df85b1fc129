import Verifyhash.Trustledger.Ingest
import Verifyhash.Trustledger.Reconcile

-- The spreadsheets of `trustledger/report.js`, with what they read from the packet model.
namespace Report

open Reconcile

structure RecordRow where
  date   : JsString
  amount : ℤ
  memo   : JsString
  party  : JsString
  source : JsString

structure ExceptionRow where
  type      : JsString
  severity  : JsString
  citation  : Option JsString
  amount    : ℤ
  direction : JsString
  label     : JsString
  detail    : JsString
  records   : List RecordRow

structure Balances where
  bank         : ℤ
  adjustedBank : ℤ
  book         : ℤ
  subledger    : ℤ
  reconciled   : Option ℤ

structure Legs where
  bank : ℤ
  book : ℤ

structure Continuity where
  checked         : Bool
  ok              : Bool
  bankGap         : ℤ
  bookGap         : ℤ
  priorPeriod     : Option JsString
  priorReportDate : JsString
  priorEnding     : Legs
  thisOpening     : Legs

structure Beneficiary where
  party   : JsString
  balance : ℤ

structure Model where
  exceptions    : List ExceptionRow
  balances      : Balances
  -- The state of the policy
  policy        : Option JsString
  beneficiaries : List Beneficiary
  continuity    : Option Continuity
  emitClose     : Option JsString

def fmtCents (cents : ℤ) : JsString :=
  let abs := cents.natAbs
  let body := js "$" ++ grouped (amountText (abs / 100 : ℕ)) ++ js "." ++
    Words.padStart 2 (amountText (abs % 100 : ℕ))
  if cents < 0 then js "-" ++ body else body

-- `/[",\r\n]/`
def isSpecial (u : UInt16) : Bool :=
  u = 34 ∨ u = 44 ∨ u = 13 ∨ u = 10

-- `v.replace(/"/g, '""')`
def doubled (v : JsString) : JsString :=
  v.flatMap fun u => if u = 34 then [34, 34] else [u]

def csvField (v : JsString) : JsString :=
  if v.any isSpecial then js "\"" ++ doubled v ++ js "\"" else v

-- The text of the lines of `row(...fields)`
def renderRows (rows : List (List JsString)) : JsString :=
  (js "\n").intercalate (rows.map fun fields => (js ",").intercalate (fields.map csvField)) ++ js "\n"

def exceptionRow (e : ExceptionRow) (recordFields : List JsString) : List JsString :=
  [e.severity, e.type, e.label, amountText e.amount, fmtCents e.amount, e.direction] ++ recordFields ++
    [e.detail, e.citation.getD []]

def exceptionsHeader : List JsString :=
  ["severity", "type", "label", "amount_cents", "amount", "direction", "record_date", "record_amount", "record_party",
    "record_memo", "record_source", "detail", "policy_citation"].map js

def exceptionRows (e : ExceptionRow) : List (List JsString) :=
  if e.records.length = 0 then [exceptionRow e [[], [], [], [], []]]
  else e.records.map fun r => exceptionRow e [r.date, fmtCents r.amount, r.party, r.memo, r.source]

def exceptionsTable (model : Model) : List (List JsString) :=
  exceptionsHeader :: model.exceptions.flatMap exceptionRows

def renderExceptionsCSV (model : Model) : JsString :=
  renderRows <| exceptionsTable model

def centsRow (section_ label : String) (cents : ℤ) : List JsString :=
  [js section_, js label, amountText cents, fmtCents cents]

def continuityRows (c : Continuity) : List (List JsString) :=
  let priorLabel := match c.priorPeriod with
    | none             => c.priorReportDate
    | some priorPeriod => priorPeriod ++ js " (" ++ c.priorReportDate ++ js ")"
  [
    [js "continuity", js "prior_period", [], priorLabel],
    centsRow "continuity" "prior_ending_bank" c.priorEnding.bank,
    centsRow "continuity" "prior_ending_book" c.priorEnding.book,
    centsRow "continuity" "this_opening_bank" c.thisOpening.bank,
    centsRow "continuity" "this_opening_book" c.thisOpening.book,
    centsRow "continuity" "bank_gap" c.bankGap,
    centsRow "continuity" "book_gap" c.bookGap,
    [js "continuity", js "roll_forward_ok", js (if c.ok then "1" else "0"), js (if c.ok then "clean" else "BREAK")]
  ]

def balancesTable (model : Model) : List (List JsString) :=
  let b := model.balances
  [
    [js "section", js "label", js "amount_cents", js "amount"],
    [js "policy", model.policy.getD <| js "Built-in baseline severities", [], []],
    centsRow "balance" "bank" b.bank,
    centsRow "balance" "adjusted_bank" b.adjustedBank,
    centsRow "balance" "book" b.book,
    centsRow "balance" "subledger" b.subledger,
    [js "balance", js "reconciled", b.reconciled.elim [] amountText, b.reconciled.elim [] fmtCents]
  ] ++ model.beneficiaries.map (fun x => [js "beneficiary", x.party, amountText x.balance, fmtCents x.balance]) ++
    (model.continuity.toList.filter (·.checked)).flatMap continuityRows ++
    (model.emitClose.toList.filter (· ≠ [])).map fun path => [js "close", js "emitted_to", [], path]

def renderBalancesCSV (model : Model) : JsString :=
  renderRows <| balancesTable model

end Report
