import Verifyhash.Data.Text
import Verifyhash.Hash.Sha256

-- The period-close artifacts of `trustledger/close.js`.
namespace PeriodClose

open Value Json

def SCHEMA_VERSION : JsString := js "trustledger.period-close/v1"

-- What is thrown: a `CloseError` with its message, or the error of a conversion to a string.
inductive Failure
  | closeError (message : JsString)
  | typeError
  deriving DecidableEq

def fail (message : String) : Failure :=
  .closeError <| js message

-- The integer `v`, if `Number.isInteger(v)`.
def isCents (v : Value) : Bool :=
  v.toInt?.isSome

def isBalancePair (v : Value) : Bool :=
  v.isObject ∧ isCents (v.get "bank") ∧ isCents (v.get "book")

-- `DIGEST_RE.test(s)`
def isDigest (s : JsString) : Bool :=
  s.length = 64 ∧ s.all fun u => (48 ≤ u ∧ u ≤ 57) ∨ (97 ≤ u ∧ u ≤ 102)

-- The text of a report date, which is `String(v || "")`.
def dateText (v : Value) : Option JsString :=
  if v.isFalsy then some [] else v.toText

-- The test of a report date, and the error if it does not pass.
def dateCheck (v : Value) (message : String) : Bool × Failure :=
  match dateText v with
  | some text => (fits "dddd-dd-dd" text, fail message)
  | none      => (false, .typeError)

-- The failure of the first check which does not pass.
def firstFailure (checks : List (Bool × Failure)) : Except Failure Unit :=
  match checks.find? (!·.fst) with
  | some (_, failure) => .error failure
  | none              => .ok ()

-- The object whose text is hashed.
def canonicalInputs (parts : Value) : Value :=
  object [
    (js "schemaVersion", string SCHEMA_VERSION),
    (js "period", parts.get "period"),
    (js "reportDate", parts.get "reportDate"),
    (js "opening", object [
      (js "bank", (parts.get "opening").get "bank"),
      (js "book", (parts.get "opening").get "book")
    ]),
    (js "ending", object [
      (js "bank", (parts.get "ending").get "bank"),
      (js "book", (parts.get "ending").get "book")
    ]),
    (js "subledger", parts.get "subledger"),
    (js "tiesOut", parts.get "tiesOut"),
    (js "pass", parts.get "pass"),
    (js "inputs", object [
      (js "bankRecords", (parts.get "inputs").get "bankRecords"),
      (js "bookRecords", (parts.get "inputs").get "bookRecords"),
      (js "rentrollRecords", (parts.get "inputs").get "rentrollRecords")
    ])
  ]

def digestInputs (parts : Value) : JsString :=
  Sha256.sha256HexUtf8 <| (stringify <| canonicalInputs parts).getD []

def countOf (model : Value) (key : String) : Value :=
  let n := (model.get "inputs").get key
  match n.toInt? with
  | some i => if 0 ≤ i then n else nat 0
  | none   => nat 0

-- A non-negative integer.
def isCount (v : Value) : Bool :=
  v.toInt?.any (0 ≤ ·)

-- The checks of `validateClose` in their order.
def closeChecks (obj : Value) : List (Bool × Failure) := [
  (obj.isObject, fail "close must be an object"),
  ((obj.get "schemaVersion").toString? == some SCHEMA_VERSION, .closeError <|
    js "unsupported schemaVersion: expected \"" ++ SCHEMA_VERSION ++ js "\", got " ++
      (stringify <| obj.get "schemaVersion").getD (js "undefined")),
  (obj.has "period", fail "close is missing `period`"),
  ((obj.get "period").isNull || (obj.get "period").toString?.isSome,
    fail "close.period must be a string or null"),
  dateCheck (obj.get "reportDate") "close.reportDate must be a \"YYYY-MM-DD\" string",
  (obj.has "opening", fail "close is missing `opening`"),
  (isBalancePair <| obj.get "opening", fail "close.opening must carry integer-cents bank/book balances"),
  (obj.has "ending", fail "close is missing `ending`"),
  (isBalancePair <| obj.get "ending", fail "close.ending must carry integer-cents bank/book balances"),
  (obj.has "subledger", fail "close is missing `subledger`"),
  (isCents <| obj.get "subledger", fail "close.subledger must be integer cents"),
  ((obj.get "tiesOut").toBool?.isSome, fail "close.tiesOut must be a boolean"),
  ((obj.get "pass").toBool?.isSome, fail "close.pass must be a boolean"),
  ((obj.get "inputs").isObject, fail "close is missing `inputs` record counts"),
  (isCount <| (obj.get "inputs").get "bankRecords",
    fail "close.inputs.bankRecords must be a non-negative integer"),
  (isCount <| (obj.get "inputs").get "bookRecords",
    fail "close.inputs.bookRecords must be a non-negative integer"),
  (isCount <| (obj.get "inputs").get "rentrollRecords",
    fail "close.inputs.rentrollRecords must be a non-negative integer"),
  ((obj.get "inputsDigest").toString?.any isDigest,
    fail "close.inputsDigest must be a 64-char lowercase hex SHA-256 digest")
]

def validateClose (obj : Value) : Except Failure Value := do
  firstFailure <| closeChecks obj
  return obj

-- The opening balances of a model.
def openingOf (model : Value) : Except Failure Value :=
  let opening := model.get "opening"
  if opening.isNullish then
    .ok <| object [(js "bank", nat 0), (js "book", nat 0)]
  else if isBalancePair opening then
    .ok <| object [(js "bank", opening.get "bank"), (js "book", opening.get "book")]
  else
    .error <| fail "model.opening, when present, must carry integer-cents bank/book balances"

-- `model.period == null ? null : String(model.period)`
def periodOf (model : Value) : Except Failure Value :=
  if (model.get "period").isNullish then
    .ok null
  else
    match (model.get "period").toText with
    | some text => .ok <| string text
    | none      => .error .typeError

def buildClose (model : Value) : Except Failure Value := do
  firstFailure [
    (model.isObject, fail "buildClose requires the report packet model object"),
    dateCheck (model.get "reportDate") "model.reportDate must be a \"YYYY-MM-DD\" string",
    (isBalancePair <| model.get "balances", fail "model.balances must carry integer-cents bank/book balances"),
    (isCents <| (model.get "balances").get "subledger", fail "model.balances.subledger must be integer cents")
  ]
  let opening ← openingOf model
  let tiesOut := (model.get "tiesOut").toBool? == some true
  let pass := if (model.get "pass").isUndefined then tiesOut else (model.get "pass").toBool? == some true
  let period ← periodOf model
  let parts := [
    (js "period", period),
    (js "reportDate", model.get "reportDate"),
    (js "opening", opening),
    (js "ending", object [
      (js "bank", (model.get "balances").get "bank"),
      (js "book", (model.get "balances").get "book")
    ]),
    (js "subledger", (model.get "balances").get "subledger"),
    (js "tiesOut", bool tiesOut),
    (js "pass", bool pass),
    (js "inputs", object [
      (js "bankRecords", countOf model "bankRecords"),
      (js "bookRecords", countOf model "bookRecords"),
      (js "rentrollRecords", countOf model "rentrollRecords")
    ])
  ]
  validateClose <| object <| (js "schemaVersion", string SCHEMA_VERSION) :: parts ++
    [(js "inputsDigest", string <| digestInputs <| object parts)]

section

-- The messages of the parser are a parameter.
variable (syntaxError : JsString → JsString)

def readClose (input : Value) : Except Failure Value :=
  match input with
  | .string text =>
    match parse text with
    | some obj => validateClose obj
    | none     => .error <| .closeError <| js "close is not valid JSON: " ++ syntaxError text
  | input        =>
    if input.isObject then
      validateClose input
    else
      .error <| fail "readClose requires a JSON string or a close object"

-- The result of `checkContinuity`, where the gaps are missing if there is no prior close.
structure Continuity where
  ok   : Bool
  gaps : Option (Number × Number) := none
  deriving DecidableEq

-- The difference of two amounts.
def gap (a b : ℤ) : Number :=
  if a < b then ofRational true (b - a) else ofRational false (a - b)

def checkContinuity (priorClose opening : Value) : Except Failure Continuity :=
  if priorClose.isNullish then
    .ok { ok := true }
  else do
    let prior ← readClose syntaxError priorClose
    let ending := prior.get "ending"
    match (opening.get "bank").toInt?, (opening.get "book").toInt?,
      (ending.get "bank").toInt?, (ending.get "book").toInt? with
    | some bank, some book, some priorBank, some priorBook =>
      let bankGap := gap bank priorBank
      let bookGap := gap book priorBook
      return { ok := bankGap = .finite 0 ∧ bookGap = .finite 0, gaps := some (bankGap, bookGap) }
    | _, _, _, _ =>
      throw <| fail "checkContinuity opening must carry integer-cents bank/book balances"

end

end PeriodClose
