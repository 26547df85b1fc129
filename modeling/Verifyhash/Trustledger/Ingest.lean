import Verifyhash.Data.Text
import Verifyhash.Data.Words
import Verifyhash.Library.Fallible

-- The strict parsers of `trustledger/ingest.js`.
namespace Ingest

open Words Hex

inductive Source
  | bank
  | quickbooks
  | rentRoll
  deriving DecidableEq

def Source.text : Source → JsString
  | bank       => js "bank"
  | quickbooks => js "quickbooks"
  | rentRoll   => js "rent_roll"

-- The last is for what a lookup in an object finds under the name of a member of `Object.prototype`.
inductive Kind
  | deposit
  | check
  | transfer
  | fee
  | nsf
  | adjustment
  | other
  | inherited
  deriving DecidableEq

def Kind.text : Kind → JsString
  | deposit    => js "deposit"
  | check      => js "check"
  | transfer   => js "transfer"
  | fee        => js "fee"
  | nsf        => js "nsf"
  | adjustment => js "adjustment"
  | other      => js "other"
  | inherited  => []

-- `VALID_KINDS`
def KINDS : List Kind :=
  [.deposit, .check, .transfer, .fee, .nsf, .adjustment, .other]

structure Record where
  date   : JsString
  amount : ℤ
  memo   : JsString
  kind   : Kind
  party  : JsString
  source : Source
  deriving DecidableEq

structure Loc where
  row    : ℕ
  source : Source

-- An `IngestError`. An error of a whole file has no row.
structure IngestError where
  message : JsString
  row     : Option ℕ
  source  : Source
  deriving DecidableEq

def Loc.fail (loc : Loc) (message : JsString) : IngestError where
  message := message ++ js " (row " ++ js (toString loc.row) ++ js ", " ++ loc.source.text ++ js ")"
  row     := some loc.row
  source  := loc.source

def Source.fail (source : Source) (message : JsString) : IngestError where
  message := message
  row     := none
  source  := source

def quoted (raw : JsString) : JsString :=
  js "\"" ++ raw ++ js "\""

def isDigits (s : JsString) : Bool :=
  s.all Json.isDigit

-- `/^\(.*\)$/.test(s)`, where the dot is for no line terminator
def isParenthesized (s : JsString) : Bool :=
  2 ≤ s.length ∧ s.head? = some 40 ∧ s.getLast? = some 41 ∧
    s.all fun u => u ≠ 10 ∧ u ≠ 13 ∧ u ≠ 0x2028 ∧ u ≠ 0x2029

-- The test of the groups of three digits. The last group may have a decimal portion.
def groupsOk (parts : List JsString) : Bool :=
  parts.zipIdx.all fun part =>
    let seg := if part.2 = parts.length - 1 then part.1.takeWhile (· ≠ 46) else part.1
    isDigits seg ∧ if part.2 = 0 then 1 ≤ seg.length ∧ seg.length ≤ 3 else seg.length = 3

def MAX_SAFE_INTEGER : ℕ := 2 ^ 53 - 1

-- `/^(\d*)(?:\.(\d{0,2}))?$/`, which does not match a text without any digits
def centsOf (s : JsString) : Option (JsString × JsString) :=
  let whole := s.takeWhile Json.isDigit
  let frac := (s.drop whole.length).drop 1
  if (s.drop whole.length = [] ∨ (s.drop whole.length).head? = some 46) ∧ isDigits frac ∧ frac.length ≤ 2 ∧
    ¬ (whole = [] ∧ frac = []) then some (whole, frac) else none

def parseCents (raw : Option JsString) (field : String) (loc : Loc) : Except IngestError ℤ := do
  match raw with
  | none     => throw <| loc.fail <| js <| "missing " ++ field
  | some raw =>
    let malformed := loc.fail <| js ("malformed " ++ field ++ ": ") ++ quoted raw
    let s := trim raw
    if s = [] then
      throw <| loc.fail <| js <| "empty " ++ field
    let negative := isParenthesized s
    let s := if negative then trim s.tail.dropLast else s
    let s := trim <| if s.head? = some 36 then s.tail else s
    let signed : Bool := s.head? = some 43 ∨ s.head? = some 45
    let negative := if s.head? = some 45 then ¬ negative else negative
    let s := if signed then trim s.tail else s
    if s = [] then
      throw malformed
    if s.any fun u => u = 43 ∨ u = 45 then
      throw malformed
    if 44 ∈ s ∧ ¬ groupsOk (s.splitOn 44) then
      throw malformed
    let s := s.filter (· ≠ 44)
    match centsOf s with
    | none              => throw malformed
    | some (whole, frac) =>
      let dollars := Json.digitsValue whole
      let cents := Json.digitsValue <| frac ++ .replicate (2 - frac.length) 48
      if dollars > MAX_SAFE_INTEGER ∨ dollars * 100 + cents > MAX_SAFE_INTEGER then
        throw <| loc.fail <| js "amount out of range: " ++ quoted raw
      return if negative then -(dollars * 100 + cents : ℕ) else (dollars * 100 + cents : ℕ)

-- `MONTH_NAMES`
def monthOf (name : JsString) : Option ℕ :=
  let months : List (List String) := [
    ["jan", "january"], ["feb", "february"], ["mar", "march"], ["apr", "april"], ["may"], ["jun", "june"],
    ["jul", "july"], ["aug", "august"], ["sep", "sept", "september"], ["oct", "october"], ["nov", "november"],
    ["dec", "december"]
  ]
  (months.findIdx? (·.any (js · = name))).map (· + 1)

def isLetter (u : UInt16) : Bool :=
  (97 ≤ u ∧ u ≤ 122) ∨ (65 ≤ u ∧ u ≤ 90)

-- The year of two or four digits.
def yearOf (y : JsString) : JsString :=
  if y.length = 2 then js "20" ++ y else y

-- `Mon DD, YYYY`: the name of the month, the day and the year
def textualDate (s : JsString) : Option (JsString × JsString × JsString) :=
  let name := s.takeWhile isLetter
  let rest := s.drop name.length
  let rest := if rest.head? = some 46 then rest.tail else rest
  let day := (rest.dropWhile isSpace).takeWhile Json.isDigit
  let after := (rest.dropWhile isSpace).drop day.length
  let after := if after.head? = some 44 then after.tail else after
  let year := after.dropWhile isSpace
  if name ≠ [] ∧ rest.head?.any isSpace ∧ (day.length = 1 ∨ day.length = 2) ∧ after.head?.any isSpace ∧
    year.length = 4 ∧ isDigits year then some (name, day, year) else none

-- `DD-Mon-YYYY`
def dashedDate (s : JsString) : Option (JsString × JsString × JsString) :=
  let day := s.takeWhile Json.isDigit
  let rest := s.drop day.length
  let name := rest.tail.takeWhile isLetter
  let after := rest.tail.drop name.length
  let after := if after.head? = some 46 then after.tail else after
  let year := after.tail
  if (day.length = 1 ∨ day.length = 2) ∧ rest.head? = some 45 ∧ name ≠ [] ∧ after.head? = some 45 ∧
    (year.length = 2 ∨ year.length = 4) ∧ isDigits year then some (name, day, year) else none

-- `MM/DD/YYYY`: the month, the day and the year
def slashedDate (s : JsString) : Option (JsString × JsString × JsString) :=
  match s.splitOn 47 with
  | [month, day, year] =>
    if (month.length = 1 ∨ month.length = 2) ∧ (day.length = 1 ∨ day.length = 2) ∧
      (year.length = 2 ∨ year.length = 4) ∧ isDigits month ∧ isDigits day ∧ isDigits year then
      some (month, day, year) else none
  | _ => none

-- The texts of the year, the month and the day, or the error. The lookup of the name `constructor` finds a
-- member of `Object.prototype`, which is no number.
def dateParts (raw s : JsString) (loc : Loc) : Except IngestError (JsString × JsString × JsString) :=
  if fits "dddd-dd-dd" s then .ok (s.take 4, (s.drop 5).take 2, s.drop 8)
  else match slashedDate s with
  | some (month, day, year) => .ok (yearOf year, month, day)
  | none                    =>
    if fits "dddddddd" s then .ok (s.take 4, (s.drop 4).take 2, s.drop 6)
    else match textualDate s, dashedDate s with
    | some (name, day, year), _ | none, some (name, day, year) =>
      if toLowerCase name = js "constructor" then .ok (yearOf year, js "constructor", day)
      else match monthOf <| toLowerCase name with
      | none       => .error <| loc.fail <| js "unrecognized month in date: " ++ quoted raw
      | some month => .ok (yearOf year, js <| toString month, day)
    | none, none                                               =>
      .error <| loc.fail <| js "unrecognized date: " ++ quoted raw

def daysInMonth (year month : ℕ) : ℕ :=
  if month = 2 then (if (year % 4 = 0 ∧ year % 100 ≠ 0) ∨ year % 400 = 0 then 29 else 28)
  else if month = 4 ∨ month = 6 ∨ month = 9 ∨ month = 11 then 30
  else 31

def parseDate (raw : Option JsString) (loc : Loc) : Except IngestError JsString := do
  match raw with
  | none     => throw <| loc.fail <| js "missing date"
  | some raw =>
    if trim raw = [] then
      throw <| loc.fail <| js "empty date"
    let parts ← dateParts raw (trim raw) loc
    let year := Json.digitsValue parts.1
    let month := Json.digitsValue parts.2.1
    let day := Json.digitsValue parts.2.2
    if parts.2.1 = js "constructor" then
      if day < 1 then
        throw <| loc.fail <| js "invalid day in date: " ++ quoted raw
      return js (toString year) ++ js "-NaN-" ++ padStart 2 (js <| toString day)
    if month < 1 ∨ month > 12 then
      throw <| loc.fail <| js "invalid month in date: " ++ quoted raw
    if day < 1 ∨ day > daysInMonth year month then
      throw <| loc.fail <| js "invalid day in date: " ++ quoted raw
    return js (toString year) ++ js "-" ++ padStart 2 (js <| toString month) ++ js "-" ++
      padStart 2 (js <| toString day)

-- The state of the loop over the characters of a CSV text.
structure CsvState where
  rows     : List (List JsString)
  row      : List JsString
  field    : JsString
  inQuotes : Bool

namespace CsvState

def pushField (st : CsvState) : CsvState :=
  { st with row := st.row ++ [st.field], field := [] }

-- A single field which is blank.
def isBlank (row : List JsString) : Bool :=
  match row with
  | [field] => trim field = []
  | _       => false

def pushRow (st : CsvState) : CsvState :=
  let row := st.pushField.row
  { st with rows := if isBlank row then st.rows else st.rows ++ [row], row := [], field := [] }

-- The step for a character, unless it is the first of two quotes inside of quotes.
def step (st : CsvState) (c : UInt16) : CsvState :=
  if st.inQuotes then
    if c = 34 then { st with inQuotes := false } else { st with field := st.field ++ [c] }
  else if c = 34 then { st with inQuotes := true }
  else if c = 44 then st.pushField
  else if c = 10 then st.pushRow
  else { st with field := st.field ++ [c] }

def scan (st : CsvState) : JsString → CsvState
  | []              => st
  | 34 :: 34 :: s   =>
    if st.inQuotes then scan { st with field := st.field ++ [34] } s else scan (st.step 34) (34 :: s)
  | c :: s          => scan (st.step c) s

end CsvState

-- `text.replace(/\r\n?/g, "\n")`
def normalizeNewlines : JsString → JsString
  | []            => []
  | 13 :: 10 :: s => 10 :: normalizeNewlines s
  | 13 :: s       => 10 :: normalizeNewlines s
  | c :: s        => c :: normalizeNewlines s

def parseCSV (text : JsString) : List (List JsString) :=
  let s := normalizeNewlines text
  let st := CsvState.scan ⟨[], [], [], false⟩ s
  if st.field ≠ [] ∨ st.row ≠ [] ∨ (s ≠ [] ∧ st.rows = []) then st.pushRow.rows else st.rows

-- The logical columns of a source, each with its aliases.
abbrev Schema := List (JsString × List JsString)

def column (key : String) (aliases : List String) : JsString × List JsString :=
  (js key, aliases.map js)

def BANK_SCHEMA : Schema := [
    column "date" ["date", "posted", "posting date", "transaction date", "trans date"],
    column "amount" ["amount", "amt"],
    column "debit" ["debit", "withdrawal", "withdrawals", "money out", "withdrawal amt", "withdrawal amount",
      "debit amt", "debit amount"],
    column "credit" ["credit", "deposit", "deposits", "money in", "deposit amt", "deposit amount", "credit amt",
      "credit amount"],
    column "memo" ["description", "memo", "details", "name", "payee", "check number", "check #", "check no"],
    column "type" ["type", "transaction type"]
  ]

def QB_SCHEMA : Schema := [
    column "date" ["date", "trans date", "transaction date"],
    column "type" ["type", "transaction type"],
    column "party" ["name", "payee", "customer", "vendor", "received from", "paid to", "split", "account"],
    column "memo" ["memo", "description", "memo/description", "num", "clr"],
    column "debit" ["debit", "payment", "decrease"],
    column "credit" ["credit", "deposit", "increase"],
    column "amount" ["amount", "amt"]
  ]

def RENT_SCHEMA : Schema := [
    column "date" ["date", "posted", "transaction date"],
    column "tenant" ["tenant", "name", "resident", "lessee", "party", "lease"],
    column "unit" ["unit", "apt", "apartment", "property", "door"],
    column "memo" ["memo", "description", "note", "charge type", "details"],
    column "amount" ["amount", "amt"],
    column "payment" ["payment", "paid", "received", "credit", "amount paid"],
    column "charge" ["charge", "owed", "assessment", "debit", "amount due"],
    column "type" ["type", "transaction type"]
  ]

-- The indices of the logical columns which were found.
abbrev Columns := List (JsString × ℕ)

def Columns.index (cols : Columns) (key : String) : Option ℕ :=
  cols.lookup <| js key

-- An explicit map from logical columns to headers. A header may be `null`.
abbrev ColumnMap := List (JsString × Option JsString)

def commaSeparated (texts : List JsString) : JsString :=
  (js ", ").intercalate texts

section

variable (toLowerCase : JsString → JsString)

def norm (header : List JsString) : List JsString :=
  header.map fun h => toLowerCase <| trim h

def validateColumnMap (columnMap : ColumnMap) (header : List JsString) (schema : Schema) (source : Source) :
    Except IngestError Columns :=
  columnMap.mapM fun entry => do
    if entry.1 ∉ schema.map (·.1) then
      throw <| source.fail <| js "unknown logical field " ++ quoted entry.1 ++ js " in column map for " ++
        source.text ++ js " (available fields: " ++ commaSeparated (schema.map (·.1)) ++ js ")"
    match entry.2.filter (trim · ≠ []) with
    | none            =>
      throw <| source.fail <| js "column map for " ++ quoted entry.1 ++ js " must name a header (got empty value)"
    | some wantHeader =>
      match (norm toLowerCase header).idxOf? (toLowerCase <| trim wantHeader) with
      | none     =>
        throw <| source.fail <| js "column map for " ++ quoted entry.1 ++ js " names header " ++ quoted wantHeader ++
          js " which is not in the file (available headers: " ++ commaSeparated header ++ js ")"
      | some idx => return (entry.1, idx)

-- The index of the first alias which is a header.
def detect (header : List JsString) (aliases : List JsString) : Option ℕ :=
  aliases.findSome? fun a => (norm toLowerCase header).idxOf? (toLowerCase a)

def indexHeader (header : List JsString) (schema : Schema) (source : Source) (columnMap : Option ColumnMap) :
    Except IngestError Columns := do
  let overrides ← match columnMap with
    | none           => pure []
    | some columnMap => validateColumnMap toLowerCase columnMap header schema source
  return schema.filterMap fun entry =>
    ((overrides.lookup entry.1).or <| detect toLowerCase header entry.2).map fun idx => (entry.1, idx)

def requireCols (cols : Columns) (names : List String) (source : Source) : Except IngestError Unit :=
  names.forM fun n =>
    if (cols.index n).isNone then
      throw <| source.fail <| js "missing required column " ++ quoted (js n) ++ js " in header"
    else pure ()

-- A cell, which may be missing in a short row.
def cell (arr : List JsString) (idx : Option ℕ) : Option JsString :=
  idx.bind fun idx => arr[idx]?

def classifyKind (text : JsString) (amountCents : ℤ) : Kind :=
  let t := toLowerCase text
  if containsAnyWord ["nsf"] t ∨ containsAny ["returned", "bounced", "insufficient", "reversal", "reverse"] t then .nsf
  else if containsAnyWord ["fee"] t ∨ containsAny ["service charge", "svc chg"] t ∨ containsEnd (js "charge") t then .fee
  else if containsAny ["transfer", "xfer", "ach out", "ach in"] t then .transfer
  else if containsAnyWord ["check"] t ∨ containsAny ["chk #", "chk#", "ck#", "draw", "disbursement", "payee"] t then .check
  else if containsAny ["deposit", "rent", "payment received", "received from"] t then .deposit
  else if containsAny ["adjust", "correction", "void"] t then .adjustment
  else if amountCents > 0 then .deposit
  else if amountCents < 0 then .check
  else .other
where
  -- `/charge\b/`
  containsEnd (word s : JsString) : Bool :=
    (List.range <| s.length + 1).any fun i =>
      word.isPrefixOf (s.drop i) ∧ ¬ ((s.drop <| i + word.length).head?.any isWord)

-- The common aliases of kinds.
def kindAlias (k : JsString) : Option Kind :=
  [(js "dep", Kind.deposit), (js "chk", .check), (js "cheque", .check), (js "payment", .deposit),
    (js "service charge", .fee), (js "xfer", .transfer), (js "returned", .nsf), (js "bounce", .nsf),
    (js "adj", .adjustment), (js "constructor", .inherited), (js "__proto__", .inherited)].lookup k

-- A pattern which ignores the case only does so for ASCII letters.
def coerceKind (raw fallbackText : JsString) (amountCents : ℤ) : Kind :=
  let t := Hex.toLowerCase fallbackText
  if containsAnyWord ["nsf"] t ∨ containsAny ["returned", "bounced", "insufficient", "reversal"] t then .nsf
  else if trim raw = [] then classifyKind toLowerCase fallbackText amountCents
  else
    let k := toLowerCase <| trim raw
    match KINDS.find? (·.text = k), kindAlias k with
    | some kind, _ | none, some kind => kind
    | none, none                     => classifyKind toLowerCase (raw ++ js " " ++ fallbackText) amountCents

def makeRecord (date : JsString) (amount : ℤ) (memo : JsString) (kind : Kind) (party : JsString) (source : Source) :
    Record where
  date   := date
  amount := amount
  memo   := trim memo
  kind   := kind
  party  := trim party
  source := source

-- A cell which is present and not blank.
def filled (raw : Option JsString) : Bool :=
  raw.any (trim · ≠ [])

-- The amount of a row with separate columns, of which one is negative.
def splitAmount (arr : List JsString) (cols : Columns) (out into : String) (both neither : String) (loc : Loc) :
    Except IngestError ℤ := do
  let outRaw := cell arr (cols.index out)
  let inRaw := cell arr (cols.index into)
  if filled outRaw ∧ filled inRaw then
    throw <| loc.fail <| js both
  if ¬ filled outRaw ∧ ¬ filled inRaw then
    throw <| loc.fail <| js neither
  if filled outRaw then
    let v ← parseCents outRaw out loc
    return -|v|
  else
    let v ← parseCents inRaw into loc
    return |v|

def signedAmount (arr : List JsString) (cols : Columns) (loc : Loc) : Except IngestError ℤ :=
  parseCents (cell arr <| cols.index "amount") "amount" loc

-- A builder makes one record of a row, if the columns have a signed amount or not.
abbrev Builder := List JsString → Columns → Bool → Loc → Except IngestError Record

def buildBankRecord : Builder := fun arr cols hasSigned loc => do
  let date ← parseDate (cell arr <| cols.index "date") loc
  let both := "row has BOTH a debit and a credit value"
  let neither := "row has neither debit nor credit value"
  let amount ← if hasSigned then signedAmount arr cols loc
    else splitAmount arr cols "debit" "credit" both neither loc
  let memo := (cell arr <| cols.index "memo").getD []
  let typeText := (cell arr <| cols.index "type").getD []
  let kind := coerceKind toLowerCase typeText (typeText ++ js " " ++ memo) amount
  return makeRecord date amount memo kind [] .bank

def buildQuickBooksRecord : Builder := fun arr cols hasSigned loc => do
  let date ← parseDate (cell arr <| cols.index "date") loc
  let both := "row has BOTH debit and credit values"
  let neither := "row has neither debit nor credit value"
  let amount ← if hasSigned then signedAmount arr cols loc
    else splitAmount arr cols "debit" "credit" both neither loc
  let memo := (cell arr <| cols.index "memo").getD []
  let party := (cell arr <| cols.index "party").getD []
  let typeText := (cell arr <| cols.index "type").getD []
  let kind := coerceKind toLowerCase typeText (typeText ++ js " " ++ memo) amount
  return makeRecord date amount memo kind party .quickbooks

-- The hint from the columns is taken if neither the type nor the memo says more.
def buildRentRollRecord : Builder := fun arr cols hasSigned loc => do
  let date ← parseDate (cell arr <| cols.index "date") loc
  match (cell arr <| cols.index "tenant").filter (trim · ≠ []) with
  | none        => throw <| loc.fail <| js "rent-roll row missing tenant"
  | some tenant =>
    let unit := (cell arr <| cols.index "unit").getD []
    let amount ← if hasSigned then signedAmount arr cols loc
      else splitRent arr cols loc
    let kindHint : Kind :=
      if hasSigned then (if amount ≥ 0 then .deposit else .check)
      else if filled (cell arr <| cols.index "payment") then .deposit else .adjustment
    let memoRaw := (cell arr <| cols.index "memo").getD []
    let typeText := (cell arr <| cols.index "type").getD []
    let kind :=
      if trim typeText = [] ∧
        ¬ containsAny ["nsf", "returned", "fee", "transfer", "adjust", "void"] (Hex.toLowerCase memoRaw) then kindHint
      else coerceKind toLowerCase typeText (typeText ++ js " " ++ memoRaw) amount
    let party := if unit = [] then trim tenant else trim tenant ++ js " (" ++ trim unit ++ js ")"
    return makeRecord date amount memoRaw kind party .rentRoll
where
  -- A payment is positive, and a charge is negative.
  splitRent (arr : List JsString) (cols : Columns) (loc : Loc) : Except IngestError ℤ := do
    let pRaw := cell arr (cols.index "payment")
    let cRaw := cell arr (cols.index "charge")
    if filled pRaw ∧ filled cRaw then
      throw <| loc.fail <| js "rent-roll row has BOTH a payment and a charge"
    if ¬ filled pRaw ∧ ¬ filled cRaw then
      throw <| loc.fail <| js "rent-roll row has neither payment nor charge"
    if filled pRaw then
      let v ← parseCents pRaw "payment" loc
      return |v|
    else
      let v ← parseCents cRaw "charge" loc
      return -|v|

-- What the parsers of CSV texts differ in.
structure Config where
  source   : Source
  schema   : Schema
  required : List String
  split    : String × String
  empty    : String
  amount   : String
  build    : Builder

def bankConfig : Config where
  source   := .bank
  schema   := BANK_SCHEMA
  required := ["date"]
  split    := ("debit", "credit")
  empty    := "empty bank statement"
  amount   := "bank statement needs an \"amount\" column or debit/credit columns"
  build    := buildBankRecord toLowerCase

def quickBooksConfig : Config where
  source   := .quickbooks
  schema   := QB_SCHEMA
  required := ["date"]
  split    := ("debit", "credit")
  empty    := "empty QuickBooks export"
  amount   := "QuickBooks export needs an \"amount\" column or debit/credit columns"
  build    := buildQuickBooksRecord toLowerCase

def rentRollConfig : Config where
  source   := .rentRoll
  schema   := RENT_SCHEMA
  required := ["date", "tenant"]
  split    := ("payment", "charge")
  empty    := "empty rent roll"
  amount   := "rent roll needs an \"amount\" column or payment/charge columns"
  build    := buildRentRollRecord toLowerCase

-- The rows after the header, each with its number.
def dataRows (rows : List (List JsString)) : List (List JsString × ℕ) :=
  rows.tail.zipIdx 1

-- The parsers of CSV texts, each applied to its own configuration.
def parseRows (cfg : Config) (columnMap : Option ColumnMap) (text : JsString) : Except IngestError (List Record) := do
  let rows := parseCSV text
  match rows.head? with
  | none        => throw <| cfg.source.fail <| js cfg.empty
  | some header =>
    let cols ← indexHeader toLowerCase header cfg.schema cfg.source columnMap
    requireCols cols cfg.required cfg.source
    let hasSigned := (cols.index "amount").isSome
    let hasSplit := (cols.index cfg.split.1).isSome ∨ (cols.index cfg.split.2).isSome
    if ¬ hasSigned ∧ ¬ hasSplit then
      throw <| cfg.source.fail <| js cfg.amount
    (dataRows rows).mapM fun row => cfg.build row.1 cols hasSigned ⟨row.2, cfg.source⟩

def parseBankCSV (columnMap : Option ColumnMap) (text : JsString) : Except IngestError (List Record) :=
  parseRows toLowerCase (bankConfig toLowerCase) columnMap text

def parseQuickBooksCSV (columnMap : Option ColumnMap) (text : Option JsString) : Except IngestError (List Record) :=
  match text with
  | none      => .error <| Source.quickbooks.fail <| js "no QuickBooks input"
  | some text => parseRows toLowerCase (quickBooksConfig toLowerCase) columnMap text

def parseRentRollCSV (columnMap : Option ColumnMap) (text : Option JsString) : Except IngestError (List Record) :=
  match text with
  | none      => .error <| Source.rentRoll.fail <| js "no rent-roll input"
  | some text => parseRows toLowerCase (rentRollConfig toLowerCase) columnMap text

-- A tag at the start of a text, in any case of its letters.
def startsWith (tag : String) (s : JsString) : Bool :=
  (js tag).isPrefixOf <| Hex.toLowerCase s

def hasTag (tag : String) (s : JsString) : Bool :=
  s.tails.any <| startsWith tag

-- The value of a tag, which goes up to the next tag or line break.
def ofxTagVal (block : JsString) (tag : String) : Option JsString :=
  (block.tails.find? <| startsWith tag).map fun s =>
    trim <| (s.drop tag.length).takeWhile fun u => u ≠ 60 ∧ u ≠ 10 ∧ u ≠ 13

-- The matches of `/<STMTTRN>[\s\S]*?<\/STMTTRN>/gi`. A block, from where it starts, ends with the first
-- closing tag. No tag starts inside of a tag.
def blocksFrom : Option JsString → JsString → List JsString
  | _, []           => []
  | none, u :: s    => if startsWith "<stmttrn>" (u :: s) then blocksFrom (some (u :: s)) s else blocksFrom none s
  | some b, u :: s  =>
    if startsWith "</stmttrn>" (u :: s) then b.take (b.length - (s.length + 1) + 10) :: blocksFrom none s
    else blocksFrom (some b) s

def ofxBlocks (text : JsString) : Except IngestError (List JsString) :=
  let blocks := blocksFrom none text
  if blocks = [] ∧ ¬ (hasTag "<ofx>" text ∨ hasTag "<stmttrn>" text) then
    .error <| Source.bank.fail <| js "not an OFX/QFX document"
  else .ok blocks

def buildOFXRecord (block : JsString) (loc : Loc) : Except IngestError Record := do
  match ofxTagVal block "<dtposted>" with
  | none       => throw <| loc.fail <| js "OFX txn missing DTPOSTED"
  | some dtRaw =>
    let date ← parseDate (some <| dtRaw.take 8) loc
    let amount ← parseCents (ofxTagVal block "<trnamt>") "TRNAMT" loc
    let memo := ((ofxTagVal block "<memo>").filter (· ≠ [])).getD <| (ofxTagVal block "<name>").getD []
    let trntype := (ofxTagVal block "<trntype>").getD []
    let kind := coerceKind toLowerCase trntype (trntype ++ js " " ++ memo) amount
    return makeRecord date amount memo kind [] .bank

def parseOFX (text : JsString) : Except IngestError (List Record) := do
  let blocks ← ofxBlocks text
  (blocks.zipIdx 1).mapM fun block => buildOFXRecord toLowerCase block.1 ⟨block.2, .bank⟩

inductive Format
  | csv
  | ofx
  deriving DecidableEq

-- The format which is forced, or else detected.
def formatOf (format : Option Format) (text : JsString) : Format :=
  format.getD <| if hasTag "<ofx>" text ∨ hasTag "<stmttrn>" text ∨ hasTag "ofxheader" text then .ofx else .csv

def parseBankStatement (format : Option Format) (columnMap : Option ColumnMap) (text : Option JsString) :
    Except IngestError (List Record) :=
  match text with
  | none      => .error <| Source.bank.fail <| js "no bank input"
  | some text =>
    match formatOf format text with
    | .ofx => parseOFX toLowerCase text
    | .csv => parseBankCSV toLowerCase columnMap text

end

end Ingest
