import Verifyhash.Trustledger.Record

-- The three-balance check of `trustledger/reconcile.js`. Amounts are integers, and sums of them are exact.
namespace Reconcile

open Words

inductive FindingType
  | outstandingDeposit
  | outstandingCheck
  | nsfReversal
  | ownerDraw
  | ownerOverdraw
  | securityDepositSegregation
  | ambiguousDeposit
  | unreconciledBank
  | subledgerOutOfBalance
  | negativeTenantLedger
  | bankBookMismatch
  deriving DecidableEq

inductive Severity
  | info
  | warning
  | error
  deriving DecidableEq

-- `DEFAULT_SEVERITY`
def FindingType.severity : FindingType → Severity
  | outstandingDeposit | outstandingCheck => .info
  | nsfReversal | ownerDraw | ambiguousDeposit | unreconciledBank => .warning
  | _ => .error

-- `EXCEPTION`
def FindingType.text : FindingType → JsString
  | outstandingDeposit         => js "outstanding_deposit"
  | outstandingCheck           => js "outstanding_check"
  | nsfReversal                => js "nsf_reversal"
  | ownerDraw                  => js "owner_draw"
  | ownerOverdraw              => js "owner_overdraw"
  | securityDepositSegregation => js "security_deposit_segregation"
  | ambiguousDeposit           => js "ambiguous_deposit"
  | unreconciledBank           => js "unreconciled_bank"
  | subledgerOutOfBalance      => js "subledger_out_of_balance"
  | negativeTenantLedger       => js "negative_tenant_ledger"
  | bankBookMismatch           => js "bank_book_mismatch"

-- An exception of the reconciliation, as `pushException` makes it.
structure Finding where
  type    : FindingType
  amount  : ℤ
  label   : JsString
  detail  : JsString
  records : List Record
  deriving DecidableEq

def Finding.severity (e : Finding) : Severity :=
  e.type.severity

-- The exceptions as `pushException` makes them of their parts.
def finding (type : FindingType) (amount : ℤ) (label : String) (detail : JsString) (records : List Record) : Finding :=
  { type, amount, label := js label, detail, records }

def beneficiaryLabel (party : JsString) : JsString :=
  if trim party = [] then js "an unattributed beneficiary" else trim party

-- The digits of a number of dollars, in groups of three.
def grouped (digits : JsString) : JsString :=
  digits.zipIdx.flatMap fun u => if u.2 ≠ 0 ∧ (digits.length - u.2) % 3 = 0 then [44, u.1] else [u.1]

def fmtCentsForDetail (cents : ℤ) : JsString :=
  let abs := cents.natAbs
  let body := js "$" ++ grouped (amountText (abs / 100 : ℕ)) ++ js "." ++ padStart 2 (amountText (abs % 100 : ℕ))
  if cents < 0 then js "-" ++ body else body

def sumAmounts (records : List Record) : ℤ :=
  (records.map (·.amount)).sum

-- A row of the rent roll, as far as it is read.
structure TenantRow where
  party          : JsString
  amount         : ℤ
  controlAccount : Bool

inductive Tenants
  | none
  | rows (rows : List TenantRow)
  | balances (balances : List (JsString × ℤ))

-- The balances of the beneficiaries. A balance under the name of a member of `Object.prototype` is a
-- text, and is `none`.
abbrev SubBalances := List (JsString × Option ℤ)

-- The names of the members of `Object.prototype`, apart from `__proto__`.
def PROTOTYPE : List JsString := [
    js "constructor", js "__defineGetter__", js "__defineSetter__", js "hasOwnProperty", js "__lookupGetter__",
    js "__lookupSetter__", js "isPrototypeOf", js "propertyIsEnumerable", js "toString", js "valueOf",
    js "toLocaleString"
  ]

def normTenantParty (party : JsString) : JsString :=
  if trim party = [] then js "unknown" else trim party

-- `out[party] = (out[party] || 0) + amount`. An assignment of such a value to `__proto__` has no effect.
def addBalance (out : SubBalances) (party : JsString) (amount : ℤ) : SubBalances :=
  if party = js "__proto__" then out
  else if party ∈ PROTOTYPE then
    if party ∈ out.map (·.1) then out else out ++ [(party, none)]
  else if party ∈ out.map (·.1) then
    out.map fun entry => if entry.1 = party then (party, entry.2.map (· + amount)) else entry
  else out ++ [(party, some amount)]

def tenantBalances : Tenants → SubBalances
  | .none              => []
  | .balances balances => (balances.filter (·.1 ≠ js "__proto__")).map fun entry => (entry.1, some entry.2)
  | .rows rows         => rows.foldl (fun out r => addBalance out (normTenantParty r.party) r.amount) []

-- The sum of the balances, which is `none` if it is a text.
def total (subBalances : SubBalances) : Option ℤ :=
  (subBalances.map (·.2)).foldl (fun a b => a.bind fun a => b.map (a + ·)) (some 0)

def controlAccountKeys : Tenants → List JsString
  | .rows rows => (rows.filter (·.controlAccount)).map fun r => normTenantParty r.party
  | _          => []

-- What the matcher could not pair, if it is given. A side may be missing.
structure MatchResult where
  unmatchedA : Option (List Record)
  unmatchedB : Option (List Record)

structure Options where
  openingBank    : ℤ
  openingBook    : ℤ
  matchResult    : Option MatchResult
  toleranceCents : ℤ

structure Balances where
  bank         : ℤ
  book         : ℤ
  subledger    : Option ℤ
  adjustedBank : ℤ
  reconciled   : Option ℤ
  deriving DecidableEq

structure Reconciliation where
  balances   : Balances
  tiesOut    : Bool
  exceptions : List Finding
  deriving DecidableEq

section

variable (toLowerCase : JsString → JsString)

-- One pass over the sorted records, which takes a count of the amount from `otherCounts` if there is one.
def cancel (otherCounts : List ℤ) : List Record → List Record
  | []      => []
  | r :: rs => if r.amount ∈ otherCounts then cancel (otherCounts.erase r.amount) rs else r :: cancel otherCounts rs

-- The counts of the amounts are the multiset of the amounts.
def residue (self other : List Record) : List Record :=
  cancel (other.map (·.amount)) <| sorted toLowerCase self

def matcherUnmatched (matchResult : Option MatchResult) (side : MatchResult → Option (List Record))
    (self other : List Record) : List Record :=
  match matchResult with
  | none        => residue toLowerCase self other
  | some result => (side result).getD []

-- The exceptions for one line which is only in the book. A line of zero cents has none.
def bookOnly (r : Record) : List Finding :=
  if isNsf toLowerCase r then
    [finding .nsfReversal r.amount "NSF / returned-item reversal (book)" (js <|
      "A bounced or returned item recorded in the book; confirm the bank " ++
      "posted the matching reversal and the tenant balance was re-debited.") [r]]
  else if r.amount > 0 then
    [finding .outstandingDeposit r.amount "Deposit in transit" (js <|
      "Recorded in the book but not yet on the bank statement; expected to " ++
      "clear in the next few days (timing).") [r]]
  else if r.amount < 0 then
    if isOwnerDraw toLowerCase r then
      [finding .ownerDraw r.amount "Outstanding owner draw" (js <|
        "An owner draw written in the book that has not yet cleared the bank; " ++
        "verify it does not draw against tenant or security-deposit funds.") [r]]
    else
      [finding .outstandingCheck r.amount "Outstanding check"
        (js "A check written in the book that has not yet cleared the bank (timing).") [r]]
  else []

-- The exception for one line which is only on the bank statement.
def bankOnly (r : Record) : Finding :=
  if isNsf toLowerCase r then
    finding .nsfReversal r.amount "NSF / returned-item reversal (bank)" (js <|
      "The bank reversed a deposit that bounced; the book must record the " ++
      "reversal and re-debit the tenant's sub-ledger.") [r]
  else
    finding .unreconciledBank r.amount "Unreconciled bank line" (js <|
      "A bank transaction with no matching book entry; record it in the " ++
      "book or explain it before signing.") [r]

-- What is added to the bank balance for the lines which are only in the book.
def outstandingDeposits (unmatchedBook : List Record) : ℤ :=
  sumAmounts <| unmatchedBook.filter fun r => ¬ isNsf toLowerCase r ∧ r.amount > 0

def outstandingChecks (unmatchedBook : List Record) : ℤ :=
  sumAmounts <| unmatchedBook.filter fun r => ¬ isNsf toLowerCase r ∧ r.amount < 0

-- The exceptions for the draws of owners, one after the other. A draw which is already reported is skipped.
def ownerDraws (exceptions : List Finding) (book : List Record) : List Finding :=
  ((sorted toLowerCase book).filter (isOwnerDraw toLowerCase)).foldl (fun exceptions r =>
    if exceptions.any fun e => e.type = .ownerDraw ∧
        (e.records.head?.map (recKey toLowerCase)) = some (recKey toLowerCase r) then exceptions
    else exceptions ++ [finding .ownerDraw r.amount "Owner draw" (js <|
      "A disbursement to the property owner; confirm it is paid only from " ++
      "that owner's own funds and never from tenant or security-deposit money.") [r]]) exceptions

-- The exception for the account of an owner who drew more than was contributed.
def ownerOverdraw (book : List Record) (subBalances : SubBalances) (tol : ℤ) (key : JsString) : List Finding :=
  let draws := (sorted toLowerCase book).filter fun r =>
    isOwnerDraw toLowerCase r ∧ partyKey toLowerCase r.party = key
  let inflows := book.filter fun r =>
    ¬ isOwnerDraw toLowerCase r ∧ 0 < r.amount ∧ key ≠ [] ∧ partyKey toLowerCase r.party = key
  let D := (draws.map fun r => |r.amount|).sum
  let C := sumAmounts inflows
  let overCapital := D - C
  let buckets := subBalances.filterMap fun entry =>
    if partyKey toLowerCase entry.1 = key then entry.2 else none
  let B := if buckets = [] then -overCapital else buckets.sum
  let shortfall := if B < 0 then -B else 0
  let excess := min overCapital shortfall
  if C ≤ 0 ∨ overCapital ≤ 0 ∨ excess ≤ tol then []
  else
    let who := beneficiaryLabel <| (draws.head?.map (·.party)).getD []
    [finding .ownerOverdraw excess "Owner draw exceeds contributed capital" (
      js "Owner account " ++ who ++ js " drew " ++ fmtCentsForDetail D ++ js " against only " ++ fmtCentsForDetail C ++
      js " of its OWN contributed capital, so " ++ fmtCentsForDetail excess ++
      js " of the draw was paid out of other " ++
      js "beneficiaries' trust money. An owner may be disbursed only from their " ++
      js "own funds; paying an owner out of tenant or security-deposit money is a " ++
      js "conversion of trust funds and leaves the account out of trust. Restore " ++
      fmtCentsForDetail excess ++ js " to the trust account before relying on this packet.") draws.head?.toList]

def classifyOwnerDraws (book : List Record) (subBalances : SubBalances) (exceptions : List Finding) (tol : ℤ) :
    List Finding :=
  let keys := (((sorted toLowerCase book).filter (isOwnerDraw toLowerCase)).map
    fun r => partyKey toLowerCase r.party).eraseDups
  ownerDraws toLowerCase exceptions book ++
    (keys.insertionSort (· ≤ ·)).flatMap (ownerOverdraw toLowerCase book subBalances tol)

-- The coverage of a beneficiary, which is taken before the generic pool.
def coverage (covered : List (JsString × ℤ)) (key : JsString) : ℤ :=
  (covered.lookup key).getD 0

def setCoverage (covered : List (JsString × ℤ)) (key : JsString) (cents : ℤ) : List (JsString × ℤ) :=
  (key, cents) :: covered.filter (·.1 ≠ key)

-- The security deposits of the book.
def secDeposits (book : List Record) : List Record :=
  sorted toLowerCase <| book.filter fun r => isSecurityDeposit toLowerCase r ∧ 0 < r.amount

-- The transfers of the book, each with the key to which it is attributed.
def segregationMoves (book : List Record) : List (JsString × ℤ) :=
  let depositKeys := ((secDeposits toLowerCase book).map fun r => partyKey toLowerCase r.party).eraseDups
  let index := buildDepositNameIndex toLowerCase depositKeys
  (sorted toLowerCase <| book.filter <| isSegregationMove toLowerCase).map fun r =>
    (attributeSegregation toLowerCase r depositKeys index, |r.amount|)

-- The coverage of each beneficiary, and the generic pool.
def pools (moves : List (JsString × ℤ)) : List (JsString × ℤ) × ℤ :=
  moves.foldl (fun pools move =>
    if move.1 = [] then (pools.1, pools.2 + move.2)
    else (setCoverage pools.1 move.1 (coverage pools.1 move.1 + move.2), pools.2)) ([], 0)

-- What is still needed for the deposits which the coverage of their beneficiaries does not cover.
def stillShort (covered : List (JsString × ℤ)) : List Record → List (Record × ℤ)
  | []      => []
  | r :: rs =>
    let key := partyKey toLowerCase r.party
    let own := coverage covered key
    let fromOwn := min own r.amount
    let need := r.amount - fromOwn
    let rest := stillShort (setCoverage covered key (own - fromOwn)) rs
    if need > 0 then (r, need) :: rest else rest

-- The deposits which the generic pool does not cover either, with the amounts which are not covered.
def unsegregated (genericPool : ℤ) : List (Record × ℤ) → List (Record × ℤ)
  | []              => []
  | (r, need) :: rs =>
    if genericPool ≥ need then unsegregated (genericPool - need) rs
    else (r, need - genericPool) :: unsegregated 0 rs

def unsegregatedFinding (r : Record) (uncovered : ℤ) : Finding :=
  let who := beneficiaryLabel r.party
  finding .securityDepositSegregation r.amount "Security deposit not segregated" (
    js "Security deposit for " ++ who ++ js " is not segregated: " ++ fmtCentsForDetail uncovered ++
    js " of this receipt has no matching transfer to a segregated deposit account. " ++
    js "Many states require each beneficiary's security deposit be held separately " ++
    js "from operating trust funds; transfer the uncovered amount to a segregated " ++
    js "account attributed to " ++ who ++ js ".") [r]

-- The bank lines are not used.
def classifySecurityDeposits (book : List Record) (_bank : List Record) : List Finding :=
  let pools := pools <| segregationMoves toLowerCase book
  (unsegregated pools.2 <| stillShort toLowerCase pools.1 <| secDeposits toLowerCase book).map fun entry =>
    unsegregatedFinding entry.1 entry.2

def classifyAmbiguousDeposits (book : List Record) : List Finding :=
  (sorted toLowerCase <| book.filter <| isAmbiguousDeposit toLowerCase).map fun r =>
    finding .ambiguousDeposit r.amount "Ambiguous deposit (beneficiary type undetermined)" (js <|
      "A book deposit with no recognizable beneficiary-type keyword (it is " ++
      "not clearly rent, an owner contribution, or a labeled security " ++
      "deposit). Confirm what it is: an un-segregated security deposit hiding " ++
      "as a generic deposit is an out-of-trust finding. Label the row " ++
      "(e.g. kind \"rent\", a security-deposit memo, or an explicit deposit " ++
      "type) so this resolves.") [r]

def CONTROL_ACCOUNT_TOKENS : List JsString :=
  [js "owner", js "owners", js "escrow", js "segregated", js "trust", js "operating", js "reserve", js "suspense"]

def isControlAccountParty (party : JsString) : Bool :=
  (nameTokens toLowerCase party).head?.any (· ∈ CONTROL_ACCOUNT_TOKENS)

def classifyNegativeTenantLedgers (subBalances : SubBalances) (tol : ℤ) (controlKeys : List JsString) : List Finding :=
  let parties := (subBalances.map (·.1)).insertionSort (· ≤ ·)
  parties.flatMap fun party =>
    match (subBalances.lookup party).bind id with
    | none     => []
    | some bal =>
      if bal ≥ -tol ∨ party ∈ controlKeys ∨ isControlAccountParty toLowerCase party then []
      else
        let who := beneficiaryLabel party
        [finding .negativeTenantLedger bal "Beneficiary ledger is negative" (
          js "The individual trust ledger for " ++ who ++ js " is negative (" ++ fmtCentsForDetail bal ++ js "): " ++
          js "the broker is holding less than zero in trust for this beneficiary, so " ++
          js "their money has been spent or used to cover another beneficiary's " ++
          js "shortfall. A negative individual ledger is out of trust even when the " ++
          js "pooled sum of all sub-ledgers still ties to the book; restore the " ++
          js "beneficiary's balance to at least zero before relying on this packet.") []]

def Severity.rank : Severity → ℕ
  | .error   => 0
  | .warning => 1
  | .info    => 2

-- The key of the first record, which is empty if there is none.
def Finding.recKey (e : Finding) : JsString :=
  (e.records.head?.map (Reconcile.recKey toLowerCase)).getD []

-- `compareExceptions(a, b) <= 0`
def compareExceptions (a b : Finding) : Bool :=
  if a.severity.rank ≠ b.severity.rank then a.severity.rank < b.severity.rank
  else if a.type ≠ b.type then a.type.text < b.type.text
  else if a.amount ≠ b.amount then a.amount < b.amount
  else a.recKey toLowerCase ≤ b.recKey toLowerCase

def gapFinding (type : FindingType) (gap tol : ℤ) (label : String) (detail : JsString) : List Finding :=
  if |gap| > tol then [finding type gap label detail []] else []

inductive Failure
  | tolerance
  deriving DecidableEq

-- The adjusted bank balance, and whether the two gaps are within the tolerance. A gap to a text is `NaN`.
def reconcile (bank book : List Record) (tenants : Tenants) (opts : Options) : Except Failure Reconciliation := do
  let tol := opts.toleranceCents
  if tol < 0 then
    throw .tolerance
  let bankBalance := opts.openingBank + sumAmounts bank
  let bookBalance := opts.openingBook + sumAmounts book
  let subBalances := tenantBalances tenants
  let subledgerBalance := total subBalances
  let unmatchedBank := matcherUnmatched toLowerCase opts.matchResult (·.unmatchedA) bank book
  let unmatchedBook := matcherUnmatched toLowerCase opts.matchResult (·.unmatchedB) book bank
  let exceptions := (sorted toLowerCase unmatchedBook).flatMap (bookOnly toLowerCase) ++
    (sorted toLowerCase unmatchedBank).map (bankOnly toLowerCase)
  let adjustedBank := bankBalance + outstandingDeposits toLowerCase unmatchedBook +
    outstandingChecks toLowerCase unmatchedBook
  let exceptions := classifyOwnerDraws toLowerCase book subBalances exceptions tol ++
    classifySecurityDeposits toLowerCase book bank ++ classifyAmbiguousDeposits toLowerCase book
  let bankBookGap := adjustedBank - bookBalance
  let bookSubGap := subledgerBalance.map (bookBalance - ·)
  let bankBookFindings := gapFinding .bankBookMismatch bankBookGap tol "Adjusted bank does not equal book" <|
    js "After outstanding items the bank balance (" ++ amountText adjustedBank ++ js ") and the " ++
    js "book balance (" ++ amountText bookBalance ++ js ") differ by " ++ amountText bankBookGap ++ js " cents; an " ++
    js "unrecorded transaction or a posting error remains."
  let bookSubFindings := bookSubGap.toList.flatMap fun gap =>
    gapFinding .subledgerOutOfBalance gap tol "Sum of tenant sub-ledgers does not equal book" <|
      js "The book balance (" ++ amountText bookBalance ++ js ") and the sum of all beneficiary " ++
      js "sub-ledger balances (" ++ amountText (subledgerBalance.getD 0) ++ js ") differ by " ++ amountText gap ++
      js " cents; the trust account is out of trust until this is resolved."
  let exceptions := exceptions ++ bankBookFindings ++ bookSubFindings ++
    classifyNegativeTenantLedgers toLowerCase subBalances tol (controlAccountKeys tenants)
  let tiesOut : Bool := |bankBookGap| ≤ tol ∧ bookSubGap.any (|·| ≤ tol)
  return {
    balances := {
      bank         := bankBalance
      book         := bookBalance
      subledger    := subledgerBalance
      adjustedBank := adjustedBank
      reconciled   := if tiesOut then some bookBalance else none
    }
    tiesOut
    exceptions := exceptions.insertionSort fun a b => compareExceptions toLowerCase a b
  }

end

end Reconcile
