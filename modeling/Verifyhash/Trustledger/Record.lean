import Verifyhash.Data.Words

-- The records of `trustledger/reconcile.js`, and what is read from their texts.
namespace Reconcile

open Words

-- A normalized record. Its amount is integer cents.
structure Record where
  date        : JsString
  amount      : ℤ
  memo        : JsString
  kind        : JsString
  party       : JsString
  depositType : Option JsString
  ambiguous   : Option Bool
  expected    : Option Bool
  deriving DecidableEq

def space : JsString := js " "

section

variable (toLowerCase : JsString → JsString)

def isOwnerDraw (rec : Record) : Bool :=
  let t := toLowerCase <| rec.memo ++ space ++ rec.party ++ space ++ rec.kind
  rec.amount < 0 ∧
    (containsAnyWord ["owner", "draw"] t ∨ containsAny ["disbursement to owner", "owner distribution"] t)

def isSecurityDeposit (rec : Record) : Bool :=
  let t := toLowerCase <| rec.memo ++ space ++ rec.party ++ space ++ rec.kind
  containsAny ["security deposit", "sec dep", "sec deposit", "sec. deposit", "damage deposit"] t ∨
    containsAnyWord ["deposit held"] t

def isNsf (rec : Record) : Bool :=
  let t := toLowerCase <| rec.memo ++ space ++ rec.kind
  rec.kind = js "nsf" ∨ containsAnyWord ["nsf"] t ∨
    containsAny ["returned", "bounced", "insufficient", "reversal"] t

-- `RECOGNIZED_DEPOSIT_PURPOSE.test(t)`
def recognizedDepositPurpose (t : JsString) : Bool :=
  containsAnyWord ["rent", "rents", "payment", "paid", "owner", "draw", "refund", "fee", "nsf", "proceeds", "ach"] t ∨
    containsAny [
      "lease", "tenant payment", "partial", "installment", "instalment", "contribution", "capital", "reserve",
      "distribution", "reimburs", "charge", "interest", "returned", "bounced", "reversal", "transfer", "segregat",
      "escrow", "in transit", "in-transit", "operating", "management", "commission", "payoff", "wire",
      "adjustment", "correction", "chargeback"
    ] t

def hasExplicitDepositLabel (rec : Record) : Bool :=
  rec.kind = js "rent" ∨ rec.depositType.any (trim · ≠ []) ∨ rec.ambiguous = some false ∨ rec.expected = some true

def isAmbiguousDeposit (rec : Record) : Bool :=
  let t := toLowerCase <| rec.memo ++ space ++ rec.kind
  0 < rec.amount ∧ ¬ hasExplicitDepositLabel rec ∧ ¬ isSecurityDeposit toLowerCase rec ∧
    ¬ (isOwnerDraw toLowerCase rec ∨ isNsf toLowerCase rec) ∧ trim rec.party ≠ [] ∧
    (containsAnyWord ["deposit"] t ∨ rec.kind = js "deposit") ∧ ¬ recognizedDepositPurpose t

-- The beneficiary of a record. The empty text is for no beneficiary.
def partyKey (party : JsString) : JsString :=
  collapse <| toLowerCase <| trim party

def amountText (n : ℤ) : JsString :=
  js <| toString n

-- The text by which records are sorted.
def recKey (r : Record) : JsString :=
  r.date ++ js "|" ++ padStart 16 (amountText r.amount) ++ js "|" ++ trim (toLowerCase r.memo) ++ js "|" ++
    trim (toLowerCase r.party)

-- `[...records].sort((x, y) => cmp(recKey(x), recKey(y)))`, which is stable
def sorted (records : List Record) : List Record :=
  records.insertionSort fun x y => recKey toLowerCase x ≤ recKey toLowerCase y

-- An outflow which is a transfer of a deposit to a separate account.
def isSegregationMove (r : Record) : Bool :=
  let t := toLowerCase <| r.memo ++ space ++ r.kind
  r.amount < 0 ∧
    (containsAny ["segregat", "transfer to security", "transfer to escrow", "transfer to trust",
        "to security deposit account", "escrow"] t ∨
      (isSecurityDeposit toLowerCase r ∧ containsAny ["transfer", "segregat", "escrow"] t))

def nameTokens (s : JsString) : List JsString :=
  ((toLowerCase s).splitOnP fun u => ¬ isAlphanumeric u).filter (· ≠ [])

-- The keys which can be named in a memo, with their tokens.
def buildDepositNameIndex (depositKeys : List JsString) : List (JsString × List JsString) :=
  (depositKeys.filter (· ≠ [])).map (fun key => (key, nameTokens toLowerCase key)) |>.filter (·.2 ≠ [])

def tokensMatchAt (memoTokens : List JsString) (i : ℕ) (keyTokens : List JsString) : Bool :=
  keyTokens.isPrefixOf (memoTokens.drop i)

-- The bucket of a first token has the keys in the order of the set.
def bucket (index : List (JsString × List JsString)) (token : JsString) : List (JsString × List JsString) :=
  index.filter (·.2.head? = some token)

-- The longest key which is named at some position of the memo.
def longestMatch (index : List (JsString × List JsString)) (memoTokens : List JsString) : JsString × ℕ :=
  memoTokens.zipIdx.foldl (fun best token =>
    (bucket index token.1).foldl (fun best entry =>
      if ¬ tokensMatchAt memoTokens token.2 entry.2 then best
      else if entry.2.length > best.2 ∨ (entry.2.length = best.2 ∧ entry.1.length > best.1.length) then
        (entry.1, entry.2.length)
      else best) best) ([], 0)

def attributeSegregation (transfer : Record) (depositKeys : List JsString) (index : List (JsString × List JsString)) :
    JsString :=
  let own := partyKey toLowerCase transfer.party
  if own ≠ [] ∧ own ∈ depositKeys then own
  else (longestMatch index <| nameTokens toLowerCase transfer.memo).1

end

end Reconcile
