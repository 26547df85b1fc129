import Verifyhash.Trustledger.Record

-- The matcher of `trustledger/match.js`. The confidence of a pairing is a floating-point number and is left out.
namespace Matcher

open Reconcile Words

-- The options are integers.
structure Config where
  dateToleranceDays    : ℤ
  amountToleranceCents : ℤ
  maxSplitParts        : ℤ
  maxSplitCandidates   : ℤ

def DEFAULTS : Config where
  dateToleranceDays    := 3
  amountToleranceCents := 0
  maxSplitParts        := 6
  maxSplitCandidates   := 24

def isDigit (u : UInt16) : Bool :=
  48 ≤ u ∧ u ≤ 57

-- `/^\d{4}-\d{2}-\d{2}$/`
def isDate (s : JsString) : Bool :=
  s.length = 10 ∧ (s.take 4).all isDigit ∧ (s.drop 4).head? = some 45 ∧ ((s.drop 5).take 2).all isDigit ∧
    (s.drop 7).head? = some 45 ∧ (s.drop 8).all isDigit

def number (s : JsString) : ℤ :=
  s.foldl (fun n u => n * 10 + (u.toNat - 48)) 0

-- The days since 1970-01-01 of a text which `isDate` accepts.
def epochDay (iso : JsString) : ℤ :=
  let y := number <| iso.take 4
  let mo := number <| (iso.drop 5).take 2
  let d := number <| iso.drop 8
  let yy := if mo ≤ 2 then y - 1 else y
  let era := (if yy ≥ 0 then yy else yy - 399) / 400
  let yoe := yy - era * 400
  let doy := (153 * (if mo > 2 then mo - 3 else mo + 9) + 2) / 5 + d - 1
  let doe := yoe * 365 + yoe / 4 - yoe / 100 + doy
  era * 146097 + doe - 719468

def dayDiff (isoA isoB : JsString) : ℤ :=
  |epochDay isoA - epochDay isoB|

-- A record with its index in the input, and whether it is already paired.
structure Wrapped where
  idx    : ℕ
  record : Record
  used   : Bool
  deriving DecidableEq

def complement (digits : JsString) : JsString :=
  digits.map fun c => 57 - (c - 48)

def pad (n : ℤ) : JsString :=
  let s := padStart 15 <| js <| toString n.natAbs
  if n < 0 then js "0:" ++ complement s else js "1:" ++ s

def prepare (label : String) (list : List Record) : Except JsString (List Wrapped) :=
  match list.zipIdx.find? fun r => ¬ isDate r.fst.date with
  | some r => .error <| js s!"{label}[{r.snd}].date must be \"YYYY-MM-DD\""
  | none   => .ok <| list.zipIdx.map fun r => ⟨r.snd, r.fst, false⟩

inductive Kind
  | exact
  | amountWindow
  | nsfReversal
  | split
  deriving DecidableEq

def Kind.text : Kind → JsString
  | exact        => js "exact"
  | amountWindow => js "amount+window"
  | nsfReversal  => js "nsf-reversal"
  | split        => js "split"

-- One side of a pairing is a record, or the parts of a split.
inductive Side
  | one (record : Record)
  | many (records : List Record)

def Side.records : Side → List Record
  | one record   => [record]
  | many records => records

structure Matched where
  a     : Side
  b     : Side
  kind  : Kind
  aKeys : List (List JsString)
  bKeys : List (List JsString)

def sameSign (x y : ℤ) : Bool :=
  (x ≥ 0 ∧ y ≥ 0) ∨ (x < 0 ∧ y < 0)

-- The lines of a list which are not paired yet.
def unused (ws : List Wrapped) : List Wrapped :=
  ws.filter (¬ ·.used)

def use (ps ws : List Wrapped) : List Wrapped :=
  ws.map fun w => if w.idx ∈ ps.map (·.idx) then { w with used := true } else w

-- Both lists and the pairings after a pass over the first one.
structure Swept where
  xs      : List Wrapped
  ys      : List Wrapped
  matched : List Matched

-- A pass pairs every line of `xs` with the lines of `ys` which are picked for it.
def sweep (pick : Wrapped → List Wrapped → Option (List Wrapped × Matched)) : (xs ys : List Wrapped) → Swept
  | [],      ys => ⟨[], ys, []⟩
  | x :: xs, ys =>
    match if x.used then none else pick x ys with
    | none         =>
      let s := sweep pick xs ys
      { s with xs := x :: s.xs }
    | some (ps, m) =>
      let s := sweep pick xs <| use ps ys
      { s with xs := { x with used := true } :: s.xs, matched := m :: s.matched }

section

variable (toLowerCase : JsString → JsString)

-- What is neither a letter nor a digit is a single space between the words.
def normMemo (s : JsString) : JsString :=
  space.intercalate <| nameTokens toLowerCase s

def sortKey (rec : Wrapped) : List JsString :=
  [rec.record.date, pad rec.record.amount, normMemo toLowerCase rec.record.memo]

-- `cmpKey(a, b) <= 0`, where the index is the final tiebreak
def cmpKey (a b : Wrapped) : Bool :=
  let ka := sortKey toLowerCase a
  let kb := sortKey toLowerCase b
  if ka < kb then true else if kb < ka then false else a.idx ≤ b.idx

def sorted (ws : List Wrapped) : List Wrapped :=
  ws.insertionSort fun a b => cmpKey toLowerCase a b

-- The window of a pass of one-to-one pairings.
structure Pass where
  tol          : ℤ
  kind         : Kind
  sameDateOnly : Bool

def Pass.inWindow (pass : Pass) (a b : Wrapped) : Bool :=
  let dd := dayDiff a.record.date b.record.date
  if pass.sameDateOnly then dd = 0 else dd ≤ pass.tol

-- A candidate which is closer than the one chosen so far, or as close and before it.
def closer (pass : Pass) (a : Wrapped) (chosen : Option Wrapped) (b : Wrapped) : Option Wrapped :=
  if b.used ∨ ¬ pass.inWindow a b then
    chosen
  else
    match chosen with
    | none   => some b
    | some c =>
      let dd := dayDiff a.record.date b.record.date
      let chosenDiff := dayDiff a.record.date c.record.date
      if dd < chosenDiff ∨ (dd = chosenDiff ∧ ¬ cmpKey toLowerCase c b) then some b else chosen

def scan (pass : Pass) (a : Wrapped) (cands : List Wrapped) : Option Wrapped :=
  cands.foldl (closer toLowerCase pass a) none

def pairing (a b : Wrapped) (kind : Kind) : List Wrapped × Matched :=
  ([b], ⟨.one a.record, .one b.record, kind, [sortKey toLowerCase a], [sortKey toLowerCase b]⟩)

-- A partner with the same amount, or else one with the opposite amount.
def choose (pass : Pass) (a : Wrapped) (B : List Wrapped) : Option (List Wrapped × Matched) :=
  match scan toLowerCase pass a <| B.filter (·.record.amount = a.record.amount) with
  | some b => some <| pairing toLowerCase a b pass.kind
  | none   =>
    if a.record.amount ≠ 0 then
      (scan toLowerCase pass a <| B.filter (·.record.amount = -a.record.amount)).map (pairing toLowerCase a · .nsfReversal)
    else
      none

def pairOneToOne (pass : Pass) (A B : List Wrapped) : Swept :=
  sweep (choose toLowerCase pass) A B

end

-- The sum can no longer come back to the target.
def overshoots (target next amount : ℤ) : Bool :=
  (target ≥ 0 ∧ next > target ∧ amount > 0) ∨ (target < 0 ∧ next < target ∧ amount < 0)

-- The first choice of `remaining` parts, in their order, which completes the sum.
def recurse (target : ℤ) : (remaining : ℕ) → (sum : ℤ) → (parts : List Wrapped) → Option (List Wrapped)
  | 0,             sum, _          => if sum = target then some [] else none
  | _ + 1,         _,   []         => none
  | remaining + 1, sum, p :: parts =>
    let next := sum + p.record.amount
    if overshoots target next p.record.amount then
      recurse target (remaining + 1) sum parts
    else
      match recurse target remaining next parts with
      | some found => some <| p :: found
      | none       => recurse target (remaining + 1) sum parts

-- Small choices are tried before large ones.
def findSubsetSum (parts : List Wrapped) (target : ℤ) (maxParts : ℕ) : Option (List Wrapped) :=
  (List.range' 2 <| min maxParts parts.length - 1).findSome? fun size => recurse target size 0 parts

section

variable (toLowerCase : JsString → JsString) (cfg : Config)

def eligible (s w : Wrapped) : Bool :=
  ¬ w.used ∧ sameSign w.record.amount s.record.amount ∧ dayDiff s.record.date w.record.date ≤ cfg.dateToleranceDays

def splitOf (singleIsA : Bool) (s : Wrapped) (combo : List Wrapped) : Matched :=
  let single := Side.one s.record
  let partsRecs := Side.many <| combo.map (·.record)
  let keys := [sortKey toLowerCase s]
  let partsKeys := combo.map (sortKey toLowerCase)
  if singleIsA then ⟨single, partsRecs, .split, keys, partsKeys⟩ else ⟨partsRecs, single, .split, partsKeys, keys⟩

-- The parts of a single line.
def combine (singleIsA : Bool) (s : Wrapped) (many : List Wrapped) : Option (List Wrapped × Matched) :=
  if s.record.amount = 0 then
    none
  else
    let parts := sorted toLowerCase <| many.filter (eligible cfg s)
    if parts.length > cfg.maxSplitCandidates then
      none
    else
      (findSubsetSum parts s.record.amount cfg.maxSplitParts.toNat).map fun combo =>
        (combo, splitOf toLowerCase singleIsA s combo)

def pairSplits (singleIsA : Bool) (single many : List Wrapped) : Swept :=
  sweep (combine toLowerCase cfg singleIsA) single many

end

-- The least of the keys as one text.
def firstKey (keys : List (List JsString)) : JsString :=
  (keys.foldl (fun best k =>
    let s := ([0] : JsString).intercalate k
    if best.all (s < ·) then some s else best) none).getD []

def sortMatched (matched : List Matched) : List Matched :=
  matched.insertionSort fun x y =>
    let ka := firstKey x.aKeys
    let kb := firstKey y.aKeys
    if ka < kb then true else if kb < ka then false else ¬ firstKey y.bKeys < firstKey x.bKeys

structure Result where
  matched    : List Matched
  unmatchedA : List Record
  unmatchedB : List Record

def checkConfig (cfg : Config) : Except JsString Unit :=
  if cfg.amountToleranceCents ≠ 0 then
    .error <| js "amountToleranceCents must be 0: money reconciles exactly, only DATE is fuzzy"
  else if cfg.dateToleranceDays < 0 then
    .error <| js "dateToleranceDays must be a non-negative integer"
  else if cfg.maxSplitParts < 1 then
    .error <| js "maxSplitParts must be a positive integer"
  else if cfg.maxSplitCandidates < 1 then
    .error <| js "maxSplitCandidates must be a positive integer"
  else
    .ok ()

section

variable (toLowerCase : JsString → JsString) (cfg : Config)

-- The three passes over the sorted lists. The last one is made from both sides.
def passes (A B : List Wrapped) : Result :=
  let s₁ := pairOneToOne toLowerCase ⟨0, .exact, true⟩ A B
  let s₂ := pairOneToOne toLowerCase ⟨cfg.dateToleranceDays, .amountWindow, false⟩ s₁.xs s₁.ys
  let s₃ := pairSplits toLowerCase cfg true s₂.xs s₂.ys
  let s₄ := pairSplits toLowerCase cfg false s₃.ys s₃.xs
  {
    matched    := sortMatched <| s₁.matched ++ s₂.matched ++ s₃.matched ++ s₄.matched
    unmatchedA := (sorted toLowerCase <| unused s₄.ys).map (·.record)
    unmatchedB := (sorted toLowerCase <| unused s₄.xs).map (·.record)
  }

def reconcile (listA listB : List Record) : Except JsString Result := do
  checkConfig cfg
  let A ← prepare "listA" listA
  let B ← prepare "listB" listB
  return passes toLowerCase cfg (sorted toLowerCase A) (sorted toLowerCase B)

end

end Matcher
