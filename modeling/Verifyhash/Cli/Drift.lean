import Verifyhash.Data.Hex

-- The change set of two lists of files in `cli/receipt.js`, and the policy which gates it in `cli/evidence.js`.
namespace Drift

structure Entry where
  path        : JsString
  contentHash : JsString
  leaf        : JsString
  deriving DecidableEq

-- `map.set(e.path, e)`
def setEntry (m : List (JsString × Entry)) (e : Entry) : List (JsString × Entry) :=
  if (m.lookup e.path).isSome then
    m.map fun f => if f.fst = e.path then (e.path, e) else f
  else
    m ++ [(e.path, e)]

def byPath (es : List Entry) : List (JsString × Entry) :=
  es.foldl setEntry []

structure Listed where
  path        : JsString
  contentHash : JsString
  deriving DecidableEq

structure Changed where
  path           : JsString
  oldContentHash : JsString
  newContentHash : JsString
  deriving DecidableEq

structure Diff where
  added     : List Listed
  removed   : List Listed
  changed   : List Changed
  unchanged : List Listed
  identical : Bool
  deriving DecidableEq

def sortByPath (path : α → JsString) (l : List α) : List α :=
  l.insertionSort fun a b => path a ≤ path b

section

variable (toLowerCase : JsString → JsString)

def sameLeaf (rec cur : Entry) : Bool :=
  toLowerCase rec.leaf = toLowerCase cur.leaf

def diffManifest (recordedManifest currentLeaves : List Entry) : Diff :=
  let recorded := byPath recordedManifest
  let current := byPath currentLeaves
  let added := current.filterMap fun f =>
    match recorded.lookup f.fst with
    | none   => some ⟨f.fst, f.snd.contentHash⟩
    | some _ => none
  let changed := current.filterMap fun f =>
    match recorded.lookup f.fst with
    | none     => none
    | some rec => if sameLeaf toLowerCase rec f.snd then none else some ⟨f.fst, rec.contentHash, f.snd.contentHash⟩
  let unchanged := current.filterMap fun f =>
    match recorded.lookup f.fst with
    | none     => none
    | some rec => if sameLeaf toLowerCase rec f.snd then some ⟨f.fst, f.snd.contentHash⟩ else none
  let removed := recorded.filterMap fun f =>
    match current.lookup f.fst with
    | none   => some ⟨f.fst, f.snd.contentHash⟩
    | some _ => none
  {
    added     := sortByPath Listed.path added
    removed   := sortByPath Listed.path removed
    changed   := sortByPath Changed.path changed
    unchanged := sortByPath Listed.path unchanged
    identical := added.length = 0 ∧ removed.length = 0 ∧ changed.length = 0
  }

end

-- `DRIFT_RULE`
inductive Rule
  | noAdded
  | noRemoved
  | noChanged
  | allowChangePaths
  | frozenPaths
  deriving DecidableEq

def Rule.text : Rule → JsString
  | noAdded          => js "noAdded"
  | noRemoved        => js "noRemoved"
  | noChanged        => js "noChanged"
  | allowChangePaths => js "allowChangePaths"
  | frozenPaths      => js "frozenPaths"

inductive Change
  | added
  | removed
  | changed
  deriving DecidableEq

structure Violation where
  relPath : JsString
  rule    : Rule
  change  : Change
  deriving DecidableEq

-- A policy which is validated. A flag which is absent is not set, and a list which is absent is empty.
structure Policy where
  noAdded          : Bool := false
  noRemoved        : Bool := false
  noChanged        : Bool := false
  allowChangePaths : List JsString := []
  frozenPaths      : List JsString := []

-- `_underPrefix`
def underPrefix (relPath pre : JsString) : Bool :=
  let p := if pre.getLast? = some 47 then pre.dropLast else pre
  relPath = p ∨ (p ++ [47]).isPrefixOf relPath

def countDriftRules (policy : Policy) : ℕ :=
  [policy.noAdded, policy.noRemoved, policy.noChanged, ¬ policy.allowChangePaths.isEmpty, ¬ policy.frozenPaths.isEmpty].count true

structure Verdict where
  pass           : Bool
  rulesEvaluated : ℕ
  addedCount     : ℕ
  removedCount   : ℕ
  changedCount   : ℕ
  violations     : List Violation

def violated (test : Bool) (relPath : JsString) (rule : Rule) (change : Change) : List Violation :=
  if test then [⟨relPath, rule, change⟩] else []

-- The comparison of violations by path, and then by rule
def sortViolations (vs : List Violation) : List Violation :=
  vs.insertionSort fun x y => if x.relPath ≠ y.relPath then x.relPath < y.relPath else x.rule.text ≤ y.rule.text

def evaluateDriftPolicy (diff : Diff) (policy : Policy) : Verdict :=
  let frozen relPath := policy.frozenPaths.any (underPrefix relPath)
  let barred relPath := ¬ policy.allowChangePaths.isEmpty ∧ ¬ policy.allowChangePaths.any (underPrefix relPath)
  let violations :=
    (diff.added.flatMap fun a => violated policy.noAdded a.path .noAdded .added) ++
    (diff.removed.flatMap fun r => violated policy.noRemoved r.path .noRemoved .removed ++
      violated (frozen r.path) r.path .frozenPaths .removed) ++
    diff.changed.flatMap fun c => violated policy.noChanged c.path .noChanged .changed ++
      violated (barred c.path) c.path .allowChangePaths .changed ++ violated (frozen c.path) c.path .frozenPaths .changed
  {
    pass           := violations.length = 0
    rulesEvaluated := countDriftRules policy
    addedCount     := diff.added.length
    removedCount   := diff.removed.length
    changedCount   := diff.changed.length
    violations     := sortViolations violations
  }

end Drift
