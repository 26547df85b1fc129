import Verifyhash.Data.Json.Canonical
import Verifyhash.Hash.Basic

-- The hash-chained journal of `cli/journal.js`.
namespace Journal

open Json Value

def GENESIS_DOMAIN : String := "vh.integrity-journal/v1:genesis"
def JOURNAL_SCHEMA : JsString := js "vh.integrity-journal/v1"

mutual

-- The errors are the messages of a `JournalError`.
def canonicalize : Value → Except JsString JsString
  | .null                       => .ok <| js "null"
  | .string s                   => .ok <| quote s
  | .bool b                     => .ok <| if b then js "true" else js "false"
  | .number .nan                => .error <| js "cannot canonicalize a non-finite number: NaN"
  | .number (.infinity negative) =>
    .error <| js "cannot canonicalize a non-finite number: " ++
      if negative then js "-Infinity" else js "Infinity"
  | .number n                   => .ok <| numberText n
  | .undefined                  => .error <| js "cannot canonicalize a value of type undefined (not valid JSON)"
  | .array elems                => do
    let parts ← canonicalizeElems elems
    return js "[" ++ join parts ++ js "]"
  | .object fields              => do
    -- A key whose value is `undefined` is dropped.
    let parts ← (Fields.arrange sortedOrder <| canonicalizeFields fields).mapM fun (k, part) =>
      part.map fun part => (k, part)
    return js "\x7b" ++ joinFields parts ++ js "\x7d"

def canonicalizeElems : List Value → Except JsString (List JsString)
  | []      => .ok []
  | v :: vs => do
    let part ← canonicalize v
    let parts ← canonicalizeElems vs
    return part :: parts

def canonicalizeFields : List (JsString × Value) → List (JsString × Option (Except JsString JsString))
  | []           => []
  | (k, v) :: fs => (k, if v.isUndefined then none else some (canonicalize v)) :: canonicalizeFields fs

end

-- `_entryShapeError`
def entryShapeError (e : Value) : Option JsString :=
  if ¬ e.isObject then
    some <| js "not an object"
  else if ¬ (e.get "seq").toInt?.any (0 ≤ ·) then
    some <| js "seq must be a non-negative integer, got " ++
      (stringify <| e.get "seq").getD (js "undefined")
  else if ¬ (e.get "prevHash").hex32?.isSome then
    some <| js "prevHash must be a 0x-prefixed 32-byte hex string"
  else if ¬ (e.get "entryHash").hex32?.isSome then
    some <| js "entryHash must be a 0x-prefixed 32-byte hex string"
  else if ¬ e.has "verdict" then
    some <| js "verdict is missing"
  else
    none

-- The object whose hash is the `entryHash`.
def preimage (fields : Value) : Value :=
  object [
    (js "schema", string JOURNAL_SCHEMA),
    (js "seq", fields.get "seq"),
    (js "prevHash", fields.get "prevHash"),
    (js "ts", fields.get "ts"),
    (js "artifact", fields.get "artifact"),
    (js "verdict", fields.get "verdict")
  ]

-- `_deepCloneJson`
def deepCloneJson (value : Value) : Except JsString Value := do
  let text ← canonicalize <| if value.isUndefined then null else value
  match parse text with
  | some v => return v
  | none   => .error <| js "SyntaxError"

-- `n + 1` for a number which passes `Number.isInteger`.
def succ (n : Value) : Value :=
  match n.toInt? with
  | some i => number <| ofRational false (i + 1)
  | none   => number .nan

-- The result of `verifyJournal`.
inductive Verdict
  | ok (count : ℕ) (head : JsString)
  | broken (brokenAt : ℕ) (reason : JsString)
  deriving DecidableEq

-- The outcome of the checks of a single entry.
inductive Check
  | sound (entryHash : JsString)
  | broken (reason : JsString)

section

variable (keccak256 : Bytes → Bytes32) (toUtf8Bytes : JsString → Except JsString Bytes)

def GENESIS_PREV_HASH : JsString :=
  hashBytes keccak256 <| .ofAscii GENESIS_DOMAIN

def computeEntryHash (fields : Value) : Except JsString JsString := do
  let text ← canonicalize <| preimage fields
  let bytes ← toUtf8Bytes text
  return hashBytes keccak256 bytes

-- The sequence number and the previous hash of the entry after `priorEntry`.
def nextLink (priorEntry : Value) : Except JsString (Value × Value) :=
  match priorEntry with
  | .null | .undefined => .ok (nat 0, string <| GENESIS_PREV_HASH keccak256)
  | _ =>
    match entryShapeError priorEntry with
    | some err => .error <| js "priorEntry: " ++ err
    | none     => .ok (succ <| priorEntry.get "seq", priorEntry.get "entryHash")

def appendEntry (priorEntry observation : Value) : Except JsString Value := do
  if ¬ observation.isObject then
    throw <| js "observation must be an object \x7b verdict, artifact?, ts? \x7d"
  if ¬ observation.has "verdict" then
    throw <| js "observation.verdict is required"
  let verdict := observation.get "verdict"
  if verdict.isUndefined then
    throw <| js "observation.verdict is required (got undefined)"
  let artifact := if (observation.get "artifact").isUndefined then null else observation.get "artifact"
  let ts := if (observation.get "ts").isUndefined then null else observation.get "ts"
  let (seq, prevHash) ← nextLink keccak256 priorEntry
  let verdict ← deepCloneJson verdict
  let fields := [(js "seq", seq), (js "prevHash", prevHash), (js "ts", ts), (js "artifact", artifact),
    (js "verdict", verdict)]
  let entryHash ← computeEntryHash keccak256 toUtf8Bytes <| object fields
  return object <| fields ++ [(js "entryHash", string entryHash)]

-- The checks of `verifyJournal` on the entry at position `i`.
def checkEntry (expectedPrevHash : JsString) (i : ℕ) (e : Value) : Except JsString Check :=
  match entryShapeError e with
  | some shapeErr => .ok <| .broken <| entry i ++ js ": " ++ shapeErr
  | none =>
    if (e.get "seq").toInt? ≠ some (i : ℤ) then
      .ok <| .broken <| entry i ++ js ": seq is " ++ (stringify <| e.get "seq").getD (js "undefined") ++
        js " but expected " ++ natText i ++ js " (reordered, deleted, or inserted)"
    else if (e.get "prevHash").toString? ≠ some expectedPrevHash then
      .ok <| .broken <|
        if i = 0 then
          js "entry 0: prevHash " ++ (stringify <| e.get "prevHash").getD (js "undefined") ++
            js " is not the genesis constant"
        else
          entry i ++ js ": prevHash does not match " ++ entry (i - 1) ++ js "'s entryHash (chain broken)"
    else do
      let recomputed ← computeEntryHash keccak256 toUtf8Bytes e
      if (e.get "entryHash").toString? ≠ some recomputed then
        return .broken <| entry i ++
          js ": entryHash does not match its contents (a field was edited or forged)"
      else
        return .sound recomputed
where
  entry (i : ℕ) : JsString :=
    js "entry " ++ natText i

-- The loop of `verifyJournal` from position `i` on.
def verifyFrom (expectedPrevHash : JsString) (i : ℕ) : List Value → Except JsString Verdict
  | []      => .ok <| .ok i expectedPrevHash
  | e :: es => do
    match ← checkEntry keccak256 toUtf8Bytes expectedPrevHash i e with
    | .broken reason   => return .broken i reason
    | .sound entryHash => verifyFrom entryHash (i + 1) es

def verifyJournal (entries : Value) : Except JsString Verdict :=
  match entries with
  | .array es => verifyFrom keccak256 toUtf8Bytes (GENESIS_PREV_HASH keccak256) 0 es
  | _         => .ok <| .broken 0 <| js "journal must be an array of entries"

-- `lastEntry` of `cli/journal-cli.js`
def lastEntry (entries : List Value) : Value :=
  entries.getLast?.getD null

-- A journal with one more entry.
def appendTo (entries : List Value) (observation : Value) : Except JsString (List Value) := do
  let entry ← appendEntry keccak256 toUtf8Bytes (lastEntry entries) observation
  return entries ++ [entry]

-- The journal of observations which are appended one by one.
def appendAll (observations : List Value) : Except JsString (List Value) :=
  observations.foldlM (appendTo keccak256 toUtf8Bytes) []

end

-- The line which `runJournalAppend` adds to the file.
def journalLine (entry : Value) : Except JsString JsString := do
  let text ← canonicalize entry
  return text ++ js "\n"

-- The code units which `trim` removes.
def isBlank (u : UInt16) : Bool :=
  9 ≤ u ∧ u ≤ 13 ∨ u = 32 ∨ u = 0xA0 ∨ u = 0x1680 ∨ 0x2000 ≤ u ∧ u ≤ 0x200A ∨ u = 0x2028 ∨ u = 0x2029 ∨
    u = 0x202F ∨ u = 0x205F ∨ u = 0x3000 ∨ u = 0xFEFF

section

-- The messages of a `SyntaxError` are not fixed by the language.
variable (syntaxError : JsString → JsString) (journalPath : JsString)

-- The entry of the line at an index, if there is one.
def readLine (line : JsString) (i : ℕ) : Except JsString (Option Value) :=
  if line.all isBlank then
    .ok none
  else
    match parse line with
    | some obj => .ok <| some obj
    | none     => .error <| js "journal " ++ journalPath ++ js " line " ++ natText (i + 1) ++
        js " is not valid JSON: " ++ syntaxError line

-- `readJournalFile` for the text of a file.
def readJournalFile (raw : JsString) : Except JsString (List Value) := do
  let lines := raw.splitOn 10
  let entries ← lines.zipIdx.mapM fun (line, i) => readLine syntaxError journalPath line i
  return entries.reduceOption

end

end Journal
