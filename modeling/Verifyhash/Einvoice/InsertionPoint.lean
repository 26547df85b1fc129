import Verifyhash.Einvoice.SyntaxBinding

-- The insertion points of `einvoice/validate.py`
namespace InsertionPoint

open SyntaxBinding

-- A finding of the rules, which is a named tuple.
structure Violation where
  ruleId             : Str
  message            : Str
  element            : Option Str
  severity           : Str := str "fatal"
  sourceLine         : Option ℤ := none
  insertionPointLine : Option ℤ := none
  deriving DecidableEq

-- The table of Unicode tells which characters outside of ASCII are in `\w`, and the parser stamps the lines on the
-- elements.
structure Env where
  isUnicodeWord : Char → Bool
  -- `_sourceline`
  sourceline    : ℕ → Option ℤ
  -- The `location_hint` of a rule in the catalog
  location      : Str → Option Str

namespace Env

variable (env : Env)

-- `[\w.\-]`
def isNameChar (c : Char) : Bool :=
  c.isAlphanum ∨ c = '_' ∨ c = '.' ∨ c = '-' ∨ (128 ≤ c.val ∧ env.isUnicodeWord c)

-- `[A-Za-z_][\w.\-]*`
def isName : Str → Bool
  | []     => false
  | c :: s => (c.isAlpha ∨ c = '_') ∧ s.all env.isNameChar

def isQName (s : Str) : Bool :=
  env.isName s ∨ (':' ∈ s ∧ env.isName (Str.cut ':' s).fst ∧ env.isName (Str.cut ':' s).snd)

-- `_PATH_SEGMENT_RE`, where `$` also matches before a line feed at the end
def isPathSegment (s : Str) : Bool :=
  env.isQName s ∨ (s.getLast? = some '\n' ∧ env.isQName s.dropLast)

end Env

-- `_segment_localname`
def segmentLocalname (segment : Str) : Str :=
  segment.rtakeWhile (· ≠ ':')

-- The child is an element with the name of the segment.
def isNamed (segment : Str) (child : Element) : Bool :=
  match child.tag with
  | .name tag => localName tag = segmentLocalname segment
  | _         => false

-- The loop over the segments. It returns the last element which is reached before a segment without a match, and its
-- depth, and nothing when a segment is ambiguous or all have a match.
def walk (node : Element) (depth : ℕ) : List Str → Option (Element × ℕ)
  | []                  => none
  | segment :: segments =>
    match node.children.filter (isNamed segment) with
    | []      => some (node, depth)
    | [child] => walk child (depth + 1) segments
    | _       => none

variable (env : Env) (root : Element)

-- The segments of a path which are walked from the root
def segmentsBelow (path : Str) : Option (List Str) :=
  let raw := Str.strip path
  let segments := (raw.splitOn '/').filter (· ≠ [])
  if raw = [] then none
  else if raw.take 2 = str "//" then none
  else if segments = [] then none
  else if ¬ segments.all env.isPathSegment then none
  else if raw.head? = some '/' then
    if segmentLocalname (segments.headD []) ≠ localname root.tag then none
    else if segments.tail = [] then none
    else some segments.tail
  else some segments

-- `_insertionPointLine`
def insertionPointLine (path : Option Str) : Option ℤ := do
  let segments ← segmentsBelow env root (← path)
  let (node, depth) ← walk root 0 segments
  if depth = 0 then none
  let line ← env.sourceline node.id
  if line < 1 then none
  return line

-- The path of a finding, or else the location for its rule
def pathOf (v : Violation) : Option Str :=
  if Str.strip (v.element.getD []) = [] then env.location v.ruleId else v.element

def stamp (v : Violation) : Violation :=
  if v.sourceLine.isSome then v
  else
    match insertionPointLine env root (pathOf env v) with
    | none      => v
    | some line => { v with insertionPointLine := some line }

-- `_stamp_insertion_points`
def stampInsertionPoints (violations : List Violation) : List Violation :=
  violations.map <| stamp env root

end InsertionPoint
