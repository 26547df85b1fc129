import Verifyhash.Data.Json.Grammar

-- The strict parser for webhook bodies in `cli/core/fulfill-intake.js`.
namespace Intake

open Json

structure FulfillIntakeError where
  message : JsString
  deriving DecidableEq

section

-- The length of the text, from which the position of an error is computed.
variable (n : ℕ)

def err (msg rest : JsString) : Except FulfillIntakeError α :=
  .error ⟨js "invalid webhook JSON: " ++ msg ++ js " at position " ++ natText (n - rest.length)⟩

-- A string after its opening quotation mark, and the rest of the text.
def parseString : JsString → Except FulfillIntakeError (JsString × JsString)
  | []     => err n (js "unterminated string") []
  | u :: s =>
    if u = 34 then .ok ([], s)
    else if u = 92 then
      match s with
      | []     => err n (js "unterminated escape") []
      | e :: s =>
        if e = 117 then
          match s with
          | a :: b :: c :: d :: s' =>
            match unhex4 [a, b, c, d] with
            | some u => (parseString s').map fun p => (u :: p.1, p.2)
            | none   => err n (js "invalid \\u escape") s
          | s => err n (js "invalid \\u escape") s
        else
          match unescape e with
          | some u => (parseString s).map fun p => (u :: p.1, p.2)
          | none   => err n (js "invalid escape \\" ++ [e]) s
    else if u < 32 then err n (js "unescaped control character in string") s
    else (parseString s).map fun p => (u :: p.1, p.2)

-- `text[i] >= "0" && text[i] <= "9"`, which is false at the end of the text
def digitAt (s : JsString) : Bool :=
  s.head?.any isDigit

-- The digits which come next are required.
def skipDigits (msg : String) (s : JsString) : Except FulfillIntakeError JsString :=
  if digitAt s then .ok (s.dropWhile isDigit) else err n (js msg) s

def skipInt (s : JsString) : Except FulfillIntakeError JsString :=
  if s.head? = some 48 then .ok (s.drop 1) else skipDigits n "invalid number" s

def skipFraction (s : JsString) : Except FulfillIntakeError JsString :=
  if s.head? = some 46 then skipDigits n "invalid fraction" (s.drop 1) else .ok s

def skipSign (s : JsString) : JsString :=
  if s.head? = some 43 ∨ s.head? = some 45 then s.drop 1 else s

def skipExponent (s : JsString) : Except FulfillIntakeError JsString :=
  if s.head? = some 101 ∨ s.head? = some 69 then skipDigits n "invalid exponent" <| skipSign <| s.drop 1 else .ok s

def parseNumber (start : JsString) : Except FulfillIntakeError (Number × JsString) := do
  let s ← skipInt n <| if start.head? = some 45 then start.drop 1 else start
  let s ← skipFraction n s
  let s ← skipExponent n s
  return (toNumber <| start.take (start.length - s.length), s)

variable (maxDepth : ℕ)

mutual

-- A value at the start of a text, and the rest of the text. The recursion stops after `fuel` steps.
def parseValue : ℕ → ℕ → JsString → Except FulfillIntakeError (Value × JsString)
  | 0, _, s            => err n (js "unexpected end of input") s
  | fuel + 1, depth, s =>
    if depth > maxDepth then err n (js "nesting exceeds max depth " ++ natText maxDepth) s
    else
      match skip s with
      | []     => err n (js "unexpected end of input") []
      | u :: s =>
        if u = 123 then
          match expect (js "\x7d") (skip s) with
          | some s => .ok (.object [], s)
          | none   => (parseFields fuel depth [] s).map fun p => (.object p.1, p.2)
        else if u = 91 then
          match expect (js "]") (skip s) with
          | some s => .ok (.array [], s)
          | none   => (parseElems fuel depth s).map fun p => (.array p.1, p.2)
        else if u = 34 then (parseString n s).map fun p => (.string p.1, p.2)
        else if u = 45 ∨ isDigit u then (parseNumber n (u :: s)).map fun p => (.number p.1, p.2)
        else
          match expect (js "true") (u :: s), expect (js "false") (u :: s), expect (js "null") (u :: s) with
          | some s, _, _       => .ok (.bool true, s)
          | none, some s, _    => .ok (.bool false, s)
          | none, none, some s => .ok (.null, s)
          | none, none, none   => err n (js "unexpected token " ++ quote [u]) (u :: s)

-- The loop over the fields of an object, which has those before.
def parseFields : ℕ → ℕ → List (JsString × Value) → JsString →
    Except FulfillIntakeError (List (JsString × Value) × JsString)
  | 0, _, _, s              => err n (js "unexpected end of input") s
  | fuel + 1, depth, obj, s =>
    match skip s with
    | []     => err n (js "expected object key string") []
    | u :: s =>
      if u ≠ 34 then err n (js "expected object key string") (u :: s)
      else do
        let (key, s) ← parseString n s
        if key ∈ obj.map Prod.fst then
          .error ⟨js "invalid webhook JSON: duplicate object key " ++ quote key⟩
        else
          match expect (js ":") (skip s) with
          | none   => err n (js "expected ':' after object key") (skip s)
          | some s => do
            let (value, s) ← parseValue fuel (depth + 1) s
            let obj := obj ++ [(key, value)]
            match expect (js ",") (skip s), expect (js "\x7d") (skip s) with
            | some s, _    => parseFields fuel depth obj s
            | none, some s => .ok (obj, s)
            | none, none   => err n (js "expected ',' or '\x7d' in object") (skip s)

-- The loop over the elements of an array.
def parseElems : ℕ → ℕ → JsString → Except FulfillIntakeError (List Value × JsString)
  | 0, _, s            => err n (js "unexpected end of input") s
  | fuel + 1, depth, s => do
    let (value, s) ← parseValue fuel (depth + 1) s
    match expect (js ",") (skip s), expect (js "]") (skip s) with
    | some s, _    => (parseElems fuel depth s).map fun p => (value :: p.1, p.2)
    | none, some s => .ok ([value], s)
    | none, none   => err n (js "expected ',' or ']' in array") (skip s)

end

end

-- `_strictJsonParse`. Two steps are enough for each code unit.
def strictJsonParse (text : JsString) (maxDepth : ℕ) : Except FulfillIntakeError Value := do
  let (value, s) ← parseValue text.length maxDepth (2 * text.length + 1) 0 (skip text)
  if skip s ≠ [] then
    err text.length (js "unexpected trailing content") (skip s)
  else
    return value

end Intake
