import Verifyhash.Data.Value
import Verifyhash.Data.Unicode
import Verifyhash.Library.Double

-- The parser of `verifier-rs/src/json.rs`. A string is the list of its scalar values, and a text is the
-- list of its bytes. An offset is given by the bytes which remain of the `total` ones.
namespace RustJson

inductive Value
  | null
  | bool (b : Bool)
  | number (n : Number)
  | string (s : List Char)
  | array (items : List Value)
  | object (map : List (List Char × Value))

namespace Value

def as_str : Value → Option (List Char)
  | string s => some s
  | _        => none

def as_array : Value → Option (List Value)
  | array a => some a
  | _       => none

def get (v : Value) (key : List Char) : Option Value :=
  match v with
  | object m => m.lookup key
  | _        => none

end Value

def isWhitespace (b : UInt8) : Bool :=
  b = 32 ∨ b = 9 ∨ b = 10 ∨ b = 13

def skip_ws (rest : Bytes) : Bytes :=
  rest.dropWhile isWhitespace

-- Errors with the offset of the remaining bytes.
def expect (total : ℕ) (c : UInt8) (rest : Bytes) : Except String Bytes :=
  if rest.head? = some c then .ok rest.tail else
    .error s!"expected '{Char.ofNat c.toNat}' at byte {total - rest.length}"

def nibble (d : UInt8) : Except String ℕ :=
  if 48 ≤ d ∧ d ≤ 57 then .ok (d.toNat - 48)
  else if 97 ≤ d ∧ d ≤ 102 then .ok (d.toNat - 97 + 10)
  else if 65 ≤ d ∧ d ≤ 70 then .ok (d.toNat - 65 + 10)
  else .error "invalid hex digit in \\u escape"

def parse_hex4 (rest : Bytes) : Except String (ℕ × Bytes) :=
  if rest.length < 4 then
    .error "truncated \\u escape"
  else do
    let ds ← (rest.take 4).mapM nibble
    return (Numeral.value 16 ds, rest.drop 4)

-- `char::from_u32`
def from_u32 (n : ℕ) (message : String) : Except String Char :=
  if n.isValidChar then .ok (Char.ofNat n) else .error message

-- The character of a `\u` escape, of which the `u` has been read.
def parse_unicode (rest : Bytes) : Except String (Char × Bytes) := do
  let (cp, rest) ← parse_hex4 rest
  if 0xD800 ≤ cp ∧ cp ≤ 0xDBFF then
    if rest.take 2 ≠ [92, 117] then
      .error "expected low surrogate"
    else do
      let (lo, rest) ← parse_hex4 (rest.drop 2)
      if 0xDC00 ≤ lo ∧ lo ≤ 0xDFFF then
        return (← from_u32 (0x10000 + (cp - 0xD800) * 2 ^ 10 + (lo - 0xDC00)) "invalid surrogate pair", rest)
      else
        .error "invalid low surrogate"
  else
    return (← from_u32 cp "invalid \\u escape", rest)

-- The character of an escape, of which the backslash has been read.
def parse_escape (rest : Bytes) : Except String (Char × Bytes) :=
  match rest with
  | []          => .error "unterminated escape"
  | esc :: rest =>
    if esc = 34 then .ok ('"', rest)
    else if esc = 92 then .ok ('\\', rest)
    else if esc = 47 then .ok ('/', rest)
    else if esc = 98 then .ok (Char.ofNat 8, rest)
    else if esc = 102 then .ok (Char.ofNat 12, rest)
    else if esc = 110 then .ok ('\n', rest)
    else if esc = 114 then .ok ('\r', rest)
    else if esc = 116 then .ok ('\t', rest)
    else if esc = 117 then parse_unicode rest
    else .error s!"invalid escape \\{Char.ofNat esc.toNat}"

-- `std::str::from_utf8`
def from_utf8 (bytes : Bytes) : Option (List Char) :=
  bytes.toByteArray.utf8Decode?.map Array.toList

-- The length of a sequence with a lead byte.
def sequenceLength (c : UInt8) : Option ℕ :=
  if c < 0x80 then some 1
  else if c >>> 5 = 0b110 then some 2
  else if c >>> 4 = 0b1110 then some 3
  else if c >>> 3 = 0b11110 then some 4
  else none

-- The characters of the sequence at the start of the bytes, whose first one is `c`.
def parse_raw (c : UInt8) (bytes : Bytes) : Except String (List Char × Bytes) :=
  match sequenceLength c with
  | none     => .error "invalid UTF-8 lead byte"
  | some len =>
    if len > bytes.length then
      .error "truncated UTF-8 sequence"
    else
      match from_utf8 (bytes.take len) with
      | none   => .error "invalid UTF-8"
      | some s => .ok (s, bytes.drop len)

-- The loop of `parse_string`, which reads at least one byte each time.
def string_loop : (fuel : ℕ) → (rest : Bytes) → (out : List Char) → Except String (List Char × Bytes)
  | 0,        _,         _   => .error "unterminated string"
  | _ + 1,    [],        _   => .error "unterminated string"
  | fuel + 1, c :: rest, out =>
    if c = 34 then
      .ok (out, rest)
    else if c = 92 then do
      let (ch, rest) ← parse_escape rest
      string_loop fuel rest (out ++ [ch])
    else do
      let (s, rest) ← parse_raw c (c :: rest)
      string_loop fuel rest (out ++ s)

def parse_string (total : ℕ) (rest : Bytes) : Except String (List Char × Bytes) := do
  let rest ← expect total 34 rest
  string_loop (rest.length + 1) rest []

def isDigit (b : UInt8) : Bool :=
  48 ≤ b ∧ b ≤ 57

-- The bytes which the loop of `parse_number` reads.
def isNumeric (b : UInt8) : Bool :=
  isDigit b ∨ b = 46 ∨ b = 101 ∨ b = 69 ∨ b = 43 ∨ b = 45

def digitsValue (ds : Bytes) : ℕ :=
  Numeral.value 10 <| ds.map fun b => b.toNat - 48

def exponent? (s : Bytes) : Option ℤ :=
  match s with
  | []     => some 0
  | e :: s =>
    if e = 101 ∨ e = 69 then
      let neg := s.head? = some 45
      let ds := if neg ∨ s.head? = some 43 then s.tail else s
      if ds ≠ [] ∧ ds.all isDigit then some (if neg then -digitsValue ds else digitsValue ds) else none
    else
      none

-- `s.parse::<f64>()`, for a text of bytes which can be part of a number.
def parse_f64 (s : Bytes) : Option Number :=
  let neg := s.head? = some 45
  let s := if neg ∨ s.head? = some 43 then s.tail else s
  let int := s.takeWhile isDigit
  let s := s.dropWhile isDigit
  let fraction := if s.head? = some 46 then s.tail.takeWhile isDigit else []
  let s := if s.head? = some 46 then s.tail.dropWhile isDigit else s
  if int = [] ∧ fraction = [] then
    none
  else
    (exponent? s).map fun (e : ℤ) =>
      match Double.round ((digitsValue (int ++ fraction) : ℚ) * 10 ^ (e - fraction.length)) with
      | none   => .infinity neg
      | some q => if neg then if q = 0 then .negZero else .finite (-q) else .finite q

def parse_number (rest : Bytes) : Except String (Value × Bytes) :=
  let sign := if rest.head? = some 45 then 1 else 0
  let s := rest.take sign ++ (rest.drop sign).takeWhile isNumeric
  match parse_f64 s with
  | some n => .ok (.number n, (rest.drop sign).dropWhile isNumeric)
  | none   => .error s!"invalid number '{String.ofList (s.map fun b => Char.ofNat b.toNat)}'"

def literal (total : ℕ) (text : String) (v : Value) (rest : Bytes) : Except String (Value × Bytes) :=
  if (Bytes.ofAscii text).isPrefixOf rest then .ok (v, rest.drop text.length) else
    .error s!"invalid literal at byte {total - rest.length}"

def parse_bool (total : ℕ) (rest : Bytes) : Except String (Value × Bytes) :=
  if (Bytes.ofAscii "true").isPrefixOf rest then
    .ok (.bool true, rest.drop 4)
  else
    literal total "false" (.bool false) rest

-- A byte as two hexadecimal digits.
def hexByte (c : UInt8) : String :=
  String.ofList [Nat.digitChar (c.toNat / 16), Nat.digitChar (c.toNat % 16)]

mutual

-- The recursion and the loops read at least one byte each time, so that fuel for the length of the text
-- is enough.
def parse_value (total : ℕ) : (fuel : ℕ) → (rest : Bytes) → Except String (Value × Bytes)
  | 0,        _    => .error "unexpected end of input"
  | fuel + 1, rest =>
    match skip_ws rest with
    | []        => .error "unexpected end of input"
    | c :: rest =>
      if c = 123 then
        let rest := skip_ws rest
        if rest.head? = some 125 then .ok (.object [], rest.tail) else object_loop total fuel rest []
      else if c = 91 then
        let rest := skip_ws rest
        if rest.head? = some 93 then .ok (.array [], rest.tail) else array_loop total fuel rest []
      else if c = 34 then
        (parse_string total (c :: rest)).map fun p => (.string p.fst, p.snd)
      else if c = 116 ∨ c = 102 then parse_bool total (c :: rest)
      else if c = 110 then literal total "null" .null (c :: rest)
      else if c = 45 ∨ isDigit c then parse_number (c :: rest)
      else
        .error s!"unexpected byte 0x{hexByte c} at {total - (rest.length + 1)}"

-- The loop of `parse_object`. The entry which was inserted last is the first one.
def object_loop (total : ℕ) :
    (fuel : ℕ) → (rest : Bytes) → (map : List (List Char × Value)) → Except String (Value × Bytes)
  | 0,        _,    _   => .error "unexpected end of input"
  | fuel + 1, rest, map => do
    let rest := skip_ws rest
    if rest.head? ≠ some 34 then
      .error s!"expected object key at byte {total - rest.length}"
    else do
      let (key, rest) ← parse_string total rest
      let rest ← expect total 58 (skip_ws rest)
      let (val, rest) ← parse_value total fuel rest
      let rest := skip_ws rest
      if rest.head? = some 44 then object_loop total fuel rest.tail ((key, val) :: map)
      else if rest.head? = some 125 then .ok (.object ((key, val) :: map), rest.tail)
      else .error s!"expected ',' or '\x7d' at byte {total - rest.length}"

-- The loop of `parse_array`.
def array_loop (total : ℕ) :
    (fuel : ℕ) → (rest : Bytes) → (items : List Value) → Except String (Value × Bytes)
  | 0,        _,    _     => .error "unexpected end of input"
  | fuel + 1, rest, items => do
    let (val, rest) ← parse_value total fuel rest
    let rest := skip_ws rest
    if rest.head? = some 44 then array_loop total fuel rest.tail (items ++ [val])
    else if rest.head? = some 93 then .ok (.array (items ++ [val]), rest.tail)
    else .error s!"expected ',' or ']' at byte {total - rest.length}"

end

def parse (input : List Char) : Except String Value := do
  let bytes := Unicode.utf8 input
  let (v, rest) ← parse_value bytes.length (2 * bytes.length + 2) (skip_ws bytes)
  let rest := skip_ws rest
  if rest = [] then return v else
    .error s!"trailing data at byte {bytes.length - rest.length}"

end RustJson
