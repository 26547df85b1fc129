import Verifyhash.Einvoice.Tree

-- The test of an account number in `einvoice/rules_xrechnung.py`.
namespace Iban

-- `text.split()`
def words (text : Str) : List Str :=
  (text.splitOnP Str.isSpace).filter (· ≠ [])

-- `_nsp`
def nsp (text : Option Str) : Str :=
  match text with
  | none      => []
  | some text => [' '].intercalate <| words text

-- `_XP_WHITESPACE_RE.sub("", text)`
def removeSpaces (text : Str) : Str :=
  text.filter (· ∉ [' ', '\n', '\r', '\t'])

def isDigit (c : Char) : Bool :=
  '0' ≤ c ∧ c ≤ '9'

def isUpper (c : Char) : Bool :=
  'A' ≤ c ∧ c ≤ 'Z'

def isLower (c : Char) : Bool :=
  'a' ≤ c ∧ c ≤ 'z'

-- `_IBAN_SHAPE_RE.match(s)`, for a text without newlines, before the last of which `$` also matches.
def hasShape (s : Str) : Bool :=
  4 ≤ s.length ∧ (s.take 2).all isUpper ∧ ((s.drop 2).take 2).all isDigit ∧ (s.drop 4).length ≤ 30 ∧
    (s.drop 4).all fun c => isLower c ∨ isUpper c ∨ isDigit c

-- The number whose decimal text replaces a character.
def code (c : Char) : ℕ :=
  if c.toNat > 64 then c.toNat - 55 else c.toNat - 48

-- `int(digits)` for a text of decimal digits.
def int (digits : Str) : ℕ :=
  Nat.ofDigitChars 10 digits 0

-- `_iban_ok`
def ibanOk (raw : Option Str) : Bool :=
  let s := nsp <| some <| removeSpaces <| raw.getD []
  if ¬ hasShape s then
    false
  else
    let rearranged := s.drop 4 ++ (s.take 2).map Char.toUpper ++ (s.drop 2).take 2
    let digits := rearranged.flatMap fun c => Nat.toDigits 10 (code c)
    int digits % 97 = 1

end Iban
