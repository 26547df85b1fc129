import Verifyhash.Data.Instant
import Verifyhash.Data.Words
import Verifyhash.Data.Bytes

-- The reader of timestamp tokens of `cli/core/rfc3161.js`. Its inputs are the bytes of a buffer.
namespace Rfc3161

open Value Json

-- What is thrown: a `DerError` with its message. The failure `overRead` stands for an access beyond
-- the end of the buffer, which JavaScript does not report.
inductive Failure
  | der (message : JsString)
  | overRead
  deriving DecidableEq

def derError (message : JsString) : Except Failure α :=
  .error <| .der <| js "RFC-3161 DER: " ++ message

-- `if (c) throw new DerError(message)`
def throwIf (c : Prop) [Decidable c] (message : JsString) : Except Failure PUnit :=
  if c then derError message else .ok ⟨⟩

def OID.signedData : JsString :=
  js "1.2.840.113549.1.7.2"

def OID.tstInfo : JsString :=
  js "1.2.840.113549.1.9.16.1.4"

namespace TAG

def INTEGER : UInt8 :=
  0x02

def OCTET_STRING : UInt8 :=
  0x04

def OID : UInt8 :=
  0x06

def SEQUENCE : UInt8 :=
  0x30

def SET : UInt8 :=
  0x31

def GENERALIZED_TIME : UInt8 :=
  0x18

end TAG

-- A value, with its tag, at the positions from `valStart` up to `valEnd`.
structure TLV where
  tag      : UInt8
  valStart : ℕ
  valEnd   : ℕ
  deriving DecidableEq

def TLV.next (t : TLV) : ℕ :=
  t.valEnd

-- `buf[p]`
def byteAt (buf : Bytes) (p : ℕ) : Except Failure UInt8 :=
  match buf[p]? with
  | some b => .ok b
  | none   => .error .overRead

-- The bytes which `buf.toString` decodes.
def slice (buf : Bytes) (valStart valEnd : ℕ) : Except Failure Bytes :=
  if valEnd ≤ buf.length then .ok <| (buf.drop valStart).take (valEnd - valStart) else .error .overRead

-- The big-endian number in the next `count` bytes, and the position after them.
def readLength (buf : Bytes) : (count p len : ℕ) → Except Failure (ℕ × ℕ)
  | 0,         p, len => .ok (len, p)
  | count + 1, p, len => do
    let b ← byteAt buf p
    readLength buf count (p + 1) (len * 256 + b.toNat)

-- The length in a field whose first byte is `lenByte`, which precedes position `p`, and the position
-- after the field.
def lengthField (buf : Bytes) (lenByte : UInt8) (p limit : ℕ) : Except Failure (ℕ × ℕ) := do
  if lenByte < 0x80 then
    return (lenByte.toNat, p)
  else if lenByte = 0x80 then
    derError <| js "indefinite length is forbidden in DER"
  else
    let numBytes := (lenByte &&& 0x7f).toNat
    throwIf (numBytes > 4) <| js "length field too large"
    throwIf (p + numBytes > limit) <| js "truncated long-form length"
    let (len, p) ← readLength buf numBytes p 0
    throwIf (numBytes = 1 ∧ len < 0x80) <| js "non-minimal long-form length"
    let b ← byteAt buf (p - numBytes)
    throwIf (b = 0x00) <| js "non-minimal long-form length (leading zero)"
    return (len, p)

-- The value at position `pos`, where `limit` is the `end` of the source.
def readTLV (buf : Bytes) (pos limit : ℕ) : Except Failure TLV := do
  throwIf (pos ≥ limit) <| js "unexpected end of input while reading tag"
  let tag ← byteAt buf pos
  throwIf (tag &&& 0x1f = 0x1f) <| js "high-tag-number form is unsupported"
  throwIf (pos + 1 ≥ limit) <| js "unexpected end of input while reading length"
  let lenByte ← byteAt buf (pos + 1)
  let (len, p) ← lengthField buf lenByte (pos + 2) limit
  throwIf (p + len > limit) <| js "value length runs past end of input"
  return ⟨tag, p, p + len⟩

-- The two hexadecimal digits of a byte.
def hexByte (b : UInt8) : JsString :=
  [Hex.lowerDigit (b.toNat / 16), Hex.lowerDigit (b.toNat % 16)]

def expectTLV (buf : Bytes) (pos limit : ℕ) (wantTag : UInt8) (what : String) : Except Failure TLV := do
  let t ← readTLV buf pos limit
  throwIf (t.tag ≠ wantTag) <| js "expected " ++ js what ++ js " (tag 0x" ++ hexByte wantTag ++
    js ") but found tag 0x" ++ hexByte t.tag
  return t

-- `val * 128 + low` for a number which is a double, or infinite if it is `none`.
def accumulate (val : Option ℚ) (low : ℕ) : Option ℚ := do
  let val ← val
  let val ← Double.round (val * 128)
  Double.round (val + low)

def arcText : Option ℚ → JsString
  | none   => numberString <| .infinity false
  | some q => numberString <| .finite q

-- The loop of `decodeOID` over the positions from `i` on, with the texts of the parts so far.
def decodeArcs (buf : Bytes) :
    (count i : ℕ) → (val : Option ℚ) → (started : Bool) → (parts : List JsString) → Except Failure (List JsString)
  | 0,         _, _,   started, parts =>
    if started then derError <| js "truncated OID (last sub-identifier unterminated)" else .ok parts
  | count + 1, i, val, started, parts => do
    let b ← byteAt buf i
    throwIf (¬ started ∧ b = 0x80) <| js "non-minimal OID sub-identifier"
    let val := accumulate val (b &&& 0x7f).toNat
    if b &&& 0x80 = 0 then
      decodeArcs buf count (i + 1) (some 0) false (parts ++ [arcText val])
    else
      decodeArcs buf count (i + 1) val true parts

-- `parts.join(".")`
def joinArcs (parts : List JsString) : JsString :=
  (js ".").intercalate parts

def decodeOID (buf : Bytes) (valStart valEnd : ℕ) : Except Failure JsString := do
  throwIf (valEnd ≤ valStart) <| js "empty OID"
  let first ← byteAt buf valStart
  let parts := [js <| toString (first.toNat / 40), js <| toString (first.toNat % 40)]
  let parts ← decodeArcs buf (valEnd - (valStart + 1)) (valStart + 1) (some 0) false parts
  return joinArcs parts

-- An integer, as its hexadecimal text and its value, of which the source has the decimal text.
structure UInt where
  hex     : JsString
  decimal : ℕ
  deriving DecidableEq

-- The tests of the first two bytes of an integer.
def checkMinimal (buf : Bytes) (valStart valEnd : ℕ) (first : UInt8) (what : String) : Except Failure PUnit := do
  if valEnd - valStart ≥ 2 then
    let second ← byteAt buf (valStart + 1)
    throwIf (first = 0x00 ∧ second &&& 0x80 = 0) <| js s!"non-minimal INTEGER encoding ({what})"
    throwIf (first = 0xff ∧ second &&& 0x80 ≠ 0) <| js s!"non-minimal negative INTEGER encoding ({what})"

def decodeUInt (buf : Bytes) (valStart valEnd : ℕ) (what : String) : Except Failure UInt := do
  throwIf (valEnd ≤ valStart) <| js s!"empty INTEGER ({what})"
  let first ← byteAt buf valStart
  checkMinimal buf valStart valEnd first what
  throwIf (first &&& 0x80 ≠ 0) <| js s!"negative INTEGER not supported ({what})"
  let start := if first = 0x00 ∧ valEnd - valStart > 1 then valStart + 1 else valStart
  let bytes ← slice buf start valEnd
  let hex := bytes.flatMap hexByte
  return ⟨if hex = [] then js "00" else hex, Numeral.value 256 <| bytes.map UInt8.toNat⟩

-- `buf.toString("ascii", valStart, valEnd)`, which drops the high bit of every byte.
def asciiText (bytes : Bytes) : JsString :=
  bytes.map fun b => .ofNat (b.toNat % 128)

-- The test of `/^(\d{4})(\d{2})(\d{2})(\d{2})(\d{2})(\d{2})(?:\.(\d+))?Z$/`.
def isGenTime (raw : JsString) : Bool :=
  let rest := raw.drop 14
  (raw.take 14).length = 14 ∧ (raw.take 14).all isDigit ∧
    (rest = js "Z" ∨
      rest.take 1 = js "." ∧ 3 ≤ rest.length ∧ (rest.drop 1).dropLast.all isDigit ∧ rest.getLast? = some 90)

-- The digits of the fraction of a text which passes the test, where `none` is `undefined`.
def fraction? (raw : JsString) : Option JsString :=
  if raw.length = 15 then none else some <| (raw.drop 15).dropLast

-- The test of `/[+-]\d{2,4}$/`.
def isOffset (raw : JsString) : Bool :=
  [2, 3, 4].any fun n =>
    n < raw.length ∧ (raw.drop (raw.length - n)).all isDigit ∧
      ((raw.drop (raw.length - n - 1)).take 1 = js "+" ∨ (raw.drop (raw.length - n - 1)).take 1 = js "-")

-- `frac.replace(/0+$/, "")`
def trimZeros (frac : JsString) : JsString :=
  (frac.reverse.dropWhile (· = 48)).reverse

-- `Math.round(Number("0." + frac) * 1000)`, unless it is infinite.
def milliseconds (frac : JsString) : Option ℤ := do
  let q ← Double.round (digitsValue frac / 10 ^ frac.length)
  let q ← Double.round (q * 1000)
  return ⌊q + 1 / 2⌋

-- `Date.UTC` with the months from one on. The years from 0 to 99 stand for those from 1900 on.
def dateUTC (year month day hour min sec ms : ℤ) : Option ℤ :=
  let fullYear := if 0 ≤ year ∧ year ≤ 99 then 1900 + year else year
  let epoch :=
    86400000 * Instant.daysFromCivil fullYear month day + 3600000 * hour + 60000 * min + 1000 * sec + ms
  if epoch.natAbs ≤ 8640000000000000 then some epoch else none

structure GenTime where
  iso     : JsString
  epochMs : ℤ
  deriving DecidableEq

-- A message about the text of a time.
def about (message : String) (raw : JsString) : JsString :=
  js message ++ js " \"" ++ raw ++ js "\""

-- The digits of the fraction, without the point, or no digits.
def decodeFraction (raw : JsString) : Except Failure JsString :=
  match fraction? raw with
  | none      => .ok []
  | some frac =>
    if trimZeros frac = [] then
      derError <| about "genTime fractional seconds must not be all-zero" raw
    else if trimZeros frac ≠ frac then
      derError <| about "genTime fractional seconds must not have trailing zeros" raw
    else
      .ok <| trimZeros frac

open Instant in
-- The time which is spelled by a text which passes the test.
def decodeFields (raw : JsString) : Except Failure GenTime := do
  let (year, month, day) := (part raw 0 4, part raw 4 2, part raw 6 2)
  let (hour, min, sec) := (part raw 8 2, part raw 10 2, part raw 12 2)
  throwIf (month < 1 ∨ month > 12) <| about "genTime month out of range" raw
  throwIf (day < 1 ∨ day > 31) <| about "genTime day out of range" raw
  throwIf (hour > 23 ∨ min > 59 ∨ sec > 60) <| about "genTime time-of-day out of range" raw
  let fracStr ← decodeFraction raw
  let ms := if fracStr = [] then some 0 else milliseconds fracStr
  match ms.bind (dateUTC year month day hour min sec) with
  | none       => derError <| about "genTime is not a valid date" raw
  | some epoch =>
    return {
      iso     := pad 4 year ++ js "-" ++ pad 2 month ++ js "-" ++ pad 2 day ++ js "T" ++ pad 2 hour ++ js ":" ++
        pad 2 min ++ js ":" ++ pad 2 sec ++ (if fracStr = [] then [] else js "." ++ fracStr) ++ js "Z"
      epochMs := epoch
    }

def decodeGeneralizedTime (buf : Bytes) (valStart valEnd : ℕ) : Except Failure GenTime := do
  let raw := asciiText (← slice buf valStart valEnd)
  if isGenTime raw then
    decodeFields raw
  else if isOffset raw then
    derError <| about "genTime must be UTC (trailing Z); got offset form" raw
  else if raw.getLast? ≠ some 90 then
    derError <| about "genTime must be UTC (trailing Z); got zoneless" raw
  else
    derError <| about "malformed GeneralizedTime" raw

end Rfc3161
