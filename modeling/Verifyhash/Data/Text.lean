import Verifyhash.Data.Json.Canonical

-- The conversions of values to strings, and the patterns which the strings are tested for.
namespace Value

open Json

-- `String(n)`
def numberString : Number → JsString
  | .nan            => js "NaN"
  | .infinity false => js "Infinity"
  | .infinity true  => js "-Infinity"
  | n               => numberText n

mutual

-- `String(v)`. A property `toString` of an object is not a function, so that the conversion throws,
-- and then the result is `none`.
def toText : Value → Option JsString
  | .undefined     => some <| js "undefined"
  | .null          => some <| js "null"
  | .bool b        => some <| if b then js "true" else js "false"
  | .number n      => some <| numberString n
  | .string s      => some s
  | .array elems   => (elemTexts elems).map join
  | .object fields => if (fields.lookup <| js "toString").isSome then none else some <| js "[object Object]"

-- The elements of an array, of which `undefined` and `null` have an empty text.
def elemTexts : List Value → Option (List JsString)
  | []                => some []
  | .undefined :: vs  => (elemTexts vs).map ([] :: ·)
  | .null :: vs       => (elemTexts vs).map ([] :: ·)
  | v :: vs           => do
    let text ← toText v
    let texts ← elemTexts vs
    return text :: texts

end

-- The values for which `v || w` is `w`.
def isFalsy : Value → Bool
  | .undefined | .null | .bool false => true
  | .number n                        => n = .nan ∨ n = .negZero ∨ n = .finite 0
  | .string s                        => s = []
  | _                                => false

-- `v == null`
def isNullish : Value → Bool
  | .undefined | .null => true
  | _                  => false

end Value

-- The test of a pattern in which each `d` stands for a digit, and every other character for itself.
def fits (pattern : String) (s : JsString) : Bool :=
  (js pattern).length = s.length ∧
    ((js pattern).zip s).all fun (p, u) => if p = 100 then Json.isDigit u else p = u
