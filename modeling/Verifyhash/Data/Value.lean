import Verifyhash.Data.Hex

-- The values of the JavaScript type `number`: the two zeros are told apart, and every other finite
-- value is given by the rational number which it stands for.
inductive Number
  | nan
  | infinity (negative : Bool)
  | negZero
  | finite (q : ℚ)
  deriving DecidableEq

namespace Number

-- `Number.isInteger(n)`, with the integer if there is one.
def toInt? : Number → Option ℤ
  | negZero  => some 0
  | finite q => if q.den = 1 then some q.num else none
  | _        => none

def ofNat (n : ℕ) : Number :=
  finite n

@[simp]
theorem toInt?_ofNat : (ofNat n).toInt? = some (n : ℤ) := by
  simp [ofNat, toInt?]

end Number

-- The values which the verifiers are handed: what `JSON.parse` returns, and `undefined`. The fields
-- of an object are its own properties.
inductive Value
  | undefined
  | null
  | bool (b : Bool)
  | number (n : Number)
  | string (s : JsString)
  | array (elems : List Value)
  | object (fields : List (JsString × Value))

namespace Value

-- Induction over the elements of arrays and the fields of objects.
@[elab_as_elim]
theorem ind {P : Value → Prop} (undefined : P undefined) (null : P null) (bool : ∀ b, P (bool b))
    (number : ∀ n, P (number n)) (string : ∀ s, P (string s))
    (array : ∀ elems, (∀ v ∈ elems, P v) → P (array elems))
    (object : ∀ fields, (∀ f ∈ fields, P f.snd) → P (object fields)) : ∀ v, P v
  | .undefined     => undefined
  | .null          => null
  | .bool b        => bool b
  | .number n      => number n
  | .string s      => string s
  | .array elems   => array elems fun v _ => ind undefined null bool number string array object v
  | .object fields => object fields fun f _ => ind undefined null bool number string array object f.snd
termination_by v => sizeOf v
decreasing_by
  all_goals
    simp_wf
    have := List.sizeOf_lt_of_mem ‹_›
    grind [Prod.mk.sizeOf_spec]

def get (v : Value) (key : String) : Value :=
  match v with
  | object fields => (fields.lookup <| js key).getD undefined
  | _             => undefined

-- `key in v`, for a key which is not a property of every object.
def has (v : Value) (key : String) : Bool :=
  match v with
  | object fields => (fields.lookup <| js key).isSome
  | _             => false

-- `v === undefined`
def isUndefined : Value → Bool
  | undefined => true
  | _         => false

-- `typeof v === "object" && v !== null && !Array.isArray(v)`
def isObject : Value → Bool
  | object _ => true
  | _        => false

-- `v === null`
def isNull : Value → Bool
  | null => true
  | _    => false

-- The truth value `v`, if `typeof v === "boolean"`.
def toBool? : Value → Option Bool
  | bool b => some b
  | _      => none

-- The string `v`, if `typeof v === "string"`.
def toString? : Value → Option JsString
  | string s => some s
  | _        => none

def toInt? : Value → Option ℤ
  | number n => n.toInt?
  | _        => none

def nat (n : ℕ) : Value :=
  number <| .ofNat n

def ofStrings (ss : List JsString) : Value :=
  array <| ss.map string

@[simp]
theorem toInt?_nat : (nat n).toInt? = some (n : ℤ) := by
  simp [nat, toInt?]

-- `_isHex32`, with the string which passes the check.
def hex32? : Value → Option JsString
  | string s => if Hex.isHex32 s then some s else none
  | _        => none

-- `_allHex32`, with the strings which pass the check.
def allHex32? : Value → Option (List JsString)
  | array elems => elems.mapM hex32?
  | _           => none

theorem toString?_eq_some : toString? v = some s ↔ v = string s := by
  cases v <;> simp [toString?]

theorem isObject_iff : isObject v ↔ ∃ fields, v = object fields := by
  cases v <;> simp [isObject]

theorem has_of_get (h : get v key ≠ undefined) : has v key := by
  cases v
  case object fields =>
    rw [get] at h
    cases hk : fields.lookup (js key)
    case none => simp [hk] at h
    case some => simp [has, hk]
  all_goals exact absurd rfl h

theorem isUndefined_iff {v : Value} : v.isUndefined ↔ v = undefined := by
  cases v <;> simp [isUndefined]

theorem isNull_iff {v : Value} : v.isNull ↔ v = null := by
  cases v <;> simp [isNull]

theorem hex32?_eq_some : hex32? v = some s ↔ v = string s ∧ Hex.isHex32 s := by
  cases v <;> simp only [hex32?, reduceCtorEq, false_and, string.injEq]
  case string => split_ifs <;> grind

theorem hex32?_isSome_iff : (hex32? v).isSome ↔ ∃ s, v = string s ∧ Hex.isHex32 s := by
  simp [Option.isSome_iff_exists, hex32?_eq_some]

theorem toBool?_eq_some : toBool? v = some b ↔ v = bool b := by
  cases v <;> simp [toBool?]

-- A field which is not `undefined` is there.
theorem get_eq_undefined_of_has (h : ¬ has v key) : get v key = undefined :=
  by_contra fun hu => h <| has_of_get hu

theorem allHex32?_eq_some : allHex32? v = some ss ↔ v = ofStrings ss ∧ ∀ s ∈ ss, Hex.isHex32 s := by
  cases v <;> simp only [allHex32?, reduceCtorEq, ofStrings, false_and, array.injEq]
  case array elems =>
    induction elems generalizing ss
    case nil => cases ss <;> simp
    case cons elem _ ih =>
      cases ss <;> simp [List.mapM_cons, Option.bind_eq_some_iff, hex32?_eq_some, ih]
      case cons => grind

end Value
