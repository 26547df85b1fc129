import Verifyhash.Data.Text

-- The instants in texts such as `2026-01-31T12:00:00.000Z`, which the sources test with one pattern.
namespace Instant

open Json

def isInstant (s : JsString) : Bool :=
  fits "dddd-dd-ddTdd:dd:ddZ" s ∨ fits "dddd-dd-ddTdd:dd:dd.dddZ" s

-- The number of days from 1970-01-01 to a day, which may be beyond the end of the month.
def daysFromCivil (year month day : ℤ) : ℤ :=
  let y := if month ≤ 2 then year - 1 else year
  let era := y / 400
  let yearOfEra := y - 400 * era
  let dayOfYear := (153 * (if month > 2 then month - 3 else month + 9) + 2) / 5 + day - 1
  let dayOfEra := 365 * yearOfEra + yearOfEra / 4 - yearOfEra / 100 + dayOfYear
  146097 * era + dayOfEra - 719468

-- The year, the month and the day of a number of days.
def civilFromDays (days : ℤ) : ℤ × ℤ × ℤ :=
  let z := days + 719468
  let era := z / 146097
  let dayOfEra := z - 146097 * era
  let yearOfEra := (dayOfEra - dayOfEra / 1460 + dayOfEra / 36524 - dayOfEra / 146096) / 365
  let dayOfYear := dayOfEra - (365 * yearOfEra + yearOfEra / 4 - yearOfEra / 100)
  let mp := (5 * dayOfYear + 2) / 153
  let day := dayOfYear - (153 * mp + 2) / 5 + 1
  let month := if mp < 10 then mp + 3 else mp - 9
  (yearOfEra + 400 * era + if month ≤ 2 then 1 else 0, month, day)

-- The number which is spelled by the `len` code units from position `start` on.
def part (s : JsString) (start len : ℕ) : ℤ :=
  digitsValue <| (s.drop start).take len

-- `Date.parse(s)`, for a text of the pattern. The result is `none` for `NaN`.
def parse (s : JsString) : Option ℤ := do
  guard <| isInstant s
  let (year, month, day) := (part s 0 4, part s 5 2, part s 8 2)
  let (hour, minute, second) := (part s 11 2, part s 14 2, part s 17 2)
  let milli := if s.length = 24 then part s 20 3 else 0
  guard (1 ≤ month ∧ month ≤ 12 ∧ 1 ≤ day ∧ day ≤ 31)
  guard (minute ≤ 59 ∧ second ≤ 59 ∧ (hour ≤ 23 ∨ hour = 24 ∧ minute = 0 ∧ second = 0 ∧ milli = 0))
  let seconds := 86400 * daysFromCivil year month day + 3600 * hour + 60 * minute + second
  return 1000 * seconds + milli

def pad (len : ℕ) (n : ℤ) : JsString :=
  digitsText <| Numeral.digits 10 len n.toNat

-- `new Date(ms).toISOString()`
def toISOString (ms : ℤ) : JsString :=
  let (year, month, day) := civilFromDays <| ms / 86400000
  let rest := ms % 86400000
  let yearText :=
    if 0 ≤ year ∧ year ≤ 9999 then pad 4 year
    else if year < 0 then js "-" ++ pad 6 (-year)
    else js "+" ++ pad 6 year
  yearText ++ js "-" ++ pad 2 month ++ js "-" ++ pad 2 day ++ js "T" ++ pad 2 (rest / 3600000) ++ js ":" ++
    pad 2 (rest / 60000 % 60) ++ js ":" ++ pad 2 (rest / 1000 % 60) ++ js "." ++ pad 3 (rest % 1000) ++ js "Z"

-- The instant of a canonical text.
def canonical? (s : JsString) : Option ℤ :=
  (parse s).filter fun ms => toISOString ms = s

example : canonical? (js "2026-02-28T23:59:59.999Z") = some 1772323199999 ∧
    canonical? (js "2026-02-31T00:00:00.000Z") = none := by
  decide +kernel

end Instant
