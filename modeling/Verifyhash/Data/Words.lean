import Verifyhash.Data.Hex

-- The searches for words in texts, as the sources make them by patterns.
namespace Words

-- `\s`, which is also what `trim` removes.
def isSpace (u : UInt16) : Bool :=
  (9 ≤ u ∧ u ≤ 13) ∨ u = 32 ∨ u = 0xA0 ∨ u = 0x1680 ∨ (0x2000 ≤ u ∧ u ≤ 0x200A) ∨ u = 0x2028 ∨ u = 0x2029 ∨
    u = 0x202F ∨ u = 0x205F ∨ u = 0x3000 ∨ u = 0xFEFF

def trim (s : JsString) : JsString :=
  (s.dropWhile isSpace).rdropWhile isSpace

-- `s.replace(/\s+/g, " ")`
def collapse (s : JsString) : JsString :=
  s.foldr (fun u t => if isSpace u then (if t.head? = some 32 then t else 32 :: t) else u :: t) []

-- `[a-z0-9]`
def isAlphanumeric (u : UInt16) : Bool :=
  (97 ≤ u ∧ u ≤ 122) ∨ (48 ≤ u ∧ u ≤ 57)

-- `\w`
def isWord (u : UInt16) : Bool :=
  isAlphanumeric u ∨ (65 ≤ u ∧ u ≤ 90) ∨ u = 95

-- `s.includes(t)`
def contains (t s : JsString) : Bool :=
  s.tails.any t.isPrefixOf

-- The occurrence of a text which starts and ends at the boundaries of words, and itself starts and ends
-- with a character of a word.
def containsWord (t s : JsString) : Bool :=
  (List.range <| s.length + 1).any fun i =>
    t.isPrefixOf (s.drop i) ∧ ¬ ((s.take i).getLast?.any isWord) ∧ ¬ ((s.drop <| i + t.length).head?.any isWord)

-- The alternatives of a pattern.
def containsAny (ts : List String) (s : JsString) : Bool :=
  ts.any fun t => contains (js t) s

def containsAnyWord (ts : List String) (s : JsString) : Bool :=
  ts.any fun t => containsWord (js t) s

-- `s.padStart(len, "0")`
def padStart (len : ℕ) (s : JsString) : JsString :=
  .replicate (len - s.length) 48 ++ s

end Words
