import Verifyhash.Registry.Contract

-- The paginated reads of the contract.
namespace Registry

def addUint256 (x y : ℕ) : Except Error ℕ :=
  if x + y < UINT256 then .ok (x + y) else .error (.panic 0x11)

def subUint256 (x y : ℕ) : Except Error ℕ :=
  if y ≤ x then .ok (x - y) else .error (.panic 0x11)

-- Reads an element of a dynamic array.
def elemAt (elems : List α) (i : ℕ) : Except Error α :=
  match elems[i]? with
  | some elem => .ok elem
  | none      => .error (.panic 0x32)

-- The number of positions in the clamped window `[start, start + count)`.
def clampedLength (owned start count : ℕ) : Except Error ℕ :=
  if start < owned then do
    let available ← subUint256 owned start
    return if count < available then count else available
  else
    return 0

namespace State

-- The loop body which both reads share, where `slot` gives the insertion index to read for a position.
def readPosition (s : State) (slot : ℕ → Except Error ℕ) (start i : ℕ) :
    Except Error (Bytes32 × Record) := do
  let position ← addUint256 start i
  let index ← slot position
  let h := s.hashByIndex index
  return (h, s.records h)

def readPage (s : State) (owned : ℕ) (slot : ℕ → Except Error ℕ) (start count : ℕ) :
    Except Error (List Bytes32 × List Record) := do
  let len ← clampedLength owned start count
  let entries ← (List.range len).mapM (s.readPosition slot start)
  return entries.unzip

def getRecords (s : State) (start count : ℕ) : Except Error (List Bytes32 × List Record) :=
  s.readPage s.total .ok start count

def getRecordsByContributor (s : State) (contributor : Address) (start count : ℕ) :
    Except Error (List Bytes32 × List Record) :=
  let idxs := s.contributorIndices contributor
  s.readPage idxs.length (elemAt idxs) start count

end State
end Registry
