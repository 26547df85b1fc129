import Verifyhash.Data.Hex
import Verifyhash.Registry.Contract

-- The contract `contracts/ReputationSBT.sol` above its registry, and the projection of the records in
-- `cli/core/reputation-points.js`.
namespace Reputation

open Registry (Address Record Tx UINT256)

inductive Event
  | pointMinted (contributor : Address) (contentHash : Bytes32) (newBalance newTotalPoints : ℕ)
  | locked (contentHash : Bytes32)
  deriving DecidableEq

inductive Error
  | alreadyMinted (contentHash : Bytes32)
  | notAnchored (contentHash : Bytes32)
  | notAuthorBound (contentHash : Bytes32)
  deriving DecidableEq

-- The storage of the contract.
structure Points where
  minted      : Bytes32 → Bool
  points      : Address → ℕ
  totalPoints : ℕ
  logs        : List Event

-- Both contracts, of which the second reads the first.
structure State where
  registry : Registry.State
  points   : Points

def init : State where
  registry := Registry.init
  points   := {
    minted      := default
    points      := default
    totalPoints := 0
    logs        := []
  }

-- The calls of `mint` and `mintBatch` may come from any sender.
inductive Op
  | registry (tx : Tx)
  | mint (sender : Address) (contentHash : Bytes32)
  | mintBatch (sender : Address) (contentHashes : List Bytes32)

def getRecord (s : Registry.State) (contentHash : Bytes32) : Except Error Record :=
  if (s.records contentHash).contributor = 0 then .error (.notAnchored contentHash) else .ok (s.records contentHash)

namespace Points

-- The part of `_mint` after its checks.
def credit (t : Points) (contributor : Address) (contentHash : Bytes32) : Points :=
  let newBalance := (t.points contributor + 1) % UINT256
  let newTotal := (t.totalPoints + 1) % UINT256
  {
    minted      := Function.update t.minted contentHash true
    points      := Function.update t.points contributor newBalance
    totalPoints := newTotal
    logs        := t.logs ++ [.pointMinted contributor contentHash newBalance newTotal, .locked contentHash]
  }

-- `_mint`
def mint (t : Points) (s : Registry.State) (contentHash : Bytes32) : Except Error (Address × Points) := do
  if t.minted contentHash then
    throw <| .alreadyMinted contentHash
  let record ← getRecord s contentHash
  if ¬ record.authorBound then
    throw <| .notAuthorBound contentHash
  return (record.contributor, t.credit record.contributor contentHash)

-- The loop of `mintBatch`, which returns the credited addresses.
def mintBatch (t : Points) (s : Registry.State) : List Bytes32 → Except Error (List Address × Points)
  | []                           => return ([], t)
  | contentHash :: contentHashes => do
    let (contributor, t) ← t.mint s contentHash
    let (contributors, t) ← t.mintBatch s contentHashes
    return (contributor :: contributors, t)

def meetsThreshold (t : Points) (account : Address) (minPoints : ℕ) : Bool :=
  t.points account ≥ minPoints

end Points

-- The storage after a call, which is as before if the call fails.
def commitOr (t : Points) : Except Error (α × Points) → Points
  | .ok (_, t') => t'
  | .error _    => t

namespace State

def step (keccak256 : Bytes → Bytes32) (s : State) : Op → State
  | .registry tx               => { s with registry := s.registry.step keccak256 tx }
  | .mint _ contentHash        => { s with points := commitOr s.points <| s.points.mint s.registry contentHash }
  | .mintBatch _ contentHashes => { s with points := commitOr s.points <| s.points.mintBatch s.registry contentHashes }

def run (keccak256 : Bytes → Bytes32) (s : State) (ops : List Op) : State :=
  ops.foldl (step keccak256) s

end State

-- `/^0x[0-9a-fA-F]{40}$/`
def isHexAddress (s : JsString) : Bool :=
  s.take 2 = js "0x" ∧ (s.drop 2).length = 40 ∧ (s.drop 2).all fun u => (Hex.digit? u).isSome

-- The lower-case text of an address.
def addressText (a : Address) : JsString :=
  js "0x" ++ (Numeral.digits 16 40 a.toNat).map Hex.lowerDigit

-- A record as the projection reads it. A field which is not a text is `none`.
structure JsRecord where
  contentHash : Option JsString
  contributor : Option JsString
  authorBound : Bool

-- An address which is not valid is an error.
def normalizeAddress (a : Option JsString) : Option JsString :=
  (a.filter isHexAddress).map Hex.toLowerCase

def normalizeContentHash (h : Option JsString) : Option JsString :=
  (h.filter Hex.isHex32).map Hex.toLowerCase

structure Skipped where
  anchorOnly : ℕ
  duplicate  : ℕ
  invalid    : ℕ

structure Projection where
  points   : List (JsString × ℕ)
  minted   : List JsString
  credited : List (JsString × JsString)
  skipped  : Skipped

-- `points[contributor] = (points[contributor] || 0) + 1`
def addPoint (points : List (JsString × ℕ)) (contributor : JsString) : List (JsString × ℕ) :=
  if contributor ∈ points.map (·.1) then
    points.map fun entry => if entry.1 = contributor then (contributor, entry.2 + 1) else entry
  else points ++ [(contributor, 1)]

-- The body of the loop over the records.
def Projection.add (p : Projection) (r : JsRecord) : Projection :=
  match normalizeContentHash r.contentHash, normalizeAddress r.contributor with
  | some contentHash, some contributor =>
    if ¬ r.authorBound then { p with skipped.anchorOnly := p.skipped.anchorOnly + 1 }
    else if contentHash ∈ p.minted then { p with skipped.duplicate := p.skipped.duplicate + 1 }
    else { p with
      points   := addPoint p.points contributor
      minted   := p.minted ++ [contentHash]
      credited := p.credited ++ [(contentHash, contributor)]
    }
  | _, _ => { p with skipped.invalid := p.skipped.invalid + 1 }

def projectPoints (records : List JsRecord) : Projection :=
  records.foldl Projection.add ⟨[], [], [], ⟨0, 0, 0⟩⟩

def Projection.totalPoints (p : Projection) : ℕ :=
  (p.points.map (·.2)).sum

-- The balance of an address, where `none` is an error.
def pointsOf (records : List JsRecord) (address : JsString) : Option ℕ :=
  (normalizeAddress address).map fun key => ((projectPoints records).points.lookup key).getD 0

def hasAtLeast (records : List JsRecord) (address : JsString) (n : ℕ) : Option Bool :=
  (pointsOf records address).map (· ≥ n)

end Reputation
