import Verifyhash.Data.Bytes

-- The contract `contracts/ContributionRegistry.sol`: its storage, and the functions which write it.
-- Values of type `uint256` are natural numbers, on which the arithmetic is explicitly bounded.
namespace Registry

abbrev Address := BitVec 160

structure Record where
  contributor : Address
  authorBound : Bool
  timestamp   : BitVec 64
  blockNumber : BitVec 64
  uri         : Bytes
  parent      : Bytes32
  deriving DecidableEq

-- What an unset slot of a mapping holds.
instance : Inhabited Record where
  default := ⟨0, false, 0, 0, [], 0⟩

structure Commitment where
  committer   : Address
  blockNumber : BitVec 64
  deriving DecidableEq

instance : Inhabited Commitment where
  default := ⟨0, 0⟩

inductive Event
  | anchored (contentHash : Bytes32) (contributor : Address) (index : ℕ) (timestamp : BitVec 64)
      (uri : Bytes)
  | committed (commitment : Bytes32) (committer : Address) (blockNumber : BitVec 64)
  | revealed (contentHash : Bytes32) (contributor : Address) (index : ℕ) (commitment : Bytes32)
      (timestamp : BitVec 64) (uri : Bytes)
  | linked (child parent : Bytes32)
  deriving DecidableEq

inductive Error
  | zeroHash
  | alreadyAnchored (contentHash : Bytes32) (contributor : Address)
  | zeroCommitment
  | commitmentExists (commitment : Bytes32) (committer : Address)
  | noSuchCommitment (commitment : Bytes32)
  | revealTooSoon (commitBlock currentBlock minDelay : BitVec 64)
  | unknownParent (parent : Bytes32)
  | selfParent (contentHash : Bytes32)
  | panic (code : ℕ)
  deriving DecidableEq

structure State where
  records            : Bytes32 → Record
  hashByIndex        : ℕ → Bytes32
  commitments        : Bytes32 → Commitment
  contributorIndices : Address → List ℕ
  contributorCount   : Address → ℕ
  total              : ℕ
  logs               : List Event

-- The state after deployment.
def init : State where
  records            := default
  hashByIndex        := default
  commitments        := default
  contributorIndices := default
  contributorCount   := default
  total              := 0
  logs               := []

def MIN_REVEAL_DELAY : BitVec 64 := 1

-- The number of values of type `uint256`.
def UINT256 : ℕ := 2 ^ 256

inductive Call
  | anchor (contentHash : Bytes32) (uri : Bytes)
  | anchorWithParent (contentHash : Bytes32) (uri : Bytes) (parent : Bytes32)
  | commit (commitment : Bytes32)
  | reveal (contentHash salt : Bytes32) (uri : Bytes)
  | revealWithParent (contentHash salt : Bytes32) (uri : Bytes) (parent : Bytes32)

structure Tx where
  sender    : Address
  block     : ℕ
  timestamp : ℕ
  call      : Call

-- `if (p) revert e;`
def revertIf (p : Prop) [Decidable p] (e : Error) : Except Error Unit :=
  if p then .error e else .ok ()

-- The checked addition of `uint64` values.
def checkedAdd (x y : BitVec 64) : Except Error (BitVec 64) :=
  if x.toNat + y.toNat < 2 ^ 64 then .ok (x + y) else .error (.panic 0x11)

variable (keccak256 : Bytes → Bytes32)

-- `abi.encode(contentHash, committer, salt)`
def commitmentInput (contentHash : Bytes32) (committer : Address) (salt : Bytes32) : Bytes :=
  .ofBytes32 contentHash ++ .ofBytes32 (committer.setWidth 256) ++ .ofBytes32 salt

def commitmentOf (contentHash : Bytes32) (committer : Address) (salt : Bytes32) : Bytes32 :=
  keccak256 (commitmentInput contentHash committer salt)

namespace State

def log (s : State) (events : List Event) : State :=
  { s with logs := s.logs ++ events }

-- The part of `_record` after its checks.
def write (s : State) (tx : Tx) (contentHash : Bytes32) (uri : Bytes) (authorBound : Bool)
    (parent : Bytes32) : State where
  records            := Function.update s.records contentHash {
      contributor := tx.sender
      authorBound
      timestamp   := .ofNat 64 tx.timestamp
      blockNumber := .ofNat 64 tx.block
      uri
      parent
    }
  hashByIndex        := Function.update s.hashByIndex s.total contentHash
  commitments        := s.commitments
  contributorIndices :=
    Function.update s.contributorIndices tx.sender (s.contributorIndices tx.sender ++ [s.total])
  contributorCount   :=
    Function.update s.contributorCount tx.sender ((s.contributorCount tx.sender + 1) % UINT256)
  total              := (s.total + 1) % UINT256
  logs               :=
    s.logs ++ [.anchored contentHash tx.sender s.total (.ofNat 64 tx.timestamp) uri] ++
      if parent ≠ 0 then [.linked contentHash parent] else []

def setCommitment (s : State) (commitment : Bytes32) (c : Commitment) : State :=
  { s with commitments := Function.update s.commitments commitment c }

-- `_record`, which returns the index of the new record.
def record (s : State) (tx : Tx) (contentHash : Bytes32) (uri : Bytes) (authorBound : Bool)
    (parent : Bytes32) : Except Error (ℕ × State) := do
  revertIf (contentHash = 0) .zeroHash
  let existing := s.records contentHash
  revertIf (existing.contributor ≠ 0) (.alreadyAnchored contentHash existing.contributor)
  revertIf (parent ≠ 0 ∧ parent = contentHash) (.selfParent contentHash)
  revertIf (parent ≠ 0 ∧ (s.records parent).contributor = 0) (.unknownParent parent)
  return (s.total, s.write tx contentHash uri authorBound parent)

def commit (s : State) (tx : Tx) (commitment : Bytes32) : Except Error State := do
  revertIf (commitment = 0) .zeroCommitment
  let existing := s.commitments commitment
  revertIf (existing.committer ≠ 0) (.commitmentExists commitment existing.committer)
  let s := s.setCommitment commitment ⟨tx.sender, .ofNat 64 tx.block⟩
  return s.log [.committed commitment tx.sender (.ofNat 64 tx.block)]

-- `_reveal`
def reveal (s : State) (tx : Tx) (contentHash salt : Bytes32) (uri : Bytes) (parent : Bytes32) :
    Except Error (ℕ × State) := do
  revertIf (contentHash = 0) .zeroHash
  let commitment := commitmentOf keccak256 contentHash tx.sender salt
  let c := s.commitments commitment
  revertIf (c.committer = 0) (.noSuchCommitment commitment)
  let current : BitVec 64 := .ofNat 64 tx.block
  let mature ← checkedAdd c.blockNumber MIN_REVEAL_DELAY
  revertIf (current ≤ mature) (.revealTooSoon c.blockNumber current MIN_REVEAL_DELAY)
  let s := s.setCommitment commitment default
  let (index, s) ← s.record tx contentHash uri true parent
  let revealed := .revealed contentHash tx.sender index commitment (.ofNat 64 tx.timestamp) uri
  return (index, s.log [revealed])

-- The calls which write a record return its index.
def exec (s : State) (tx : Tx) : Except Error (Option ℕ × State) :=
  match tx.call with
  | .anchor contentHash uri => do
    let (index, s) ← s.record tx contentHash uri false 0
    return (index, s)
  | .anchorWithParent contentHash uri parent => do
    let (index, s) ← s.record tx contentHash uri false parent
    return (index, s)
  | .commit commitment => do
    let s ← s.commit tx commitment
    return (none, s)
  | .reveal contentHash salt uri => do
    let (index, s) ← s.reveal keccak256 tx contentHash salt uri 0
    return (index, s)
  | .revealWithParent contentHash salt uri parent => do
    let (index, s) ← s.reveal keccak256 tx contentHash salt uri parent
    return (index, s)

-- A transaction which reverts leaves the state unchanged.
def step (s : State) (tx : Tx) : State :=
  match s.exec keccak256 tx with
  | .ok (_, s') => s'
  | .error _    => s

def run (s : State) (txs : List Tx) : State :=
  txs.foldl (step keccak256) s

end State
end Registry
