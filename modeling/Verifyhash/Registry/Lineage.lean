import Verifyhash.Data.Hex
import Verifyhash.Registry.Contract

-- The walk along the parents of a record in `cli/lineage.js`. The lower-case spelling of a hash stands for
-- its value.
namespace Registry

inductive LineageStatus
  | walked      -- "WALKED"
  | notAnchored -- "NOT_ANCHORED"
  deriving DecidableEq

structure Ancestor where
  depth       : ℕ
  contentHash : Bytes32
  contributor : Address
  authorBound : Bool
  attribution : JsString
  timestamp   : BitVec 64
  blockNumber : BitVec 64
  uri         : Bytes
  parent      : Bytes32
  isRoot      : Bool
  deriving DecidableEq

structure Lineage where
  status        : LineageStatus
  start         : Bytes32
  ancestors     : List Ancestor
  cappedAtDepth : Bool
  maxDepth      : ℕ
  nextParent    : Option Bytes32
  deriving DecidableEq

def DEFAULT_MAX_DEPTH : ℕ := 256

def ATTRIBUTION_PROVEN : JsString :=
  js "proven first claimant (commit-reveal, front-running-resistant)"

def ATTRIBUTION_ANCHOR_ONLY : JsString :=
  js "first anchorer only — NOT proven authorship (anyone could have anchored this hash)"

def attributionFor (authorBound : Bool) : JsString :=
  if authorBound then ATTRIBUTION_PROVEN else ATTRIBUTION_ANCHOR_ONLY

def isRoot (parent : Bytes32) : Bool :=
  parent = 0

-- The entry of the result for a record which was read.
def Record.toAncestor (rec : Record) (contentHash : Bytes32) (depth : ℕ) : Ancestor where
  depth       := depth
  contentHash := contentHash
  contributor := rec.contributor
  authorBound := rec.authorBound
  attribution := attributionFor rec.authorBound
  timestamp   := rec.timestamp
  blockNumber := rec.blockNumber
  uri         := rec.uri
  parent      := rec.parent
  isRoot      := isRoot rec.parent

-- The variables of the loop.
structure LineageWalk where
  ancestors     : List Ancestor := []
  seen          : List Bytes32 := []
  cursor        : Bytes32
  cappedAtDepth : Bool := false
  nextParent    : Option Bytes32 := none

namespace State

variable (s : State)

-- The function `getRecord` reverts with `NotAnchored` if there is no record.
def readOne (contentHash : Bytes32) : Option Record :=
  if (s.records contentHash).contributor = 0 then none else some (s.records contentHash)

section

variable (startHash : Bytes32) (maxDepth : ℕ)

def walked (w : LineageWalk) : Lineage where
  status        := .walked
  start         := startHash
  ancestors     := w.ancestors
  cappedAtDepth := w.cappedAtDepth
  maxDepth      := maxDepth
  nextParent    := w.nextParent

-- The loop from an iteration on, with the number of iterations which are left.
def walkFrom : ℕ → LineageWalk → Lineage
  | 0, w        => walked startHash maxDepth w
  | left + 1, w =>
    let depth := maxDepth - (left + 1)
    if w.cursor ∈ w.seen then
      walked startHash maxDepth w
    else
      match s.readOne w.cursor with
      | none     =>
        if depth = 0 then
          {
            status        := .notAnchored
            start         := startHash
            ancestors     := []
            cappedAtDepth := false
            maxDepth      := maxDepth
            nextParent    := none
          }
        else
          walked startHash maxDepth { w with seen := w.cursor :: w.seen }
      | some rec =>
        let ancestors := w.ancestors ++ [rec.toAncestor w.cursor depth]
        if isRoot rec.parent then
          walked startHash maxDepth { ancestors, cursor := w.cursor }
        else
          walkFrom left {
            ancestors
            seen          := w.cursor :: w.seen
            cursor        := rec.parent
            cappedAtDepth := if depth = maxDepth - 1 then true else w.cappedAtDepth
            nextParent    := if depth = maxDepth - 1 then rec.parent else w.nextParent
          }

end

-- A depth of zero stands for none.
def walkLineage (startHash : Bytes32) (maxDepth : ℕ) : Lineage :=
  let maxDepth := if maxDepth = 0 then DEFAULT_MAX_DEPTH else maxDepth
  s.walkFrom startHash maxDepth maxDepth { cursor := startHash }

end State
end Registry
