import PolarCloud.Base.LittleEndian
import PolarCloud.Model.Mining.Chain

/-! # The height of the network

The neighbours are asked for their highest block, and the height with most votes among the answers
becomes the height to synchronise with.
-/

namespace PolarCloud.Mining

/-- A neighbour that a request could be sent to, and what it answered in time. -/
structure Asked where
  name : String
  answer : Option Bytes

/-- The second of the two heights of an answer; a shorter answer is a panic. -/
def answeredHeight (bs : Bytes) : Option UInt64 :=
  if bs.length < 16 then none else some (UInt64.ofNat (LittleEndian.get ((bs.drop 8).take 8)))

/-- Collect the heights that are not below that of the node. -/
def collectHeights (currentBlock : UInt64) : List Asked → SyncMap String UInt64 → Option (SyncMap String UInt64)
  | [], syncHeightBlock => some syncHeightBlock
  | asked :: rest, syncHeightBlock =>
      match asked.answer with
      | none => collectHeights currentBlock rest syncHeightBlock
      | some bs =>
          match answeredHeight bs with
          | none => none
          | some heightBlock =>
              if heightBlock < currentBlock then collectHeights currentBlock rest syncHeightBlock
              else collectHeights currentBlock rest (syncHeightBlock.store asked.name heightBlock)

/-- Count one vote. -/
def countVote (heightBlockVote : SyncMap UInt64 ℕ) (height : UInt64) : SyncMap UInt64 ℕ :=
  match heightBlockVote.load height with
  | some total => heightBlockVote.store height (total + 1)
  | none => heightBlockVote.store height 1

def countVotes (order : List (String × UInt64)) : SyncMap UInt64 ℕ :=
  order.foldl (fun heightBlockVote entry => countVote heightBlockVote entry.2) .empty

/-- The variables of the election. -/
structure Election where
  heightBlockMax : UInt64 := 0
  heightBlock : UInt64 := 0
  heightTotal : ℕ := 0
  isEqual : Bool := false

/-- One height and its votes. -/
def Election.visit (election : Election) (entry : UInt64 × ℕ) : Election :=
  let (height, total) := entry
  if height = 0 then election
  else
    let election := if election.heightBlockMax < height then { election with heightBlockMax := height } else election
    if election.heightTotal < total then { election with heightTotal := total, heightBlock := height }
    else if total = election.heightTotal then { election with isEqual := true }
    else election

def elect (votes : List (UInt64 × ℕ)) : Election := votes.foldl Election.visit {}

/-- Ask the neighbours and set the height; both maps are visited in orders that come from outside. -/
def findBlockHeight (chain : Chain) (asked : List Asked) (visit : SyncMap String UInt64 → List (String × UInt64))
    (visitVotes : SyncMap UInt64 ℕ → List (UInt64 × ℕ)) : Option Chain := do
  let syncHeightBlock ← collectHeights chain.currentBlock asked .empty
  let order := visit syncHeightBlock
  if order.length = 0 then some chain
  else some { chain with highestBlock := (elect (visitVotes (countVotes order))).heightBlock }

end PolarCloud.Mining
