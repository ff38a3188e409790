import PolarCloud.Model.Mining.Sync

/-! # Checking and loading the stored chain

The check follows the stored blocks and reports their range. At start-up the blocks are read back
from the database, from the recorded first block along the successors, and added to the chain in
memory.
-/

namespace PolarCloud.Mining

open Keystore

section Load

variable (rt : Runtime) (wallet : Wallet)

/-- The loop of `CheckBlockDB` behind a block, with the heights reported so far. -/
def checkBlocks (db : Db) : ℕ → BlockHead → UInt64 × UInt64 → Option ((UInt64 × UInt64) × Exit)
  | 0, _, _ => none
  | fuel + 1, hB, range =>
      match hB.nextblockhash with
      | none => some (range, .stop)
      | some [] => some (range, .panic)
      | some (next :: _) =>
          match db.find next with
          | none => some (range, .stop)
          | some head =>
              match parseBlockHead rt head with
              | none => some (range, .stop)
              | some hB => if hB.check rt then checkBlocks db fuel hB (hB.height, hB.height) else some (range, .stop)

def checkRange (db : Db) (fuel : ℕ) : Option ((UInt64 × UInt64) × Exit) :=
  match db.find Config.keyBlockStart with
  | none => some ((0, 0), .stop)
  | some headid =>
      match db.find headid.bytes with
      | none => some ((0, 0), .stop)
      | some head =>
          match parseBlockHead rt head with
          | none => some ((0, 0), .stop)
          | some hB => checkBlocks rt db fuel hB (hB.height, hB.height)

/-- The start and the end of the stored blocks. Both heights are set in the chain on return, also after a panic. -/
def checkBlockDB (fuel : ℕ) (node : Node) : Option (Node × Result (UInt64 × UInt64)) := do
  let (range, exit) ← checkRange rt node.db fuel
  let node := { node with chain := { node.chain with startingBlock := range.1, currentBlock := range.2 } }
  some (node, if exit = .panic then .panic else .ok range)

/-- Read the transactions of a block: a missing record ends the load, an unreadable one leaves a
hole in the list. -/
def readTxs (db : Db) : List Bytes → Option (List (Option TxItr))
  | [] => some []
  | one :: rest => do
      let txBs ← db.find one
      let txItrs ← readTxs db rest
      some (parseTxBase rt txBs :: txItrs)

/-- Load one block and add it to the chain; a hole among its transactions is a panic there. -/
def loadBlockForDB (node : Node) (bhash : Bytes) : Node × Result BlockHead :=
  match node.db.find bhash with
  | none => (node, .error)
  | some head =>
      match parseBlockHead rt head with
      | none => (node, .error)
      | some hB =>
          match readTxs rt node.db hB.tx with
          | none => (node, .error)
          | some txItrs =>
              match txItrs.mapM id with
              | none => (node, .panic)
              | some txItrs =>
                  match addBlock rt wallet node hB txItrs with
                  | none => (node, .panic)
                  | some (node, _) => (node, .ok hB)

/-- Load each of a list of blocks until a panic. -/
def loadEach (load : Node → Bytes → Option (Node × Exit)) : List Bytes → Node → Option (Node × Exit)
  | [], node => some (node, .next)
  | one :: rest, node =>
      match load node one with
      | some (node, .next) => loadEach load rest node
      | stopped => stopped

/-- Load a block and, as long as there are none, its successors; nothing is returned when the
fuel runs out. -/
def deepCycleLoadBlock : ℕ → Node → Bytes → Option (Node × Exit)
  | 0, _, _ => none
  | fuel + 1, node, bhash =>
      match loadBlockForDB rt wallet node bhash with
      | (node, .error) => some (node, .next)
      | (node, .panic) => some (node, .panic)
      | (node, .ok bh) =>
          if bh.nextblockhash ≠ none then some (node, .next)
          else loadEach (deepCycleLoadBlock fuel) bh.nexts node

/-- Load the chain at start-up. -/
def loadBlockChain (fuel : ℕ) (node : Node) : Option (Node × Result Unit) :=
  match node.db.find Config.keyBlockStart with
  | none => some (node, .ok ())
  | some headid =>
      match loadBlockForDB rt wallet node headid.bytes with
      | (node, .error) => some (node, .error)
      | (node, .panic) => some (node, .panic)
      | (node, .ok bh) =>
          let node := { node with chain := { node.chain with startingBlock := bh.height } }
          match loadEach (deepCycleLoadBlock rt wallet fuel) bh.nexts node with
          | none => none
          | some (node, .next) => some (node, .ok ())
          | some (node, _) => some (node, .panic)

/-- The successors are visited only where there are none, so one turn is always enough. -/
theorem deepCycleLoadBlock_succ (fuel : ℕ) (node : Node) (bhash : Bytes) :
    deepCycleLoadBlock rt wallet (fuel + 1) node bhash =
      match loadBlockForDB rt wallet node bhash with
      | (node, .panic) => some (node, .panic)
      | (node, _) => some (node, .next) := by
  rw [deepCycleLoadBlock]
  split
  · next load => rw [load]
  · next load => rw [load]
  · next bh load =>
    rw [load]
    split
    · rfl
    · next absent =>
      have none : bh.nextblockhash = none := not_not.mp absent
      simp [BlockHead.nexts, none, loadEach]

end Load

end PolarCloud.Mining
