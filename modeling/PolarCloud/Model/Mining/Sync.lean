import PolarCloud.Model.Mining.Chain

/-! # Importing blocks

A broadcast block is imported by one turn of `saveBlockHead`, a block asked from a neighbour by
`syncBlockForDBAndNeighbor`. Both save the transactions, mark the outputs they spend, append the
block to the successors of its parent and save its header; they differ in what a missing record
means and in what follows the save.
-/

namespace PolarCloud.Mining

open Keystore

/-- How a turn ends: with the next message, with a return, or with a panic. -/
inductive Exit where
  | next
  | stop
  | panic
deriving DecidableEq, Repr

section Transactions

variable (rt : Runtime)

/-- Mark the outputs that a transaction spends. A spent transaction that is not stored is passed
over by the block saver (`skip`) and ends the synchronisation. -/
def markSpent (skip : Bool) (txid : Bytes) : List Vin → Db → Db × Exit
  | [], db => (db, .next)
  | two :: rest, db =>
      match db.find two.txid with
      | none => if skip then markSpent skip txid rest db else (db, .stop)
      | some txbs =>
          match parseTxBase rt txbs with
          | none => (db, .stop)
          | some txItr =>
              match txItr.setTxid db two.vout txid with
              | none => (db, .panic)
              | some db => markSpent skip txid rest db

/-- Save the transactions of a block and mark what payments and deposits spend. -/
def saveTxs (skip : Bool) : List TxItr → Db → Db × Exit
  | [], db => (db, .next)
  | one :: rest, db =>
      let one := one.buildHash rt
      let db := db.save one.getHash one.json
      if one.txClass ≠ Config.walletTxTypeDepositIn ∧ one.txClass ≠ Config.walletTxTypePay then
        saveTxs skip rest db
      else
        match markSpent rt skip one.getHash one.getVin db with
        | (db, .next) => saveTxs skip rest db
        | stopped => stopped

end Transactions

/-- The parent of a block is missing, cannot be read, or has been amended. -/
inductive Amended where
  | missing
  | unreadable
  | saved (db : Db)

/-- Append a block to the successors of its parent. -/
def amendParent (rt : Runtime) (db : Db) (bh : BlockHead) : Amended :=
  match db.find bh.previousblockhash with
  | none => .missing
  | some bs =>
      match parseBlockHead rt bs with
      | none => .unreadable
      | some parent =>
          let parent := parent.addNext bh.hash?
          .saved (db.save parent.hash parent.json)

/-- The block saver amends the parent of a block above the first one. -/
def amendDue (chain : Chain) (bh : BlockHead) : Prop := chain.startingBlock < bh.height ∧ 1 < bh.height

instance (chain : Chain) (bh : BlockHead) : Decidable (amendDue chain bh) := by
  unfold amendDue
  infer_instance

/-- The last part of a turn: save the header and bring pool, heights and chain up to date. -/
def storeBlock (rt : Runtime) (wallet : Wallet) (node : Node) (bh : BlockHead) (txs : List TxItr) : Node × Exit :=
  let db := node.db.save bh.hash bh.json
  let unpacked := txs.foldl (fun pool one => pool.delete one.getHash) node.unpacked
  let db := if bh.height = node.chain.startingBlock then db.save Config.keyBlockStart (.raw bh.hash) else db
  let chain :=
    if node.chain.currentBlock + 1 = bh.height then { node.chain with currentBlock := bh.height } else node.chain
  let node := { node with db, chain, unpacked }
  match addBlock rt wallet node bh txs with
  | none => (node, .panic)
  | some (node, _) =>
      if bh.height ≤ node.chain.highestBlock then (node, .next)
      else ({ node with chain := { node.chain with highestBlock := bh.height } }, .next)

/-- One turn of the block saver. -/
def saveBlockHead (rt : Runtime) (wallet : Wallet) (node : Node) (bhvo : BlockHeadVO) : Node × Exit :=
  match saveTxs rt true bhvo.txs node.db with
  | (db, .next) =>
      let node := { node with db }
      match bhvo.bh with
      | none => (node, .panic)
      | some bh =>
          let txs := bhvo.txs.map (·.buildHash rt)
          if amendDue node.chain bh then
            match amendParent rt node.db bh with
            | .missing => (node, .next)
            | .unreadable => (node, .stop)
            | .saved db => storeBlock rt wallet { node with db } bh txs
          else storeBlock rt wallet node bh txs
  | (db, exit) => ({ node with db }, exit)

/-! ## Synchronisation -/

/-- What the neighbours answer: the value for a key at each request of one call, or nothing. -/
abbrev Neighbour := ℕ → Bytes → Option Value

/-- The result of a call that may fail or panic. -/
inductive Result (α : Type) where
  | ok (value : α)
  | error
  | panic
deriving DecidableEq, Repr

/-- Ask for the transactions of a header, one request after the other; no answer is a panic. -/
def findTxs (rt : Runtime) (neighbour : Neighbour) : ℕ → List Bytes → Result (List TxItr)
  | _, [] => .ok []
  | request, txid :: rest =>
      match neighbour request txid with
      | none => .panic
      | some txbs =>
          match parseTxBase rt txbs with
          | none => .error
          | some txItr =>
              match findTxs rt neighbour (request + 1) rest with
              | .ok txs => .ok (txItr :: txs)
              | failed => failed

/-- `FindBlockForNeighbor` -/
def findBlockForNeighbor (rt : Runtime) (neighbour : Neighbour) (bhash : Bytes) :
    Result (BlockHead × List TxItr) :=
  match neighbour 0 bhash with
  | none => .error
  | some bs =>
      match parseBlockHead rt bs with
      | none => .error
      | some bh =>
          match findTxs rt neighbour 1 bh.tx with
          | .ok txs => .ok (bh, txs)
          | .error => .error
          | .panic => .panic

/-- Import a block that a neighbour sent. -/
def importBlock (rt : Runtime) (node : Node) (bh : BlockHead) (txs : List TxItr) : Node × Result BlockHead :=
  match saveTxs rt false txs node.db with
  | (db, .next) =>
      let node := { node with db }
      if 0 < node.chain.startingBlock then
        match amendParent rt node.db bh with
        | .saved db => ({ node with db := db.save bh.hash bh.json }, .ok bh)
        | _ => (node, .error)
      else ({ node with db := node.db.save bh.hash bh.json }, .ok bh)
  | (db, .stop) => ({ node with db }, .error)
  | (db, .panic) => ({ node with db }, .panic)

/-- Find a block in the database, or import it from a neighbour. -/
def syncBlockForDBAndNeighbor (rt : Runtime) (node : Node) (neighbour : Neighbour) (bhash : Bytes) :
    Node × Result BlockHead :=
  match (node.db.find bhash).bind (parseBlockHead rt) with
  | some bh => (node, .ok bh)
  | none =>
      match findBlockForNeighbor rt neighbour bhash with
      | .error => (node, .error)
      | .panic => (node, .panic)
      | .ok (bh, txs) => importBlock rt node bh txs

/-- The block that a synchronisation starts from: the last one, or the first one that a neighbour
names. -/
def refreshKey (node : Node) (start : Option Bytes) : Option Bytes :=
  match node.chain.getLastBlock with
  | none => start
  | some last => some last.id

/-- The first part of `SyncBlockHead`: fetch that block and overwrite its record; the successors it
lists are synchronised one by one. -/
def overwriteLast (rt : Runtime) (node : Node) (start : Option Bytes) (neighbour : Neighbour) :
    Node × Result (List Bytes) :=
  match refreshKey node start with
  | none => (node, .error)
  | some bhash =>
      match neighbour 0 bhash with
      | none => (node, .panic)
      | some bs =>
          match parseBlockHead rt bs with
          | none => (node, .error)
          | some bh =>
              match bh.nextblockhash with
              | none => (node, .ok [])
              | some nexts => ({ node with db := node.db.save bhash bh.json }, .ok nexts)

/-! ## The whole synchronisation -/

/-- A node that synchronises, and the hashes it has processed so far. -/
structure SyncState where
  node : Node
  processed : List Bytes := []

/-- Synchronise each of a list of blocks until a panic. -/
def syncEach (sync : SyncState → Bytes → Option (SyncState × Exit)) : List Bytes → SyncState → Option (SyncState × Exit)
  | [], state => some (state, .next)
  | one :: rest, state =>
      match sync state one with
      | some (state, .next) => syncEach sync rest state
      | stopped => stopped

section Cycle

variable (rt : Runtime) (neighbours : ℕ → Neighbour)

/-- Synchronise a block and then its successors; the neighbours may answer differently each time,
and nothing is returned when the fuel runs out. -/
def deepCycleSyncBlock : ℕ → SyncState → Bytes → Option (SyncState × Exit)
  | 0, _, _ => none
  | fuel + 1, state, bhash =>
      let (node, result) := syncBlockForDBAndNeighbor rt state.node (neighbours state.processed.length) bhash
      let state := { node, processed := state.processed ++ [bhash] }
      match result with
      | .error => some (state, .next)
      | .panic => some (state, .panic)
      | .ok bh => syncEach (deepCycleSyncBlock fuel) bh.nexts state

/-- Synchronise from the last block on, or from the first one that a neighbour names. -/
def syncBlockHead (fuel : ℕ) (node : Node) (start : Option Bytes) : Option (SyncState × Result Unit) :=
  match refreshKey node start with
  | none => some ({ node }, .error)
  | some bhash =>
      match overwriteLast rt node start (neighbours 0) with
      | (node, .error) => some ({ node, processed := [bhash] }, .error)
      | (node, .panic) => some ({ node, processed := [bhash] }, .panic)
      | (node, .ok nexts) =>
          match syncEach (deepCycleSyncBlock rt neighbours fuel) nexts { node, processed := [bhash] } with
          | none => none
          | some (state, .next) => some (state, .ok ())
          | some (state, _) => some (state, .panic)

end Cycle

end PolarCloud.Mining
