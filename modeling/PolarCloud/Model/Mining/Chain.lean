import PolarCloud.Base.Arena
import PolarCloud.Model.Mining.Balance

/-! # The chain in memory

Blocks and groups refer to each other by their positions in two arenas. A block that does not
follow the last one is never linked and leaves no trace in the arenas; balances and backup
witnesses are updated before that is decided.
-/

namespace PolarCloud.Mining

open Keystore

structure Block where
  preBlock : Option ℕ := none
  nextBlock : Option ℕ := none
  /-- the group that holds the block -/
  group : ℕ
  height : UInt64
  id? : Option Bytes
  depositTx : List TxItr
deriving DecidableEq, Repr

/-- The hash of the block. -/
def Block.id (block : Block) : Bytes := block.id?.getD []

structure Group where
  preGroup : Option ℕ := none
  nextGroup : Option ℕ := none
  height : UInt64
  blocks : List ℕ
deriving DecidableEq, Repr

structure Chain where
  blocks : List Block := []
  groups : List Group := []
  /-- the group produced last -/
  group : Option ℕ := none
  startingBlock : UInt64 := 0
  highestBlock : UInt64 := 0
  currentBlock : UInt64 := 0
deriving DecidableEq, Repr

structure BackupWitness where
  addr : Bytes
  score : UInt64
deriving DecidableEq, Repr

/-- The state of a node that the mining package keeps. -/
structure Node where
  db : Db := .empty
  chain : Chain := {}
  balanceM : BalanceManager := {}
  witnesses : List BackupWitness := []
  /-- `unpackedTransactions` -/
  unpacked : SyncMap Bytes TxItr := .empty

namespace Chain

/-- `Block.GetLastBlock`: follow the blocks from the given one. -/
def getLastBlockFrom (chain : Chain) (block : ℕ) : Option ℕ :=
  Arena.lastRef Block.nextBlock chain.blocks chain.blocks.length block

def getFirstBlock (chain : Chain) : Option ℕ := do
  let group ← chain.group
  let first ← Arena.lastRef Group.preGroup chain.groups chain.groups.length group
  let first ← chain.groups[first]?
  first.blocks.head?

def getLastBlock (chain : Chain) : Option Block := do
  let group ← chain.group
  let group ← chain.groups[group]?
  let last ← group.blocks.getLast?
  chain.blocks[last]?

/-- The blocks from the first one to the last one. -/
def onChain (chain : Chain) : List Block :=
  match chain.getFirstBlock with
  | none => []
  | some first => Arena.traverse Block.nextBlock chain.blocks chain.blocks.length first

/-- Link a block, or refuse it because its height does not follow the last height. -/
def linkBlock (chain : Chain) (bh : BlockHead) (depositTx : List TxItr) : Option (Chain × Bool) :=
  match chain.group with
  | none =>
      let newBlock : Block := { group := chain.groups.length, height := bh.height, id? := bh.hash?, depositTx }
      let newGroup : Group := { height := bh.groupHeight, blocks := [chain.blocks.length] }
      some ({ chain with
        blocks := chain.blocks ++ [newBlock], groups := chain.groups ++ [newGroup],
        group := some chain.groups.length }, true)
  | some current => do
      let current ← chain.groups[current]?
      let first ← current.blocks.head?
      let last ← chain.getLastBlockFrom first
      let lastBlock ← chain.blocks[last]?
      let lastGroup ← chain.groups[lastBlock.group]?
      if lastBlock.height + 1 ≠ bh.height then some (chain, false)
      else
        let blocks := chain.blocks.modify last fun block => { block with nextBlock := some chain.blocks.length }
        if bh.groupHeight = lastGroup.height then
          let newBlock : Block :=
            { preBlock := some last, group := lastBlock.group, height := bh.height, id? := bh.hash?, depositTx }
          some ({ chain with
            blocks := blocks ++ [newBlock],
            groups := chain.groups.modify lastBlock.group fun group =>
              { group with blocks := group.blocks ++ [chain.blocks.length] } }, true)
        else
          let newBlock : Block :=
            { preBlock := some last, group := chain.groups.length, height := bh.height, id? := bh.hash?, depositTx }
          let newGroup : Group :=
            { preGroup := some lastBlock.group, height := bh.groupHeight, blocks := [chain.blocks.length] }
          some ({ chain with
            blocks := blocks ++ [newBlock],
            groups := (chain.groups.modify lastBlock.group fun group =>
              { group with nextGroup := some chain.groups.length }) ++ [newGroup],
            group := some chain.groups.length }, true)

end Chain

/-- Add a backup witness; the score that is passed is not used. -/
def addWitness (witnesses : List BackupWitness) (addr : Bytes) (_score : UInt64) : List BackupWitness :=
  witnesses ++ [{ addr, score := 0 }]

/-- Collect the deposits of a block and enter their payers as backup witnesses; a deposit without
inputs or outputs is a panic. -/
def collectDeposits (rt : Runtime) : List TxItr → List BackupWitness → Option (List BackupWitness × List TxItr)
  | [], witnesses => some (witnesses, [])
  | one :: rest, witnesses =>
      if one.txClass = Config.walletTxTypeDepositIn then do
        let vin ← one.getVin.head?
        match buildAddrByPubkey rt vin.puk with
        | none =>
            let (witnesses, depositTx) ← collectDeposits rt rest witnesses
            some (witnesses, one :: depositTx)
        | some addr =>
            let vout ← one.getVout.head?
            let (witnesses, depositTx) ← collectDeposits rt rest (addWitness witnesses addr vout.value)
            some (witnesses, one :: depositTx)
      else collectDeposits rt rest witnesses

/-- Add a block: count it, collect its deposits, link it. Nothing is returned after a panic. The
mining that a miner starts afterwards is a step of its own. -/
def addBlock (rt : Runtime) (wallet : Wallet) (node : Node) (bh : BlockHead) (txs : List TxItr) :
    Option (Node × Bool) := do
  let balanceM ← node.balanceM.count rt wallet bh.height txs
  let txs := txs.map fun tx => if tx.counted then tx.buildHash rt else tx
  let (witnesses, depositTx) ← collectDeposits rt txs node.witnesses
  let (chain, added) ← node.chain.linkBlock bh depositTx
  some ({ node with chain, balanceM, witnesses }, added)

/-! ## Linked chains -/

namespace Chain

/-- Blocks and groups are linked in the order of their arenas, and the groups cut the blocks into
consecutive pieces. -/
structure Linked (chain : Chain) : Prop where
  blocks : Arena.Chained Block.preBlock Block.nextBlock chain.blocks
  groups : Arena.Chained Group.preGroup Group.nextGroup chain.groups
  group : chain.group = if chain.groups = [] then none else some (chain.groups.length - 1)
  pieces : chain.groups.flatMap Group.blocks = List.range chain.blocks.length
  nonempty : ∀ group : Group, group ∈ chain.groups → group.blocks ≠ []
  owner : ∀ (ref : ℕ) (group : Group), chain.groups[ref]? = some group → ∀ block ∈ group.blocks,
    ∀ content : Block, chain.blocks[block]? = some content → content.group = ref

theorem linked_empty (starting highest current : UInt64) :
    Chain.Linked { startingBlock := starting, highestBlock := highest, currentBlock := current } where
  blocks := Arena.chained_nil
  groups := Arena.chained_nil
  group := rfl
  pieces := rfl
  nonempty := fun group member => by simp at member
  owner := fun ref group present => by simp at present

/-- A block may follow when the chain is empty or its height is the next one. -/
def Accepts (chain : Chain) (bh : BlockHead) : Prop :=
  ∀ last, chain.getLastBlock = some last → last.height + 1 = bh.height

instance (chain : Chain) (bh : BlockHead) : Decidable (chain.Accepts bh) := by
  unfold Accepts
  infer_instance

namespace Linked

variable {chain : Chain} (linked : chain.Linked)

include linked

theorem groups_eq_nil_iff : chain.groups = [] ↔ chain.blocks = [] := by
  have pieces := linked.pieces
  constructor
  · intro empty
    rw [empty, List.flatMap_nil] at pieces
    exact List.length_eq_zero_iff.mp (List.range_eq_nil.mp pieces.symm)
  · intro empty
    rw [empty, List.length_nil, List.range_zero, List.flatMap_eq_nil_iff] at pieces
    by_contra present
    obtain ⟨group, member⟩ := List.exists_mem_of_ne_nil _ present
    exact linked.nonempty group member (pieces group member)

/-- The group produced last ends with the block linked last. -/
theorem last_group (present : chain.blocks ≠ []) :
    ∃ (group : Group) (block : Block), chain.group = some (chain.groups.length - 1) ∧
      chain.groups[chain.groups.length - 1]? = some group ∧
        group.blocks.getLast? = some (chain.blocks.length - 1) ∧
          chain.blocks[chain.blocks.length - 1]? = some block ∧ block.group = chain.groups.length - 1 := by
  have someGroup : chain.groups ≠ [] := fun empty => present (linked.groups_eq_nil_iff.mp empty)
  have positive := List.length_pos_iff.mpr someGroup
  have blockPositive := List.length_pos_iff.mpr present
  obtain ⟨before, group, split⟩ := List.eq_nil_or_concat chain.groups |>.resolve_left someGroup
  have lookup : chain.groups[chain.groups.length - 1]? = some group := by
    rw [split]
    simp
  have filled : group.blocks ≠ [] := linked.nonempty group (List.mem_of_getElem? lookup)
  have last : group.blocks.getLast? = some (chain.blocks.length - 1) := by
    have pieces := congrArg List.getLast? linked.pieces
    rw [split, List.concat_eq_append, List.flatMap_append, List.flatMap_singleton,
      List.getLast?_append_of_ne_nil _ filled, List.getLast?_range] at pieces
    rw [pieces, if_neg (by omega)]
  have content : chain.blocks[chain.blocks.length - 1]? = some chain.blocks[chain.blocks.length - 1] :=
    List.getElem?_eq_getElem (by omega)
  refine ⟨group, _, ?_, lookup, last, content, ?_⟩
  · rw [linked.group, if_neg someGroup]
  · exact linked.owner _ group lookup _ (List.mem_of_getLast? last) _ content

theorem getLastBlock_eq : chain.getLastBlock = chain.blocks.getLast? := by
  by_cases present : chain.blocks = []
  · have group := linked.group
    rw [if_pos (linked.groups_eq_nil_iff.mpr present)] at group
    simp [getLastBlock, group, present]
  · obtain ⟨group, block, current, lookup, last, content, -⟩ := linked.last_group present
    rw [List.getLast?_eq_getElem?, content]
    simp [getLastBlock, current, lookup, last, content]

theorem group_eq_none (empty : chain.blocks = []) : chain.group = none := by
  rw [linked.group, if_pos (linked.groups_eq_nil_iff.mpr empty)]

/-- The groups lead back to the first block. -/
theorem getFirstBlock_eq : chain.getFirstBlock = if chain.blocks = [] then none else some 0 := by
  split
  · next empty => simp [getFirstBlock, linked.group_eq_none empty]
  · next present =>
    obtain ⟨group, block, current, lookup, last, content, -⟩ := linked.last_group present
    have inside : chain.groups.length - 1 < chain.groups.length := by
      have someGroup : chain.groups ≠ [] := fun empty => present (linked.groups_eq_nil_iff.mp empty)
      have := List.length_pos_iff.mpr someGroup
      omega
    have walk := linked.groups.lastRef_pre inside inside
    obtain ⟨first, rest, split⟩ := List.exists_cons_of_length_pos (by omega : 0 < chain.groups.length)
    have head : first.blocks.head? = some 0 := by
      have filled := linked.nonempty first (split ▸ List.mem_cons_self ..)
      have pieces := congrArg List.head? linked.pieces
      rw [split, List.flatMap_cons, List.head?_append_of_ne_nil _ filled] at pieces
      rw [pieces, List.head?_range, if_neg (List.length_pos_iff.mpr present).ne']
    simp only [getFirstBlock, current, Option.bind_eq_bind, Option.bind_some, walk]
    rw [split]
    exact head

/-- From the first block along the forward links: the whole arena, in order. -/
theorem onChain_eq : chain.onChain = chain.blocks := by
  rw [onChain, linked.getFirstBlock_eq]
  split
  · next first =>
    split at first
    · next empty => exact empty.symm
    · cases first
  · next first isFirst =>
    split at isFirst
    · cases isFirst
    · next present =>
      cases isFirst
      exact linked.blocks.traverse_all present

end Linked

end Chain

end PolarCloud.Mining
