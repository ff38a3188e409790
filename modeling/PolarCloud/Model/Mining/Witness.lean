import PolarCloud.Model.Mining.Payment

/-! # Witness groups and the blocks of their witnesses

Witnesses queue in the order in which they are added; a group takes the next ones. A witness of the
group built last builds a block: the rewards and the returned deposits of the group before, when its
address is that of the first witness of its group, and the pending transactions.
-/

namespace PolarCloud.Mining

open Keystore

structure Witness where
  depositId : Bytes
  addr : Bytes
  /-- the block that the witness has produced -/
  block : Option Block := none
deriving DecidableEq, Repr

structure WitnessGroup where
  height : UInt64
  witness : List Witness
deriving DecidableEq, Repr

/-- The chain of witnesses, cut into the groups in the order in which they are linked and the
witnesses behind the last group. The group built last is the current one. -/
structure WitnessChain where
  groups : List WitnessGroup := []
  waiting : List Witness := []
deriving DecidableEq, Repr

/-- Read the header of a block. -/
def Block.load (rt : Runtime) (db : Db) (block : Block) : Option BlockHead := do
  let bh ← db.find block.id
  parseBlockHead rt bh

namespace WitnessChain

def current (witnesses : WitnessChain) : Option WitnessGroup := witnesses.groups.getLast?

/-- The group before the current one. -/
def preGroup (witnesses : WitnessChain) : Option WitnessGroup := witnesses.groups.dropLast.getLast?

def addWitness (witnesses : WitnessChain) (newwitness : Witness) : WitnessChain :=
  { witnesses with waiting := witnesses.waiting ++ [newwitness] }

/-- Take the next `n` witnesses into a new group, whose height is the next one when none is given.
Nothing is returned after a panic: no witness at all, or a current group without witnesses. The mining
that starts afterwards is a step of its own. -/
def buildWitnessGroupForNum (witnesses : WitnessChain) (n height : UInt64) : Option (WitnessChain × Bool) :=
  -- `int(n)` is negative from 2^63 on, and then no witness is taken
  let count := n.toInt64.toInt.toNat
  let built (height : UInt64) : WitnessChain × Bool :=
    if witnesses.waiting.length < count then (witnesses, false)
    else
      ({ groups := witnesses.groups ++ [{ height, witness := witnesses.waiting.take count }]
         waiting := witnesses.waiting.drop count }, true)
  match witnesses.current with
  | none =>
      if height = 0 then some (witnesses, false)
      else if witnesses.waiting = [] then none
      else some (built height)
  | some group =>
      if group.witness = [] then none
      else if witnesses.waiting = [] then some (witnesses, false)
      else some (built (if height = 0 then group.height + 1 else height))

/-- Give the block to the first witness with the address, and tell whether it is the last one. -/
def setBlock (addr : Bytes) (block : Block) : List Witness → Option (List Witness × Bool)
  | [] => none
  | one :: rest =>
      if one.addr = addr then some ({ one with block := some block } :: rest, rest = [])
      else (setBlock addr block rest).map fun (rest, last) => (one :: rest, last)

/-- Set the block of a witness of the current group: whether it was set, and whether it is the last
of the group. A block outside of the chain in memory is a panic. -/
def setWitnessBlock (rt : Runtime) (db : Db) (chain : Chain) (witnesses : WitnessChain) (block : Block) :
    Option (WitnessChain × Bool × Bool) :=
  match witnesses.current with
  | none => some (witnesses, false, false)
  | some group => do
      let own ← chain.groups[block.group]?
      if group.height ≠ own.height then some (witnesses, false, false)
      else
        match block.load rt db with
        | none => some (witnesses, false, false)
        | some bh =>
            match setBlock bh.witness block group.witness with
            | none => some (witnesses, false, false)
            | some (witness, last) =>
                some ({ witnesses with groups := witnesses.groups.dropLast ++ [{ group with witness }] }, true, last)

end WitnessChain

namespace WitnessGroup

/-- The witnesses of the group that have produced a block. -/
def producers (group : WitnessGroup) : List Witness := group.witness.filter fun one => one.block.isSome

/-- The address is that of the first witness of the group. -/
def isFirst (group : WitnessGroup) (addr : Bytes) : Bool := group.witness.head?.any fun first => first.addr = addr

end WitnessGroup

/-! ## Building a block -/

/-- What building a block meets outside of the program's state: the clock, the order in which `Range`
visits the pending transactions, and the Merkle root. -/
structure Packing where
  rewardTime : Int64 := 0
  outTime : Int64 := 0
  time : Int64 := 0
  visits : List (Bytes × TxItr)
  merkleRoot : Bytes := []
  typed : ∀ visit ∈ visits, visit.2.Typed

/-- The number that `ReadUvarint` has read when a byte ends it, or when the bytes end. -/
def readUvarint (place : ℕ) : Bytes → ℕ
  | [] => 0
  | b :: rest =>
      if b < 0x80 then b.toNat * 2 ^ (7 * place)
      else (b.toNat - 0x80) * 2 ^ (7 * place) + readUvarint (place + 1) rest

/-- The class in the first eight bytes of an id. The buffer of a decoded id holds a multiple of three
bytes, so that eight of them are there from a length of seven on; below that it is a panic. -/
def classOfId (txid : Bytes) : Option ℕ :=
  if txid.length < 7 then none else some (readUvarint 0 ((txid ++ [0]).take 8))

section Build

variable (rt : Runtime)

/-- The deposits among the transactions of a block. -/
def depositsOfIds (db : Db) : List Bytes → Option (List TxItr)
  | [] => some []
  | two :: rest => do
      let txClass ← classOfId two
      if txClass ≠ Config.walletTxTypeDepositIn.toNat then depositsOfIds db rest
      else
        let txbs ← db.find two
        let txBase ← parseTxBase rt txbs
        let deposits ← depositsOfIds db rest
        some (txBase :: deposits)

def depositsOfBlocks (db : Db) : List Block → Option (List TxItr)
  | [] => some []
  | block :: rest => do
      let bh ← block.load rt db
      let deposits ← depositsOfIds rt db bh.tx
      let later ← depositsOfBlocks db rest
      some (deposits ++ later)

/-- The deposits in the blocks of the group, for a witness other than the first. -/
def existDeposit (db : Db) (group : WitnessGroup) (addr : Bytes) : Option (List TxItr) :=
  if group.witness.head?.any (fun first => first.addr ≠ addr) then
    depositsOfBlocks rt db (group.witness.filterMap Witness.block)
  else some []

/-- A reward for every witness that has produced a block. -/
def rewardTx (producers : List Witness) (createTime : Int64) : TxItr :=
  let vouts := producers.map fun one => ({ value := Config.miningReward, address? := some one.addr } : Vout)
  .reward { type := Config.walletTxTypeMining, voutTotal := UInt64.ofNat vouts.length, vout? := some vouts } createTime

/-- What returns the deposits of witnesses: an input without a key and the first output of each; a
stored deposit without outputs is a panic. -/
def refunds (db : Db) : List Witness → Option (List (Vin × Vout))
  | [] => some []
  | one :: rest => do
      let bs ← db.find one.depositId
      let txItr ← parseTxBase rt bs
      let first ← txItr.getVout.head?
      let later ← refunds db rest
      some (({ txid? := some one.depositId, vout := 0 }, { value := first.value, address? := first.address? }) :: later)

def depositOutTx (refunds : List (Vin × Vout)) (createTime : Int64) : TxItr :=
  .depositOut
    { type := Config.walletTxTypeDepositOut
      vinTotal := UInt64.ofNat refunds.length
      vin? := some (refunds.map Prod.fst)
      voutTotal := UInt64.ofNat refunds.length
      vout? := some (refunds.map Prod.snd) } createTime

theorem getVout_rewardTx (producers : List Witness) (createTime : Int64) : (rewardTx producers createTime).getVout =
    producers.map fun one => { value := Config.miningReward, address? := some one.addr } := rfl

theorem getVin_depositOutTx (refunds : List (Vin × Vout)) (createTime : Int64) :
    (depositOutTx refunds createTime).getVin = refunds.map Prod.fst := rfl

theorem getVout_depositOutTx (refunds : List (Vin × Vout)) (createTime : Int64) :
    (depositOutTx refunds createTime).getVout = refunds.map Prod.snd := rfl

/-- The rewards and the returned deposits of the group before. -/
def bonusTxs (db : Db) (group : WitnessGroup) (packing : Packing) : Option (List TxItr) := do
  let refunds ← refunds rt db group.producers
  some [(rewardTx group.producers packing.rewardTime).buildHash rt, (depositOutTx refunds packing.outTime).buildHash rt]

/-- What the first witness of a group adds to its block, where there is a group before. -/
def bonusOf (db : Db) (group : WitnessGroup) (preGroup : Option WitnessGroup) (addr : Bytes) (packing : Packing) :
    Option (List TxItr) :=
  match preGroup with
  | some preGroup => if group.isFirst addr then bonusTxs rt db preGroup packing else some []
  | none => some []

/-- The transactions of a block: the deposits of the group are collected, and nothing looks at them. -/
def blockTxs (db : Db) (group : WitnessGroup) (preGroup : Option WitnessGroup) (addr : Bytes) (packing : Packing) :
    Option (List TxItr) := do
  let _ ← existDeposit rt db group addr
  let bonus ← bonusOf rt db group preGroup addr packing
  some (bonus ++ packPending packing.visits)

theorem typed_bonusOf {db : Db} {group : WitnessGroup} {preGroup : Option WitnessGroup} {addr : Bytes}
    {packing : Packing} {bonus : List TxItr} (added : bonusOf rt db group preGroup addr packing = some bonus) :
    ∀ tx ∈ bonus, tx.Typed := by
  unfold bonusOf at added
  split at added
  · split at added
    · obtain ⟨_, -, made⟩ := Option.bind_eq_some_iff.mp added
      cases made
      exact List.forall_mem_cons.mpr ⟨rfl, List.forall_mem_singleton.mpr rfl⟩
    · cases added
      exact List.forall_mem_nil _
  · cases added
    exact List.forall_mem_nil _

theorem typed_blockTxs {db : Db} {group : WitnessGroup} {preGroup : Option WitnessGroup} {addr : Bytes}
    {packing : Packing} {txs : List TxItr} (packed : blockTxs rt db group preGroup addr packing = some txs) :
    ∀ tx ∈ txs, tx.Typed := by
  obtain ⟨-, -, packed⟩ := Option.bind_eq_some_iff.mp packed
  obtain ⟨bonus, added, same⟩ := Option.bind_eq_some_iff.mp packed
  cases same
  refine List.forall_mem_append.mpr ⟨typed_bonusOf rt added, fun tx member => ?_⟩
  obtain ⟨visit, inside, rfl⟩ := List.mem_map.mp member
  exact packing.typed visit inside

variable (wallet : Wallet) (node : Node) (witnesses : WitnessChain)

/-- The block of a witness: it follows the last block and carries the height of the group. -/
def buildGroupBlock (group : WitnessGroup) (preGroup : Option WitnessGroup) (addr : Bytes) (packing : Packing) :
    Option BlockHeadVO :=
  match packed : blockTxs rt node.db group preGroup addr packing with
  | none => none
  | some txs => do
      let coinbase ← wallet.coinbase
      let last ← node.chain.getLastBlock
      let bh : BlockHead :=
        { height := last.height + 1
          groupHeight := group.height
          previousblockhash? := last.id?
          nTx := UInt64.ofNat txs.length
          merkleRoot? := some packing.merkleRoot
          tx? := some (txs.map fun tx => tx.base.hash?)
          time := packing.time
          witness? := some coinbase.hash }
      some { bh := some (bh.buildHash rt), txs, typed := typed_blockTxs rt packed }

/-- `BuildBlock`: the first witness of the current group with the address of the coinbase builds a
block; without a group or without such a witness it is a panic. -/
def buildBlock (packing : Packing) : Option BlockHeadVO := do
  let coinbase ← wallet.coinbase
  let group ← witnesses.current
  let this ← group.witness.find? fun one => one.addr = coinbase.hash
  buildGroupBlock rt wallet node group witnesses.preGroup this.addr packing

/-- `Witness.BuildBlock` of the witness at a place of the current group: the witness before it, if
there is one, must have a block, or it is a panic. -/
def buildBlockAt (place : ℕ) (packing : Packing) : Option BlockHeadVO := do
  let coinbase ← wallet.coinbase
  let group ← witnesses.current
  let this ← group.witness[place]?
  let before := witnesses.groups.dropLast.flatMap WitnessGroup.witness ++ group.witness.take place
  if this.addr ≠ coinbase.hash then none
  else if before.getLast?.any (fun one => one.block.isNone) then none
  else buildGroupBlock rt wallet node group witnesses.preGroup this.addr packing

end Build

end PolarCloud.Mining
