import PolarCloud.Base.Mailbox
import PolarCloud.Model.Mining.Payment
import PolarCloud.Model.Mining.Sync

/-! # Mining by proof of work, and the queue of the block saver

A miner that has no witness group pays its deposit and builds a block as soon as one is linked, and
queues it for the block saver. The call stands inside the turn of the block saver, which is the only
reader of the queue.
-/

namespace PolarCloud.Mining

open Keystore

/-- What mining meets outside of the program's state: the signatures and visits of the deposit, the
clock, the order in which `Range` visits the unpacked transactions, the Merkle root, and the nonce
that is found. -/
structure Work where
  call : Call
  createTime : Int64
  time : Int64
  visits : List (Bytes × TxItr)
  merkleRoot : Bytes
  nonce : UInt64
  typed : ∀ visit ∈ visits, visit.2.Typed

section Mine

variable (rt : Runtime) (wallet : Wallet)

/-- `Deposit`: a deposit that cannot be paid is left out. -/
def deposit (node : Node) (call : Call) : Node :=
  match payDeposit rt wallet node call with
  | .ok node => node
  | .error _ => node

theorem typed_blockForPOWTxs {createTime : Int64} {order : List (Bytes × TxItr)} {txs : List TxItr}
    (packed : blockForPOWTxs rt wallet createTime order = some txs) (typed : ∀ visit ∈ order, visit.2.Typed) :
    ∀ tx ∈ txs, tx.Typed := by
  unfold blockForPOWTxs at packed
  split at packed
  · cases packed
  · cases packed
    refine List.forall_mem_cons.mpr ⟨rfl, fun tx member => ?_⟩
    obtain ⟨visit, inside, rfl⟩ := List.mem_map.mp member
    exact typed visit inside

/-- The block that is queued: it follows the last one and opens a new group. -/
def buildBlockForPOW (node : Node) (work : Work) : Option BlockHeadVO :=
  match packed : blockForPOWTxs rt wallet work.createTime work.visits with
  | none => none
  | some txs => do
      let coinbase ← wallet.coinbase
      let last ← node.chain.getLastBlock
      let group ← node.chain.groups[last.group]?
      let bh : BlockHead :=
        { height := last.height + 1
          groupHeight := group.height + 1
          previousblockhash? := last.id?
          nTx := UInt64.ofNat txs.length
          merkleRoot? := some work.merkleRoot
          tx? := some (txs.map fun tx => tx.base.hash?)
          time := work.time
          witness? := some coinbase.hash
          nonce := work.nonce }
      some { bh := some (bh.buildHash rt), txs, typed := typed_blockForPOWTxs rt wallet packed work.typed }

/-- `AddBlock` starts mining when it has linked the block of a turn; `Mining` goes on to build a
block on a miner that has seen a height. -/
def mines (miner : Bool) (node : Node) (bhvo : BlockHeadVO) : Bool :=
  miner && node.chain.blocks.length < (saveBlockHead rt wallet node bhvo).1.chain.blocks.length &&
    0 < node.chain.highestBlock

/-- The node after a turn and the deposit that mining pays in it. -/
def minedNode (node : Node) (bhvo : BlockHeadVO) (work : Work) : Node :=
  deposit rt wallet (saveBlockHead rt wallet node bhvo).1 work.call

/-- A turn of the block saver, and what it queues. -/
inductive SaverTurn (miner : Bool) (node : Node) (bhvo : BlockHeadVO) : Node → Mailbox.Outcome BlockHeadVO → Prop where
  | ended (failed : (saveBlockHead rt wallet node bhvo).2 ≠ .next) :
      SaverTurn miner node bhvo (saveBlockHead rt wallet node bhvo).1 .ends
  | idle (ran : (saveBlockHead rt wallet node bhvo).2 = .next) (idle : mines rt wallet miner node bhvo = false) :
      SaverTurn miner node bhvo (saveBlockHead rt wallet node bhvo).1 .goesOn
  | mined (work : Work) (built : BlockHeadVO) (ran : (saveBlockHead rt wallet node bhvo).2 = .next)
      (starts : mines rt wallet miner node bhvo = true)
      (visits : SyncMap.Enumerates work.visits (minedNode rt wallet node bhvo work).unpacked)
      (builds : buildBlockForPOW rt wallet (minedNode rt wallet node bhvo work) work = some built) :
      SaverTurn miner node bhvo (minedNode rt wallet node bhvo work) (.sends built)
  | unbuilt (work : Work) (ran : (saveBlockHead rt wallet node bhvo).2 = .next)
      (starts : mines rt wallet miner node bhvo = true)
      (visits : SyncMap.Enumerates work.visits (minedNode rt wallet node bhvo work).unpacked)
      (unbuilt : buildBlockForPOW rt wallet (minedNode rt wallet node bhvo work) work = none) :
      SaverTurn miner node bhvo (minedNode rt wallet node bhvo work) .goesOn

/-- The block saver as the reader of `syncSaveBlockHead`. -/
def saver (miner : Bool) : Mailbox.Worker Node BlockHeadVO where
  turn := SaverTurn rt wallet miner
  sends node bhvo := mines rt wallet miner node bhvo = true
  ends node bhvo := (saveBlockHead rt wallet node bhvo).2 ≠ .next
  sends_of_turn turn := by
    cases turn with
    | mined _ _ _ starts => exact starts
  ends_of_turn turn := by
    cases turn with
    | ended failed => exact failed
  goesOn idle survives := ⟨_, .idle (not_not.mp survives) (Bool.eq_false_iff.mpr idle)⟩

end Mine

end PolarCloud.Mining
