import PolarCloud.Model.Mining.Miner
import PolarCloud.Model.Mining.Witness
import PolarCloud.Proofs.Mining.DoubleSpend

/-! # The deposits of a group

Neither the packing of a block nor its import looks at the witnesses that have deposited in the group
already. The groups of the chain hold no witness twice exactly in the runs where every block that is
linked happens to bring new ones.
-/

namespace PolarCloud.Mining

open Keystore

/-- `GetWitness`: the address of the key of the first input. -/
def TxItr.getWitness (rt : Runtime) (tx : TxItr) : Option Bytes := do
  let vin ← tx.getVin.head?
  buildAddrByPubkey rt vin.puk

/-- The deposits in the blocks of a group. -/
def Chain.depositTx (chain : Chain) (group : Group) : List TxItr :=
  group.blocks.flatMap fun ref => (chain.blocks[ref]?.map Block.depositTx).getD []

/-- No group holds two deposits of one witness. -/
def OneDepositEach (rt : Runtime) (chain : Chain) : Prop :=
  ∀ group ∈ chain.groups, ((chain.depositTx group).map (TxItr.getWitness rt)).Nodup

instance (rt : Runtime) (chain : Chain) : Decidable (OneDepositEach rt chain) := by
  unfold OneDepositEach
  infer_instance

/-- A node with its witnesses and the blocks that it has built and not yet saved. -/
structure Miner where
  node : Node := {}
  witnesses : WitnessChain := {}
  queue : List BlockHeadVO := []

/-- Deposits, payments and whatever reaches the chain; a transaction broadcast; witnesses, their
groups and the block at a position of the chain; the ways to build a block; and the turn of the block
saver that takes a built block. -/
inductive MinerEvent where
  | wallet (event : WalletEvent)
  | receive (content : Value)
  | witness (depositId addr : Bytes)
  | group (n height : UInt64)
  | setBlock (ref : ℕ)
  | build (packing : Packing)
  | buildAt (place : ℕ) (packing : Packing)
  | buildForPOW (work : Work)
  | save

namespace Miner

section Handle

variable (rt : Runtime) (wallet : Wallet) (miner : Miner)

/-- A built block is queued, and nothing happens when none is built. -/
def push (built : Option BlockHeadVO) : Miner := { miner with queue := miner.queue ++ built.toList }

def handle : MinerEvent → Miner
  | .wallet event => { miner with node := handleWallet rt wallet miner.node event }
  | .receive content => { miner with node := multicastTransactionRecv rt miner.node content }
  | .witness depositId addr => { miner with witnesses := miner.witnesses.addWitness { depositId, addr } }
  | .group n height =>
      match miner.witnesses.buildWitnessGroupForNum n height with
      | none => miner
      | some (witnesses, _) => { miner with witnesses }
  | .setBlock ref =>
      match miner.node.chain.blocks[ref]? with
      | none => miner
      | some block =>
          match miner.witnesses.setWitnessBlock rt miner.node.db miner.node.chain block with
          | none => miner
          | some (witnesses, _) => { miner with witnesses }
  | .build packing => miner.push (buildBlock rt wallet miner.node miner.witnesses packing)
  | .buildAt place packing => miner.push (buildBlockAt rt wallet miner.node miner.witnesses place packing)
  | .buildForPOW work => miner.push (buildBlockForPOW rt wallet miner.node work)
  | .save =>
      match miner.queue with
      | [] => miner
      | bhvo :: queue => { miner with node := (saveBlockHead rt wallet miner.node bhvo).1, queue }

/-- The state after a run. -/
def run (miner : Miner) (events : List MinerEvent) : Miner := events.foldl (handle rt wallet) miner

/-- A property of each event of a run and of the state that it meets. -/
def EachStep (holds : Miner → MinerEvent → Prop) : Miner → List MinerEvent → Prop
  | _, [] => True
  | miner, event :: rest => holds miner event ∧ EachStep holds (miner.handle rt wallet event) rest

/-- The maps that an event visits are the node's. -/
def Visits : MinerEvent → Prop
  | .wallet event => event.Visits miner.node
  | .build packing | .buildAt _ packing => SyncMap.Enumerates packing.visits miner.node.unpacked
  | .buildForPOW work => SyncMap.Enumerates work.visits miner.node.unpacked
  | _ => True

/-- The block that an event hands to `addBlock`. -/
def handed? : MinerEvent → Option (BlockHead × List TxItr)
  | .wallet (.chain event) => event.handed? rt miner.node
  | .save => miner.queue.head?.bind fun bhvo => ChainEvent.handed? rt miner.node (.block (.save bhvo))
  | _ => none

/-- A block is linked: its height follows, there is a coinbase to count it for, and every deposit has
an input and an output. -/
def Lands (node : Node) (bh : BlockHead) (txs : List TxItr) : Prop :=
  node.chain.Accepts bh ∧ wallet.coinbase.isSome ∧ DepositsFilled txs

end Handle

end Miner

/-- The height of every group and the deposits in it. -/
def Chain.groupDeposits (chain : Chain) : List (UInt64 × List TxItr) :=
  chain.groups.map fun group => (group.height, chain.depositTx group)

/-- The block that an event links brings no witness twice, and none that has deposited in the group
which the block joins. -/
def Miner.BringsNew (rt : Runtime) (wallet : Wallet) (miner : Miner) (event : MinerEvent) : Prop :=
  ∀ bh txs, miner.handed? rt event = some (bh, txs) → Miner.Lands wallet miner.node bh txs →
    Runs.Fits (TxItr.getWitness rt) bh.groupHeight (depositsOf rt txs) miner.node.chain.groupDeposits

/-! ## What a block does to the groups -/

section Groups

variable {rt : Runtime} {wallet : Wallet} {node next : Node}

theorem oneDepositEach_iff {chain : Chain} :
    OneDepositEach rt chain ↔ Runs.Distinct (TxItr.getWitness rt) chain.groupDeposits := by
  rw [OneDepositEach, Runs.Distinct, Chain.groupDeposits, List.forall_mem_map]

/-- The deposits under a list of blocks. -/
private def depositsAt (deposits : List (List TxItr)) (blocks : List ℕ) : List TxItr :=
  blocks.flatMap fun ref => deposits[ref]?.getD []

private theorem depositsAt_append (deposits : List (List TxItr)) (before blocks : List ℕ) :
    depositsAt deposits (before ++ blocks) = depositsAt deposits before ++ depositsAt deposits blocks :=
  List.flatMap_append

private theorem groupDeposits_eq (chain : Chain) :
    chain.groupDeposits = chain.pieces.map (Prod.map id (depositsAt (chain.labels.map fun label => label.2.2))) := by
  rw [Chain.groupDeposits, Chain.pieces, List.map_map]
  refine List.map_congr_left fun group _ => ?_
  simp only [Chain.depositTx, Function.comp, Prod.map, id_eq, depositsAt, Chain.labels, List.map_map,
    List.getElem?_map]
  rfl

/-- A block that is linked puts its deposits into the last group or into a new one. -/
theorem Chain.groupDeposits_of_linked {chain later : Chain} {bh : BlockHead} {deposits : List TxItr}
    (linked : chain.Linked) (pieces : later.pieces = Runs.join bh.groupHeight [chain.blocks.length] chain.pieces)
    (labels : later.labels = chain.labels ++ [(bh.hash, bh.height, deposits)]) :
    later.groupDeposits = Runs.join bh.groupHeight deposits chain.groupDeposits := by
  have size : (chain.labels.map fun label => label.2.2).length = chain.blocks.length := by
    rw [List.length_map, Chain.labels, List.length_map]
  have inside {run : UInt64 × List ℕ} (member : run ∈ chain.pieces) {ref : ℕ} (here : ref ∈ run.2) :
      ref < chain.blocks.length := by
    obtain ⟨group, isGroup, rfl⟩ := List.mem_map.mp member
    have listed : ref ∈ chain.groups.flatMap Group.blocks := List.mem_flatMap.mpr ⟨group, isGroup, here⟩
    rw [linked.pieces] at listed
    exact List.mem_range.mp listed
  have old : chain.pieces.map (Prod.map id (depositsAt (later.labels.map fun label => label.2.2))) =
      chain.groupDeposits := by
    rw [groupDeposits_eq, labels, List.map_append]
    refine List.map_congr_left fun run member => Prod.ext rfl ?_
    refine List.flatMap_congr fun ref here => ?_
    rw [List.getElem?_append_left (by rw [size]; exact inside member here)]
  have new : depositsAt (later.labels.map fun label => label.2.2) [chain.blocks.length] = deposits := by
    rw [labels, List.map_append, ← size]
    simp only [depositsAt, List.flatMap_singleton, List.map_singleton, List.getElem?_concat_length, Option.getD_some]
  rw [groupDeposits_eq later, pieces, Runs.map_join (depositsAt_append _), new, old]

theorem SameChain.groupDeposits (same : SameChain node next) : next.chain.groupDeposits = node.chain.groupDeposits := by
  simp only [Chain.groupDeposits, Chain.depositTx, same.groups, same.blocks]

/-- The groups after an event: as before, or with the deposits of the block that was linked. -/
theorem Handed.groupDeposits {handed : Option (BlockHead × List TxItr)} {exit : Exit} (linked : node.chain.Linked)
    (hands : Handed rt wallet node handed next exit) :
    (∃ bh txs, handed = some (bh, txs) ∧ Miner.Lands wallet node bh txs ∧
      next.chain.groupDeposits = Runs.join bh.groupHeight (depositsOf rt txs) node.chain.groupDeposits) ∨
      next.chain.groupDeposits = node.chain.groupDeposits ∧
        ∀ bh txs, handed = some (bh, txs) → ¬ Miner.Lands wallet node bh txs := by
  cases hands with
  | nothing unhanded same =>
    refine .inr ⟨same.groupDeposits, fun bh txs isHanded => ?_⟩
    rw [unhanded] at isHanded
    cases isHanded
  | panicked before bh txs isHanded same ran later =>
    refine .inr ⟨(same.trans later).groupDeposits, fun bh' txs' isHanded' lands => ?_⟩
    obtain ⟨rfl, rfl⟩ := Prod.mk.inj (Option.some.inj (isHanded.symm.trans isHanded'))
    have runs := (@addBlock_isSome_iff rt wallet before bh txs (same.linked linked)).mpr lands.2
    rw [ran] at runs
    cases runs
  | added before after bh txs added isHanded same ran later =>
    have linked' := same.linked linked
    have adds := addBlock_eq_some_iff.mp ran
    have runs := (@addBlock_isSome_iff rt wallet before bh txs linked').mp (by rw [ran]; rfl)
    by_cases accepted : node.chain.Accepts bh
    · have accepted' := (same.accepts_iff bh).mpr accepted
      obtain ⟨depositTx, collected, links⟩ := adds.deposits
      rw [(adds.added_iff linked').mpr accepted'] at links
      have labels := adds.labels linked'
      rw [if_pos accepted'] at labels
      refine .inl ⟨bh, txs, isHanded, ⟨accepted, runs⟩, ?_⟩
      rw [later.groupDeposits, ← same.groupDeposits]
      exact Chain.groupDeposits_of_linked linked' (Chain.linkBlock_pieces linked' accepted' links) labels
    · refine .inr ⟨?_, fun bh' txs' isHanded' lands => ?_⟩
      · have refused : added = false := by
          rw [Bool.eq_false_iff, Ne, adds.added_iff linked', same.accepts_iff]
          exact accepted
        subst refused
        rw [later.groupDeposits, ← same.groupDeposits, adds.chain_eq linked']
      · obtain ⟨rfl, rfl⟩ := Prod.mk.inj (Option.some.inj (isHanded.symm.trans isHanded'))
        exact accepted lands.1

end Groups

/-! ## Runs -/

namespace Miner

variable {rt : Runtime} {wallet : Wallet} {miner : Miner}

/-- A payment changes the pool alone. -/
theorem sameChain_send (node : Node) (call : Call) (address : Bytes) (amount : UInt64) :
    SameChain node (handleWallet rt wallet node (.send call address amount)) := by
  rw [handleWallet_send]
  split
  · exact ⟨rfl, rfl, rfl, rfl, rfl⟩
  · exact .refl _

theorem sameChain_deposit (node : Node) (call : Call) :
    SameChain node (handleWallet rt wallet node (.deposit call)) := by
  cases mines : wallet.coinbase with
  | none =>
    simp only [handleWallet, payDeposit, Wallet.getCoinbase, mines]
    exact .refl _
  | some coinbase =>
    rw [handleWallet_deposit mines]
    split
    · exact ⟨rfl, rfl, rfl, rfl, rfl⟩
    · exact .refl _

theorem node_handle_group (n height : UInt64) : (miner.handle rt wallet (.group n height)).node = miner.node := by
  rw [handle]
  split <;> rfl

theorem node_handle_setBlock (ref : ℕ) : (miner.handle rt wallet (.setBlock ref)).node = miner.node := by
  rw [handle]
  split
  · rfl
  · split <;> rfl

/-- Every event hands over its block, and does nothing else to the chain. -/
theorem handle_handed (event : MinerEvent) :
    ∃ exit, Handed rt wallet miner.node (miner.handed? rt event) (miner.handle rt wallet event).node exit := by
  have unhanded {next : Node} (same : SameChain miner.node next) : ∃ exit, Handed rt wallet miner.node none next exit :=
    ⟨.next, .nothing rfl same⟩
  cases event with
  | wallet event =>
    cases event with
    | send call address amount => exact unhanded (sameChain_send miner.node call address amount)
    | deposit call => exact unhanded (sameChain_deposit miner.node call)
    | chain event => exact handleChain_handed event
  | receive content =>
    refine unhanded ?_
    simp only [handle, multicastTransactionRecv]
    split
    · exact .refl _
    · split
      · exact .refl _
      · exact ⟨rfl, rfl, rfl, rfl, rfl⟩
  | witness depositId addr => exact unhanded (.refl _)
  | group n height =>
    rw [node_handle_group]
    exact unhanded (.refl _)
  | setBlock ref =>
    rw [node_handle_setBlock]
    exact unhanded (.refl _)
  | build packing => exact unhanded (.refl _)
  | buildAt place packing => exact unhanded (.refl _)
  | buildForPOW work => exact unhanded (.refl _)
  | save =>
    rw [handle, handed?]
    cases miner.queue with
    | nil => exact unhanded (.refl _)
    | cons bhvo queue => exact ⟨_, saveBlockHead_handed bhvo⟩

theorem linked_handle (linked : miner.node.chain.Linked) (event : MinerEvent) :
    (miner.handle rt wallet event).node.chain.Linked := by
  obtain ⟨exit, hands⟩ := @handle_handed rt wallet miner event
  exact (hands.effect linked).1

/-- An event keeps the deposits of each group apart exactly when they are apart and its block brings
new witnesses. -/
theorem oneDepositEach_handle_iff (linked : miner.node.chain.Linked) (event : MinerEvent) :
    OneDepositEach rt (miner.handle rt wallet event).node.chain ↔
      OneDepositEach rt miner.node.chain ∧ miner.BringsNew rt wallet event := by
  obtain ⟨exit, hands⟩ := @handle_handed rt wallet miner event
  rw [oneDepositEach_iff, oneDepositEach_iff]
  rcases hands.groupDeposits linked with ⟨bh, txs, isHanded, lands, joined⟩ | ⟨same, unlanded⟩
  · rw [joined, Runs.distinct_join_iff]
    refine and_congr_right fun _ => ⟨fun fits bh' txs' isHanded' _ => ?_, fun brings => brings bh txs isHanded lands⟩
    obtain ⟨rfl, rfl⟩ := Prod.mk.inj (Option.some.inj (isHanded.symm.trans isHanded'))
    exact fits
  · rw [same, iff_self_and]
    exact fun _ bh txs isHanded lands => absurd lands (unlanded bh txs isHanded)

/-- The same over a run, from any state that is linked. -/
theorem oneDepositEach_run_iff (linked : miner.node.chain.Linked) (events : List MinerEvent) :
    OneDepositEach rt (miner.run rt wallet events).node.chain ↔
      OneDepositEach rt miner.node.chain ∧ EachStep rt wallet (Miner.BringsNew rt wallet) miner events := by
  induction events generalizing miner with
  | nil => simp only [run, List.foldl_nil, EachStep, and_true]
  | cons event rest ih =>
    rw [run, List.foldl_cons, EachStep, ← and_assoc, ← oneDepositEach_handle_iff linked event]
    exact ih (linked_handle linked event)

end Miner

/-- In every run from an empty chain, no group holds two deposits of one witness exactly when each
block that is linked brings new witnesses. -/
theorem oneDepositEach_iff_bringsNew (rt : Runtime) (wallet : Wallet) (db : Db) (events : List MinerEvent) :
    OneDepositEach rt (Miner.run rt wallet { node := { db } } events).node.chain ↔
      Miner.EachStep rt wallet (Miner.BringsNew rt wallet) { node := { db } } events := by
  have fresh : ({ db } : Node).chain.Fresh := ⟨rfl, rfl, rfl⟩
  have empty : OneDepositEach rt ({ db } : Node).chain := List.forall_mem_nil _
  rw [Miner.oneDepositEach_run_iff fresh.linked, and_iff_right empty]

/-! ## Two deposits of one witness -/

namespace Sample

/-- Two deposits from one key. -/
def firstStake : TxItr :=
  .depositIn
    { type := Config.walletTxTypeDepositIn, vinTotal := 1, vin? := some [{ txid? := some [5], puk? := some [7] }], voutTotal := 1,
      vout? := some [{ value := 100000000, address? := some [0, 1, 7] }] }

def secondStake : TxItr :=
  .depositIn
    { type := Config.walletTxTypeDepositIn, vinTotal := 1, vin? := some [{ txid? := some [5, 5, 5, 5], puk? := some [7] }],
      voutTotal := 1, vout? := some [{ value := 100000000, address? := some [0, 1, 7] }] }

/-- The block of the first witness of the second group, which brings the first deposit. -/
def opening : BlockHeadVO where
  bh := some { hash? := some [2], height := 2, groupHeight := 2, previousblockhash? := some [1], tx? := some [some (firstStake.id runtime)],
               witness? := some otherKey.hash }
  txs := [firstStake]
  typed := List.forall_mem_singleton.mpr rfl

/-- The second deposit waits. -/
def waiting : Packing where
  visits := [(secondStake.id runtime, secondStake.buildHash runtime)]
  typed := List.forall_mem_singleton.mpr rfl

/-- Up to the block of the first witness, which the second one sees. -/
def openingEvents : List MinerEvent :=
  [.wallet (.chain (.block (.save (bare genesis)))), .witness [8] otherKey.hash, .witness [9] coinbaseKey.hash,
    .group 2 2, .wallet (.chain (.block (.save opening))), .setBlock 1]

/-- Then the second deposit arrives, and the second witness builds and saves its block. -/
def closingEvents : List MinerEvent := [.receive secondStake.json, .build waiting, .save]

theorem multicast_secondStake (node : Node) : multicastTransactionRecv runtime node secondStake.json =
    { node with unpacked := node.unpacked.store (secondStake.id runtime) (secondStake.buildHash runtime) } := by
  have read : parseTxBase runtime secondStake.json = some secondStake := TxItr.parse_json _ rfl
  simp only [multicastTransactionRecv, read, TxItr.check, Bool.not_true, Bool.false_eq_true, if_false,
    TxItr.getHash_buildHash]

/-- Nothing is pending before the second deposit. -/
theorem unpacked_opening (id : Bytes) : (Miner.run runtime twoKeys {} openingEvents).node.unpacked.load id = none := by
  rw [Option.eq_none_iff_forall_ne_some]
  intro tx present
  simp only [Miner.run, openingEvents, List.foldl_cons, List.foldl_nil, Miner.node_handle_setBlock] at present
  have before := @handleChain_unpacked runtime twoKeys _ (.block (.save opening)) id tx present
  rw [Miner.node_handle_group] at before
  cases @handleChain_unpacked runtime twoKeys {} (.block (.save (bare genesis))) id tx before

/-- The second deposit is all that is pending. -/
theorem waiting_visits : SyncMap.Enumerates waiting.visits
    (Miner.run runtime twoKeys {} (openingEvents ++ [.receive secondStake.json])).node.unpacked := by
  rw [Miner.run, List.foldl_append]
  change SyncMap.Enumerates _ (multicastTransactionRecv runtime (Miner.run runtime twoKeys {} openingEvents).node
    secondStake.json).unpacked
  rw [multicast_secondStake]
  have nothing : SyncMap.Enumerates [] (Miner.run runtime twoKeys {} openingEvents).node.unpacked :=
    ⟨List.nodup_nil, fun id tx => by simp only [unpacked_opening, List.not_mem_nil, reduceCtorEq]⟩
  exact nothing.store (unpacked_opening _) _

end Sample

/-- The second witness of a group packs a deposit of a witness that has deposited in the block of the
first one. -/
theorem deposited_twice : ∃ events, Miner.EachStep Sample.runtime Sample.twoKeys Miner.Visits {} events ∧
    ¬ OneDepositEach Sample.runtime (Miner.run Sample.runtime Sample.twoKeys {} events).node.chain := by
  refine ⟨Sample.openingEvents ++ Sample.closingEvents, ?_, by decide +kernel⟩
  exact ⟨trivial, trivial, trivial, trivial, trivial, trivial, trivial, Sample.waiting_visits, trivial, trivial⟩

end PolarCloud.Mining
