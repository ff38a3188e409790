import PolarCloud.Proofs.Mining.Spending
import PolarCloud.Proofs.Mining.Unspent

/-! # The inputs of the pending transactions

A payment or a deposit takes its inputs from the balances, which still list what a pending
transaction spends until its block is counted. Pending transactions share no input in every run in
which no call pays with such an output. A call that does is refused for another reason, replaces a
transaction of the same id, or breaks this at once.
-/

namespace PolarCloud.Mining

open Keystore

/-- A payment, a deposit, or whatever reaches the chain. -/
inductive WalletEvent where
  | send (call : Call) (address : Bytes) (amount : UInt64)
  | deposit (call : Call)
  | chain (event : ChainEvent)

/-- The node after an event; a call that fails leaves it as it is. -/
def handleWallet (rt : Runtime) (wallet : Wallet) (node : Node) : WalletEvent → Node
  | .send call address amount =>
      match sendToAddress rt wallet node call address amount with
      | .ok (next, _) => next
      | .error _ => node
  | .deposit call =>
      match payDeposit rt wallet node call with
      | .ok next => next
      | .error _ => node
  | .chain event => handleChain rt wallet node event

/-- Two transactions spend different outputs. -/
def Apart (first second : TxItr) : Prop :=
  ∀ vin ∈ first.getVin, ∀ other ∈ second.getVin, vin.outpoint ≠ other.outpoint

/-- Pending transactions share no input, and neither do those that a block packs. -/
structure NoDoubleSpend (rt : Runtime) (wallet : Wallet) (node : Node) : Prop where
  pending : ∀ id other tx tx', id ≠ other → node.unpacked.load id = some tx → node.unpacked.load other = some tx' →
    Apart tx tx'
  packed : ∀ order, SyncMap.Enumerates order node.unpacked → (packPending order).Pairwise Apart
  packedForPOW : ∀ order createTime txs, SyncMap.Enumerates order node.unpacked →
    blockForPOWTxs rt wallet createTime order = some txs → txs.Pairwise Apart

/-- `Range` visits nothing but the items of an address. -/
def Call.Visits (call : Call) (node : Node) : Prop :=
  ∀ addr items, node.balanceM.findBalance addr = some items →
    ∀ place item, (place, item) ∈ call.visits addr → items.load place = some item

/-- The coins that a call pays with: those that the loops take, if they come to what is needed. -/
def WalletEvent.coins (rt : Runtime) (wallet : Wallet) (node : Node) : WalletEvent → List (Address × TxItem)
  | .send call _ amount =>
      match wallet.coinbase with
      | none => []
      | some coinbase =>
          let drawn := drawPay rt wallet node call coinbase (amount + Config.miningGas)
          if (amount + Config.miningGas).toNat ≤ drawn.sum then drawn.coins else []
  | .deposit call =>
      match wallet.coinbase with
      | none => []
      | some coinbase =>
          let drawn := drawDeposit rt node call coinbase
          if Config.miningDeposit.toNat ≤ drawn.sum then drawn.coins else []
  | .chain _ => []

/-- A pending transaction spends the item. -/
def Pledged (node : Node) (item : TxItem) : Prop :=
  ∃ id tx, node.unpacked.load id = some tx ∧ ∃ vin ∈ tx.getVin, vin.outpoint = item.outpoint

/-- No pending transaction spends a coin that the call pays with. -/
def WalletEvent.PaysFree (rt : Runtime) (wallet : Wallet) (node : Node) (event : WalletEvent) : Prop :=
  ∀ one ∈ event.coins rt wallet node, ¬ Pledged node one.2

/-- The maps that an event visits are the node's. -/
def WalletEvent.Visits (node : Node) : WalletEvent → Prop
  | .send call .. => call.Visits node
  | .deposit call => call.Visits node
  | .chain _ => True

/-- One event, whatever it finds. -/
def WalletStep (rt : Runtime) (wallet : Wallet) (node next : Node) : Prop :=
  ∃ event : WalletEvent, event.Visits node ∧ next = handleWallet rt wallet node event

/-- One event whose call pays with no pledged coin. -/
def FreeStep (rt : Runtime) (wallet : Wallet) (node next : Node) : Prop :=
  ∃ event : WalletEvent, event.Visits node ∧ event.PaysFree rt wallet node ∧ next = handleWallet rt wallet node event

/-! ## The pool over a run -/

section Step

variable {rt : Runtime} {wallet : Wallet} {node : Node}

private theorem load_foldl_delete {pool : SyncMap Bytes TxItr} {txs : List TxItr} {id : Bytes} {tx : TxItr}
    (present : (txs.foldl (fun pool one => pool.delete one.getHash) pool).load id = some tx) :
    pool.load id = some tx := by
  induction txs generalizing pool with
  | nil => exact present
  | cons one rest ih =>
    have kept := ih present
    rw [SyncMap.load_delete] at kept
    split at kept
    · cases kept
    · exact kept

/-- A block leaves no transaction in the pool that was not there. -/
theorem storeBlock_unpacked {bh : BlockHead} {txs : List TxItr} {id : Bytes} {tx : TxItr}
    (present : (storeBlock rt wallet node bh txs).1.unpacked.load id = some tx) : node.unpacked.load id = some tx := by
  unfold storeBlock at present
  dsimp only at present
  split at present
  · exact load_foldl_delete present
  · next next added ran =>
    have same := (addBlock_eq_some_iff.mp ran).unpacked
    apply @load_foldl_delete _ txs
    split at present
    · rwa [same] at present
    · simp only [same] at present
      exact present

theorem saveBlockHead_unpacked {bhvo : BlockHeadVO} {id : Bytes} {tx : TxItr}
    (present : (saveBlockHead rt wallet node bhvo).1.unpacked.load id = some tx) : node.unpacked.load id = some tx := by
  unfold saveBlockHead at present
  split at present
  · split at present
    · exact present
    · dsimp only at present
      split at present
      · split at present
        · exact present
        · exact present
        · have kept := storeBlock_unpacked present
          exact kept
      · have kept := storeBlock_unpacked present
        exact kept
  · exact present

theorem syncBlock_unpacked (neighbour : Neighbour) (bhash : Bytes) :
    (syncBlockForDBAndNeighbor rt node neighbour bhash).1.unpacked = node.unpacked := by
  unfold syncBlockForDBAndNeighbor
  split
  · rfl
  · split
    · rfl
    · rfl
    · unfold importBlock
      split
      · dsimp only
        split
        · split <;> rfl
        · rfl
      · rfl
      · rfl

/-- Whatever reaches the chain adds nothing to the pool. -/
theorem handleChain_unpacked {event : ChainEvent} {id : Bytes} {tx : TxItr}
    (present : (handleChain rt wallet node event).unpacked.load id = some tx) : node.unpacked.load id = some tx := by
  cases event with
  | block event =>
    cases event with
    | save bhvo => exact saveBlockHead_unpacked present
    | sync neighbour bhash =>
      rw [handleChain, handle, syncBlock_unpacked] at present
      exact present
  | load bhash =>
    rcases @loadBlockForDB_cases rt wallet node bhash with ⟨-, same⟩ | ⟨bh, txs, -, loads⟩
    · rw [handleChain, same] at present
      exact present
    · rw [handleChain, loads] at present
      split at present
      · exact present
      · next next added ran =>
        rw [(addBlock_eq_some_iff.mp ran).unpacked] at present
        exact present
  | start height => exact present

/-! ## What a call spends -/

/-- A typed transaction is always made pending, under its id. -/
theorem submit_eq {tx : TxItr} (typed : tx.Typed) :
    submit rt node tx = .ok { node with unpacked := node.unpacked.store (tx.id rt) (tx.buildHash rt) } := by
  simp only [submit, TxItr.parse_json rt typed.buildHash, TxItr.buildHash_buildHash, TxItr.check, if_true,
    TxItr.getHash_buildHash]

/-- The first byte of an id is the class. -/
theorem TxItr.head_id (tx : TxItr) : (tx.id rt).head? = some (UInt8.ofNat tx.kind.toNat) := by
  cases tx <;> rfl

/-- The node with one more pending transaction. -/
def Node.pends (rt : Runtime) (node : Node) (tx : TxItr) : Node :=
  { node with unpacked := node.unpacked.store (tx.id rt) (tx.buildHash rt) }

theorem handleWallet_send {call : Call} {address : Bytes} {amount : UInt64} :
    handleWallet rt wallet node (.send call address amount) =
      match createTxPay rt wallet node call address amount Config.miningGas with
      | .ok tx => node.pends rt tx
      | .error _ => node := by
  rw [handleWallet, sendToAddress]
  cases made : createTxPay rt wallet node call address amount Config.miningGas with
  | error text => rfl
  | ok tx =>
    simp only [bind, Except.bind, submit_eq (createTxPay_spends made).1.1]
    rfl

theorem handleWallet_deposit {call : Call} {coinbase : Address} (mines : wallet.coinbase = some coinbase) :
    handleWallet rt wallet node (.deposit call) =
      match createTxDepositIn rt node call coinbase with
      | some tx => node.pends rt tx
      | none => node := by
  simp only [handleWallet, payDeposit, Wallet.getCoinbase, mines]
  cases made : createTxDepositIn rt node call coinbase with
  | none => rfl
  | some tx =>
    simp only [submit_eq (createTxDepositIn_spends made).1.1]
    rfl

/-- What a call makes pending spends the coins that it pays with. -/
structure Submits (rt : Runtime) (wallet : Wallet) (node : Node) (event : WalletEvent) (tx : TxItr) : Prop where
  next : handleWallet rt wallet node event = node.pends rt tx
  spends : ∃ call, Spends rt node call tx (event.coins rt wallet node)

theorem submits_send {call : Call} {address : Bytes} {amount : UInt64} {tx : TxItr}
    (made : createTxPay rt wallet node call address amount Config.miningGas = .ok tx) :
    Submits rt wallet node (.send call address amount) tx := by
  obtain ⟨-, coinbase, sum, mines, spends, enough, -⟩ := createTxPay_spends made
  refine ⟨by rw [handleWallet_send, made], call, ?_⟩
  simp only [WalletEvent.coins, mines, if_pos enough]
  exact spends

theorem submits_deposit {call : Call} {coinbase : Address} {tx : TxItr} (mines : wallet.coinbase = some coinbase)
    (made : createTxDepositIn rt node call coinbase = some tx) : Submits rt wallet node (.deposit call) tx := by
  obtain ⟨-, sum, spends, -, enough, isSum, -⟩ := createTxDepositIn_spends made
  refine ⟨by rw [handleWallet_deposit mines, made], call, ?_⟩
  simp only [WalletEvent.coins, mines, if_pos (isSum ▸ UInt64.le_iff_toNat_le.mp enough)]
  exact spends

/-- A call makes one transaction pending or changes nothing. -/
theorem handleWallet_cases (event : WalletEvent) : (∃ arrival, event = .chain arrival) ∨
    handleWallet rt wallet node event = node ∨ ∃ tx, Submits rt wallet node event tx := by
  cases event with
  | send call address amount =>
    right
    cases made : createTxPay rt wallet node call address amount Config.miningGas with
    | error text => exact .inl (by rw [handleWallet_send, made])
    | ok tx => exact .inr ⟨tx, submits_send made⟩
  | deposit call =>
    right
    cases mines : wallet.coinbase with
    | none => exact .inl (by simp only [handleWallet, payDeposit, Wallet.getCoinbase, mines])
    | some coinbase =>
      cases made : createTxDepositIn rt node call coinbase with
      | none => exact .inl (by rw [handleWallet_deposit mines, made])
      | some tx => exact .inr ⟨tx, submits_deposit mines made⟩
  | chain arrival => exact .inl ⟨arrival, rfl⟩

/-! ## Runs -/

theorem NoDoubleSpend.of_pending (pending : ∀ id other tx tx', id ≠ other → node.unpacked.load id = some tx →
    node.unpacked.load other = some tx' → Apart tx tx') : NoDoubleSpend rt wallet node := by
  have packed (order : List (Bytes × TxItr)) (enumerates : SyncMap.Enumerates order node.unpacked) :
      (packPending order).Pairwise Apart := by
    rw [packPending, List.pairwise_map]
    refine (List.pairwise_map.mp enumerates.nodup).imp_of_mem fun {first second} here there distinct => ?_
    exact pending _ _ _ _ distinct ((enumerates.mem_iff _ _).mp here) ((enumerates.mem_iff _ _).mp there)
  refine ⟨pending, packed, fun order createTime txs enumerates built => ?_⟩
  unfold blockForPOWTxs at built
  split at built
  · cases built
  · cases built
    refine List.pairwise_cons.mpr ⟨fun tx _ vin spends => ?_, packed order enumerates⟩
    rw [TxItr.getVin_buildHash] at spends
    cases spends

/-- Pending transactions share no input. -/
private def PendingApart (node : Node) : Prop :=
  ∀ id other tx tx', id ≠ other → node.unpacked.load id = some tx → node.unpacked.load other = some tx' → Apart tx tx'

private theorem PendingApart.submits (apart : PendingApart node) {event : WalletEvent} {tx : TxItr}
    (submits : Submits rt wallet node event tx) (free : event.PaysFree rt wallet node) :
    PendingApart (node.pends rt tx) := by
  obtain ⟨call, spends⟩ := submits.spends
  have fresh {id : Bytes} {other : TxItr} (present : node.unpacked.load id = some other) {vin : Vin}
      (spent : vin ∈ tx.getVin) {vin' : Vin} (member : vin' ∈ other.getVin) : vin.outpoint ≠ vin'.outpoint := by
    intro same
    obtain ⟨one, inside, outpoint⟩ := spends.outpoint spent
    exact free one inside ⟨id, other, present, vin', member, same.symm.trans outpoint⟩
  intro id other first second distinct here there
  simp only [Node.pends, SyncMap.load_store] at here there
  split at here
  · next isNew =>
    cases here
    rw [if_neg fun same => distinct (isNew.trans same.symm)] at there
    intro vin spent vin' member
    rw [TxItr.getVin_buildHash] at spent
    exact fresh there spent member
  · split at there
    · cases there
      intro vin spent vin' member
      rw [TxItr.getVin_buildHash] at member
      exact (fresh here member spent).symm
    · exact apart id other first second distinct here there

private theorem PendingApart.step (apart : PendingApart node) {next : Node} (step : FreeStep rt wallet node next) :
    PendingApart next := by
  obtain ⟨event, -, free, rfl⟩ := step
  rcases @handleWallet_cases rt wallet node event with ⟨arrival, rfl⟩ | same | ⟨tx, submits⟩
  · intro id other tx tx' distinct here there
    exact apart id other tx tx' distinct (handleChain_unpacked here) (handleChain_unpacked there)
  · rwa [same]
  · rw [submits.next]
    exact apart.submits submits free

/-- A call that pays with a pledged coin changes nothing, replaces the pending transaction of its id, or
makes two of them share an input. -/
theorem handleWallet_of_pledged {event : WalletEvent} (pledged : ¬ event.PaysFree rt wallet node) :
    handleWallet rt wallet node event = node ∨
      (∃ tx, (node.unpacked.load (tx.id rt)).isSome ∧ handleWallet rt wallet node event = node.pends rt tx) ∨
        ¬ NoDoubleSpend rt wallet (handleWallet rt wallet node event) := by
  unfold WalletEvent.PaysFree at pledged
  push Not at pledged
  obtain ⟨one, inside, id, other, present, vin', member, outpoint⟩ := pledged
  rcases @handleWallet_cases rt wallet node event with ⟨arrival, rfl⟩ | same | ⟨tx, submits⟩
  · cases inside
  · exact .inl same
  · right
    cases known : node.unpacked.load (tx.id rt) with
    | some replaced => exact .inl ⟨tx, by rw [known]; rfl, submits.next⟩
    | none =>
      right
      obtain ⟨call, spends⟩ := submits.spends
      obtain ⟨vin, spent, same⟩ := spends.spent inside
      have distinct : tx.id rt ≠ id := by
        rintro rfl
        cases known.symm.trans present
      rw [submits.next]
      intro safe
      refine safe.pending (tx.id rt) id (tx.buildHash rt) other distinct ?_ ?_ vin ?_ vin' member
        (same.trans outpoint.symm)
      · exact SyncMap.load_store_self _ _ _
      · rwa [Node.pends, SyncMap.load_store, if_neg distinct.symm]
      · rwa [TxItr.getVin_buildHash]

/-- Pending transactions share no input in every run whose calls pay with no pledged coin, and a call
that pays with one is refused, replaces the pending transaction of its id or breaks this. -/
theorem noDoubleSpend_of_free {db : Db} {node : Node}
    (run : Relation.ReflTransGen (FreeStep rt wallet) { db } node) :
    NoDoubleSpend rt wallet node ∧ ∀ event : WalletEvent, ¬ event.PaysFree rt wallet node →
      handleWallet rt wallet node event = node ∨
        (∃ tx, (node.unpacked.load (tx.id rt)).isSome ∧ handleWallet rt wallet node event = node.pends rt tx) ∨
          ¬ NoDoubleSpend rt wallet (handleWallet rt wallet node event) := by
  have apart : PendingApart node := by
    induction run with
    | refl => exact fun _ _ _ _ _ present => (nomatch present)
    | tail _ step ih => exact ih.step step
  exact ⟨.of_pending apart, fun event pledged => handleWallet_of_pledged pledged⟩

end Step

namespace Sample

/-- A reward that a deposit can be made from, and its item. -/
def mint : TxItr := .reward { voutTotal := 1, vout? := some [{ value := 300000000, address? := some coinbaseKey.hash }] } 0

def coin : TxItem := { value := 300000000, txid := mint.id runtime, outIndex := 0 }

/-- A first block that brings the reward. -/
def minted : BlockHeadVO := ⟨some genesis, [mint], by decide⟩

/-- The node after that block. -/
def rich : Node := handleWallet runtime twoKeys {} (.chain (.block (.save minted)))

theorem blockWrites_mint :
    blockWrites runtime twoKeys [mint.buildHash runtime] = [((coinbaseKey.hash, coin.outpoint), some coin)] := by
  rw [blockWrites, List.flatMap_singleton, TxItr.buildHash_buildHash]
  rfl

theorem rich_state : rich.balanceM.balance = onlyItem coinbaseKey coin ∧
    rich.db.find coin.txid = some (mint.buildHash runtime).json := by
  have fresh : ({} : Node).chain.Fresh := ⟨rfl, rfl, rfl⟩
  have plain : ¬ amendDue ({} : Node).chain genesis := by decide
  obtain ⟨state, isState, dbState, -, -, balanceState, -⟩ :=
    @history_of_saved ({}, []) minted genesis fresh.linked rfl (by decide) (by
      rw [@Event.savedWith_plain runtime {} (.save minted) genesis [mint] rfl plain rfl]
      rfl)
  rw [@saveBlockHead_db_plain runtime twoKeys {} minted genesis
    (Db.save .empty coin.txid (mint.buildHash runtime).json) rfl rfl plain] at dbState
  have same : rich = state.1 := by rw [isState]; rfl
  refine ⟨?_, ?_⟩
  · rw [same, balanceState, BalanceManager.counts]
    change SyncMap.replayEntries SyncMap.empty (blockWrites runtime twoKeys [mint.buildHash runtime]) = _
    rw [blockWrites_mint]
    rfl
  · rw [same, dbState]
    have apart : coin.txid ≠ [1] := fun same => absurd (congrArg List.head? same) (by decide)
    exact (Db.find_save_ne _ _ apart).trans (Db.find_save_self _ _ _)

/-- The coin is all that the wallet holds. -/
structure HoldsCoin (node : Node) : Prop where
  balance : node.balanceM.balance = onlyItem coinbaseKey coin
  stored : node.db.find coin.txid = some (mint.buildHash runtime).json

namespace HoldsCoin

variable {node : Node} (holds : HoldsCoin node)

include holds

theorem payable : Payable runtime twoKeys node (call coinbaseKey coin) coinbaseKey :=
  @Sample.payable node coinbaseKey coin (mint.buildHash runtime) { value := 300000000, address? := some coinbaseKey.hash }
    holds.balance holds.stored (by decide) rfl rfl

theorem visits : (call coinbaseKey coin).Visits node := by
  intro addr items present place item visit
  have entry : node.balanceM.balance.entry addr place = items.load place := by
    have load : node.balanceM.balance.load addr = some items := present
    rw [SyncMap.entry, load, Option.bind_some]
  simp only [call] at visit
  split at visit
  · next same =>
    obtain ⟨rfl, rfl⟩ := Prod.mk.inj (List.mem_singleton.mp visit)
    rw [← entry, holds.balance, same]
    simp only [onlyItem, SyncMap.entry, SyncMap.load_store_self, Option.bind_some]
  · cases visit

theorem visited_eq (key : Address) :
    visited node (call coinbaseKey coin) key = if key.hash = coinbaseKey.hash then [coin] else [] := by
  simp only [visited, BalanceManager.findBalance, holds.balance, onlyItem, SyncMap.load_store, SyncMap.load_empty, call]
  by_cases same : key.hash = coinbaseKey.hash <;> simp [same]

theorem deposit : ∃ tx, createTxDepositIn runtime node (call coinbaseKey coin) coinbaseKey = some tx ∧
    tx.getVin.map Vin.outpoint = [coin.outpoint] := by
  have cases := holds.payable.createTxDepositIn_cases
  rw [holds.visited_eq, if_pos rfl] at cases
  rcases cases with ⟨short, -⟩ | ⟨-, tx, made, inputs, -⟩
  · exact absurd short (by decide)
  · exact ⟨tx, made, inputs⟩

theorem pay (address : Bytes) : ∃ tx,
    createTxPay runtime twoKeys node (call coinbaseKey coin) address 1 Config.miningGas = .ok tx ∧
      tx.getVin.map Vin.outpoint = [coin.outpoint] := by
  have cases := holds.payable.createTxPay_cases address 1 Config.miningGas
  have taken : selected twoKeys node (call coinbaseKey coin) coinbaseKey
      (fun sum => ((1 : UInt64) + Config.miningGas).toNat ≤ sum % 2 ^ 64) = [coin] := by
    rw [selected, show others twoKeys coinbaseKey = [otherKey] from rfl, List.map_singleton, holds.visited_eq,
      holds.visited_eq, if_pos rfl, if_neg (by decide)]
    rfl
  rw [taken] at cases
  rcases cases with ⟨short, -⟩ | ⟨-, tx, made, inputs, -⟩
  · exact absurd short (by decide)
  · exact ⟨tx, made, inputs⟩

end HoldsCoin

theorem holdsCoin_rich : HoldsCoin rich := ⟨rich_state.1, rich_state.2⟩

end Sample

namespace Sample

/-- The reward to the other address, as a coin. -/
def change : TxItem := { value := 5, txid := (reward 0).id runtime, outIndex := 0 }

/-- The node after a first block with a reward to each address. -/
def purse : Node :=
  handleWallet runtime twoKeys {} (.chain (.block (.save ⟨some genesis, [mint, reward 0], by decide⟩)))

/-- Both coins are visited, each under its address. -/
def purseCall : Call where
  sign _ _ _ _ := .ok [7]
  visits addr :=
    if addr = coinbaseKey.hash then [(coin.outpoint, coin)]
    else if addr = otherKey.hash then [(change.outpoint, change)] else []

theorem blockWrites_both : blockWrites runtime twoKeys [mint.buildHash runtime, (reward 0).buildHash runtime] =
    [((coinbaseKey.hash, coin.outpoint), some coin), ((otherKey.hash, change.outpoint), some change)] := by
  rw [blockWrites, List.flatMap_cons, List.flatMap_singleton, TxItr.buildHash_buildHash, TxItr.buildHash_buildHash]
  rfl

/-- Both coins are listed, and the transactions that made them are stored. -/
structure HoldsBoth (node : Node) : Prop where
  balance : node.balanceM.balance = .store (onlyItem coinbaseKey coin) otherKey.hash (.store .empty change.outpoint change)
  minted : node.db.find coin.txid = some (mint.buildHash runtime).json
  rewarded : node.db.find change.txid = some ((reward 0).buildHash runtime).json

theorem holdsBoth_purse : HoldsBoth purse := by
  have fresh : ({} : Node).chain.Fresh := ⟨rfl, rfl, rfl⟩
  have plain : ¬ amendDue ({} : Node).chain genesis := by decide
  obtain ⟨state, isState, dbState, -, -, balanceState, -⟩ :=
    @history_of_saved ({}, []) ⟨some genesis, [mint, reward 0], by decide⟩ genesis fresh.linked rfl (by decide) (by
      rw [@Event.savedWith_plain runtime {} (.save ⟨some genesis, [mint, reward 0], by decide⟩) genesis
        [mint, reward 0] rfl plain rfl]
      rfl)
  rw [@saveBlockHead_db_plain runtime twoKeys {} ⟨some genesis, [mint, reward 0], by decide⟩ genesis
    (Db.save (Db.save .empty coin.txid (mint.buildHash runtime).json) change.txid ((reward 0).buildHash runtime).json)
      rfl rfl plain] at dbState
  have same : purse = state.1 := by rw [isState]; rfl
  have stored (id : Bytes) (header : id ≠ [1]) : state.1.db.find id = Db.find
      (Db.save (Db.save .empty coin.txid (mint.buildHash runtime).json) change.txid ((reward 0).buildHash runtime).json)
      id := by
    rw [dbState]
    exact Db.find_save_ne _ _ header
  have distinct : coin.txid ≠ change.txid := by decide +kernel
  refine ⟨?_, ?_, ?_⟩
  · rw [same, balanceState, BalanceManager.counts]
    change SyncMap.replayEntries SyncMap.empty
      (blockWrites runtime twoKeys [mint.buildHash runtime, (reward 0).buildHash runtime]) = _
    rw [blockWrites_both]
    rfl
  · rw [same, stored _ (fun same => absurd (congrArg List.head? same) (by decide)), Db.find_save_ne _ _ distinct]
    exact Db.find_save_self _ _ _
  · rw [same, stored _ (fun same => absurd (congrArg List.head? same) (by decide))]
    exact Db.find_save_self _ _ _

namespace HoldsBoth

variable {node : Node} (holds : HoldsBoth node)

include holds

theorem findBalance_eq (addr : Bytes) : node.balanceM.findBalance addr =
    if addr = otherKey.hash then some (.store .empty change.outpoint change)
    else if addr = coinbaseKey.hash then some (.store .empty coin.outpoint coin) else none := by
  simp only [BalanceManager.findBalance, holds.balance, onlyItem, SyncMap.load_store, SyncMap.load_empty]

theorem visits : purseCall.Visits node := by
  intro addr items present place item visit
  rw [holds.findBalance_eq] at present
  simp only [purseCall] at visit
  split at present
  · next other =>
    rw [other, if_neg (by decide), if_pos rfl] at visit
    obtain ⟨rfl, rfl⟩ := Prod.mk.inj (List.mem_singleton.mp visit)
    cases present
    exact SyncMap.load_store_self _ _ _
  · next unlike =>
    split at present
    · next own =>
      rw [if_pos own] at visit
      obtain ⟨rfl, rfl⟩ := Prod.mk.inj (List.mem_singleton.mp visit)
      cases present
      exact SyncMap.load_store_self _ _ _
    · cases present

theorem visited_eq : visited node purseCall coinbaseKey = [coin] ∧ visited node purseCall otherKey = [change] := by
  constructor
  · rw [visited, holds.findBalance_eq, if_neg (by decide), if_pos rfl]
    rfl
  · rw [visited, holds.findBalance_eq, if_pos rfl]
    rfl

/-- Both coins can be spent. -/
theorem payVin_eq (attempts : ℕ) :
    payVin runtime node purseCall coinbaseKey attempts coin =
        some { txid? := some coin.txid, puk? := some coinbaseKey.pubkey, sign? := some [7] } ∧
      payVin runtime node purseCall otherKey attempts change =
        some { txid? := some change.txid, puk? := some otherKey.pubkey, sign? := some [7] } := by
  have minted := TxItr.parse_json runtime (show (mint.buildHash runtime).Typed by decide)
  have rewarded := TxItr.parse_json runtime (show ((reward 0).buildHash runtime).Typed by decide)
  constructor
  · simp only [payVin, holds.minted, Option.bind_eq_bind, Option.bind_some, minted]
    rfl
  · simp only [payVin, holds.rewarded, Option.bind_eq_bind, Option.bind_some, rewarded]
    rfl

theorem deposit : ∃ tx, createTxDepositIn runtime node purseCall coinbaseKey = some tx := by
  have found : node.balanceM.findBalance coinbaseKey.hash = some (.store .empty coin.outpoint coin) := by
    rw [holds.findBalance_eq, if_neg (by decide), if_pos rfl]
  simp only [createTxDepositIn, found, holds.visited_eq.1, visitItems, (holds.payVin_eq _).1]
  exact ⟨_, rfl⟩

/-- A deposit takes the coin of the coinbase. -/
theorem coins_deposit : (drawDeposit runtime node purseCall coinbaseKey).coins = [(coinbaseKey, coin)] := by
  simp only [drawDeposit, holds.visited_eq.1, Drawn.row, (holds.payVin_eq _).1]
  rfl

/-- The other address has enough for a payment of 2. -/
theorem coins_pay : WalletEvent.coins runtime twoKeys node (.send purseCall [9] 2) = [(otherKey, change)] := by
  have drawn : drawPay runtime twoKeys node purseCall coinbaseKey (2 + Config.miningGas) = ⟨[(otherKey, change)], 1⟩ := by
    simp only [drawPay, show others twoKeys coinbaseKey = [otherKey] from rfl, List.foldl_cons, List.foldl_nil,
      holds.visited_eq.2, Drawn.row, (holds.payVin_eq _).2]
    rfl
  simp only [WalletEvent.coins, show twoKeys.coinbase = some coinbaseKey from rfl, drawn]
  rfl

theorem pay : ∃ tx, createTxPay runtime twoKeys node purseCall [9] 2 Config.miningGas = .ok tx := by
  have collected : collectPay runtime twoKeys node purseCall coinbaseKey (2 + Config.miningGas) =
      ⟨[{ txid? := some change.txid, puk? := some otherKey.pubkey, sign? := some [7] }], 5, 1⟩ := by
    simp only [collectPay, show twoKeys.addrList = [coinbaseKey, otherKey] from rfl, List.foldl_cons, List.foldl_nil,
      holds.visited_eq.2, visitItems, (holds.payVin_eq _).2]
    rfl
  simp only [createTxPay, show twoKeys.getCoinbase = .ok coinbaseKey from rfl, collected]
  exact ⟨_, rfl⟩

end HoldsBoth

end Sample

/-- A deposit from one coin and a payment from the other wait side by side. -/
theorem noDoubleSpend_two_coins : ∃ (node : Node) (deposit payment : TxItr),
    deposit.id Sample.runtime ≠ payment.id Sample.runtime ∧
      node.unpacked.load (deposit.id Sample.runtime) = some (deposit.buildHash Sample.runtime) ∧
      node.unpacked.load (payment.id Sample.runtime) = some (payment.buildHash Sample.runtime) ∧
        NoDoubleSpend Sample.runtime Sample.twoKeys node := by
  have holds := Sample.holdsBoth_purse
  obtain ⟨deposit, deposits⟩ := holds.deposit
  have deposited := @submits_deposit Sample.runtime Sample.twoKeys _ _ _ _ rfl deposits
  have holds' : Sample.HoldsBoth (Sample.purse.pends Sample.runtime deposit) := ⟨holds.balance, holds.minted, holds.rewarded⟩
  obtain ⟨payment, pays⟩ := holds'.pay
  have paid := submits_send pays
  have distinct : deposit.id Sample.runtime ≠ payment.id Sample.runtime := fun same => by
    have heads := congrArg List.head? same
    rw [TxItr.head_id, TxItr.head_id, (createTxDepositIn_spends deposits).1.2, (createTxPay_spends pays).1.2] at heads
    exact absurd heads (by decide)
  have mined : FreeStep Sample.runtime Sample.twoKeys { db := .empty } Sample.purse :=
    ⟨.chain (.block (.save ⟨some Sample.genesis, [Sample.mint, Sample.reward 0], by decide⟩)), trivial,
      List.forall_mem_nil _, rfl⟩
  have empty (id : Bytes) : Sample.purse.unpacked.load id = none := by
    cases present : Sample.purse.unpacked.load id with
    | none => rfl
    | some tx => cases @handleChain_unpacked Sample.runtime Sample.twoKeys {} _ id tx present
  refine ⟨(Sample.purse.pends Sample.runtime deposit).pends Sample.runtime payment, deposit, payment, distinct, ?_, ?_,
    (noDoubleSpend_of_free (((Relation.ReflTransGen.single mined).tail
      ⟨.deposit Sample.purseCall, holds.visits, ?_, deposited.next.symm⟩).tail
        ⟨.send Sample.purseCall [9] 2, holds'.visits, ?_, paid.next.symm⟩)).1⟩
  · simp only [Node.pends, SyncMap.load_store, if_neg distinct, if_true]
  · simp only [Node.pends, SyncMap.load_store_self]
  · rintro one - ⟨id, tx, present, -⟩
    cases (empty id).symm.trans present
  · -- the deposit that is pending spends the coin of the coinbase
    rintro one member ⟨id, tx, present, vin, spent, outpoint⟩
    rw [holds'.coins_pay, List.mem_singleton] at member
    rw [Node.pends, SyncMap.load_store] at present
    split at present
    · cases present
      obtain ⟨-, -, spends, -⟩ := createTxDepositIn_spends deposits
      rw [TxItr.getVin_buildHash] at spent
      obtain ⟨one', inside, outpoint'⟩ := spends.outpoint spent
      rw [holds.coins_deposit, List.mem_singleton] at inside
      rw [outpoint', member, inside] at outpoint
      have other : Sample.coin.txid ≠ Sample.change.txid := by decide +kernel
      exact other (Prod.mk.inj outpoint).1
    · cases (empty id).symm.trans present

/-- A deposit and then a payment, both from the only coin. -/
theorem deposit_spent_again : ∃ node,
    Relation.ReflTransGen (WalletStep Sample.runtime Sample.twoKeys) {} node ∧
      ¬ NoDoubleSpend Sample.runtime Sample.twoKeys node := by
  have holds := Sample.holdsCoin_rich
  obtain ⟨deposit, deposits, depositVins⟩ := holds.deposit
  have holds' : Sample.HoldsCoin (Sample.rich.pends Sample.runtime deposit) := ⟨holds.balance, holds.stored⟩
  obtain ⟨payment, pays, paymentVins⟩ := holds'.pay [9]
  have deposited := @handleWallet_deposit Sample.runtime Sample.twoKeys Sample.rich
    (Sample.call Sample.coinbaseKey Sample.coin) Sample.coinbaseKey rfl
  have paid := @handleWallet_send Sample.runtime Sample.twoKeys (Sample.rich.pends Sample.runtime deposit)
    (Sample.call Sample.coinbaseKey Sample.coin) [9] 1
  rw [deposits] at deposited
  rw [pays] at paid
  refine ⟨(Sample.rich.pends Sample.runtime deposit).pends Sample.runtime payment,
    ((Relation.ReflTransGen.single ⟨.chain (.block (.save Sample.minted)), trivial, rfl⟩).tail
      ⟨.deposit (Sample.call Sample.coinbaseKey Sample.coin), holds.visits, deposited.symm⟩).tail
        ⟨.send (Sample.call Sample.coinbaseKey Sample.coin) [9] 1, holds'.visits, paid.symm⟩, fun safe => ?_⟩
  have distinct : deposit.id Sample.runtime ≠ payment.id Sample.runtime := fun same => by
    have heads := congrArg List.head? same
    rw [TxItr.head_id, TxItr.head_id, (createTxDepositIn_spends deposits).1.2, (createTxPay_spends pays).1.2] at heads
    exact absurd heads (by decide)
  have spent (tx : TxItr) (vins : tx.getVin.map Vin.outpoint = [Sample.coin.outpoint]) :
      ∃ vin ∈ tx.getVin, vin.outpoint = Sample.coin.outpoint :=
    List.mem_map.mp (vins ▸ List.mem_singleton_self _)
  obtain ⟨vin, member, outpoint⟩ := spent deposit depositVins
  obtain ⟨vin', member', outpoint'⟩ := spent payment paymentVins
  refine safe.pending (deposit.id Sample.runtime) (payment.id Sample.runtime) (deposit.buildHash Sample.runtime)
    (payment.buildHash Sample.runtime) distinct ?_ ?_ vin ?_ vin' ?_ (outpoint.trans outpoint'.symm)
  · simp only [Node.pends, SyncMap.load_store, if_neg distinct, if_true]
  · simp only [Node.pends, SyncMap.load_store_self]
  · rwa [TxItr.getVin_buildHash]
  · rwa [TxItr.getVin_buildHash]

end PolarCloud.Mining
