import PolarCloud.Model.Keystore
import PolarCloud.Model.Mining.Block

/-! # The balances of the wallet's addresses

For every address of the wallet the balance manager keeps the outputs it may spend. A block is
counted transaction by transaction: inputs remove entries under the address of the key that
spends them, outputs to own addresses add entries. Counting a block is the replay of one list of
entry writes.
-/

namespace PolarCloud.Mining

open Keystore

/-- An output of the wallet that can be spent. -/
structure TxItem where
  value : UInt64
  txid : Bytes
  outIndex : UInt64
deriving DecidableEq, Repr

/-- The id of a transaction and the index of an output, the text that keys an item. -/
abbrev Outpoint := Bytes × UInt64

/-- The items of every address. -/
abbrev Balances := SyncMap Bytes (SyncMap Outpoint TxItem)

structure BalanceManager where
  syncHeight : UInt64 := 0
  balance : Balances := .empty

/-- `FindBalanceOne` and `FindBalance` for one address -/
def BalanceManager.findBalance (manager : BalanceManager) (addr : Bytes) : Option (SyncMap Outpoint TxItem) :=
  manager.balance.load addr

namespace TxItr

/-- The classes that are counted. -/
def counted (tx : TxItr) : Bool :=
  tx.txClass = Config.walletTxTypeMining || tx.txClass = Config.walletTxTypeDepositIn ||
    tx.txClass = Config.walletTxTypeDepositOut || tx.txClass = Config.walletTxTypePay

end TxItr

section Count

variable (rt : Runtime) (wallet : Wallet)

/-- Count one input: drop the item from the address of the key. -/
def countVin (tx : TxItr) (balance : Balances) (vin : Vin) : Balances :=
  if tx.txClass = Config.walletTxTypeDepositOut then balance
  else
    match buildAddrByPubkey rt vin.puk with
    | none => balance
    | some addr =>
        if wallet.owns addr then balance.writeEntry addr (vin.txid, vin.vout) none else balance

/-- Count one output; the first output of a deposit cannot be spent. -/
def countVout (tx : TxItr) (balance : Balances) (output : Vout × ℕ) : Balances :=
  let (vout, voutIndex) := output
  if wallet.owns vout.address then
    if tx.txClass = Config.walletTxTypeDepositIn ∧ voutIndex = 0 then balance
    else
      let txItem : TxItem :=
        { value := vout.value, txid := tx.getHash, outIndex := UInt64.ofNat voutIndex }
      balance.writeEntry vout.address (tx.getHash, UInt64.ofNat voutIndex) (some txItem)
  else balance

def countTx (balance : Balances) (txItr : TxItr) : Balances :=
  if txItr.counted then
    let txItr := txItr.buildHash rt
    let balance := txItr.getVin.foldl (countVin rt wallet txItr) balance
    txItr.getVout.zipIdx.foldl (countVout wallet txItr) balance
  else balance

/-- Count a block; the total that is printed at the end needs the coinbase address. -/
def BalanceManager.count (manager : BalanceManager) (height : UInt64) (txs : List TxItr) :
    Option BalanceManager :=
  match wallet.getCoinbase with
  | .error _ => none
  | .ok _ => some { syncHeight := height, balance := txs.foldl (countTx rt wallet) manager.balance }

/-! ## Counting as a replay -/

/-- One entry write: an address, an outpoint, and the item or its removal. -/
abbrev Write := (Bytes × Outpoint) × Option TxItem

def vinWrites (tx : TxItr) (vin : Vin) : List Write :=
  if tx.txClass = Config.walletTxTypeDepositOut then []
  else
    match buildAddrByPubkey rt vin.puk with
    | none => []
    | some addr => if wallet.owns addr then [((addr, vin.txid, vin.vout), none)] else []

def voutWrites (tx : TxItr) (output : Vout × ℕ) : List Write :=
  if wallet.owns output.1.address = true ∧ ¬(tx.txClass = Config.walletTxTypeDepositIn ∧ output.2 = 0) then
    [((output.1.address, tx.getHash, UInt64.ofNat output.2),
      some { value := output.1.value, txid := tx.getHash, outIndex := UInt64.ofNat output.2 })]
  else []

/-- The writes of a transaction whose id is built. -/
def builtWrites (tx : TxItr) : List Write :=
  if tx.counted then tx.getVin.flatMap (vinWrites rt wallet tx) ++ tx.getVout.zipIdx.flatMap (voutWrites wallet tx)
  else []

/-- The writes of a block. -/
def blockWrites (txs : List TxItr) : List Write :=
  txs.flatMap fun tx => builtWrites rt wallet (tx.buildHash rt)

private theorem foldl_replay {α : Type*} {count : Balances → α → Balances} {writes : α → List Write}
    (single : ∀ balance item, count balance item = balance.replayEntries (writes item))
    (items : List α) (balance : Balances) :
    items.foldl count balance = balance.replayEntries (items.flatMap writes) := by
  induction items generalizing balance with
  | nil => rfl
  | cons item rest ih =>
    rw [List.foldl_cons, single, ih, List.flatMap_cons, SyncMap.replayEntries_append]

theorem countVin_eq (tx : TxItr) (balance : Balances) (vin : Vin) :
    countVin rt wallet tx balance vin = balance.replayEntries (vinWrites rt wallet tx vin) := by
  unfold countVin vinWrites
  split
  · rfl
  · split
    · rfl
    · split <;> rfl

theorem countVout_eq (tx : TxItr) (balance : Balances) (output : Vout × ℕ) :
    countVout wallet tx balance output = balance.replayEntries (voutWrites wallet tx output) := by
  obtain ⟨vout, voutIndex⟩ := output
  simp only [countVout, voutWrites]
  by_cases owned : wallet.owns vout.address = true
  · by_cases locked : tx.txClass = Config.walletTxTypeDepositIn ∧ voutIndex = 0
    · rw [if_pos owned, if_pos locked, if_neg (fun kept => kept.2 locked)]
      rfl
    · rw [if_pos owned, if_neg locked, if_pos ⟨owned, locked⟩]
      rfl
  · rw [if_neg owned, if_neg (fun kept => owned kept.1)]
    rfl

@[simp] theorem TxItr.txClass_buildHash (tx : TxItr) : (tx.buildHash rt).txClass = tx.txClass := by
  cases tx <;> rfl

@[simp] theorem TxItr.counted_buildHash (tx : TxItr) : (tx.buildHash rt).counted = tx.counted := by
  simp only [TxItr.counted, TxItr.txClass_buildHash]

theorem countTx_eq (balance : Balances) (tx : TxItr) :
    countTx rt wallet balance tx = balance.replayEntries (builtWrites rt wallet (tx.buildHash rt)) := by
  unfold countTx builtWrites
  rw [TxItr.counted_buildHash]
  split
  · simp only [foldl_replay (countVin_eq rt wallet _), foldl_replay (countVout_eq wallet _),
      SyncMap.replayEntries_append]
  · rfl

/-- Counting the transactions of a block replays its writes. -/
theorem foldl_countTx (balance : Balances) (txs : List TxItr) :
    txs.foldl (countTx rt wallet) balance = balance.replayEntries (blockWrites rt wallet txs) :=
  foldl_replay (countTx_eq rt wallet) txs balance

/-- A counted block: the new height and the replayed writes, or no coinbase. -/
theorem BalanceManager.count_eq_some_iff {manager next : BalanceManager} {height : UInt64} {txs : List TxItr} :
    manager.count rt wallet height txs = some next ↔
      wallet.coinbase.isSome ∧
        next = { syncHeight := height, balance := manager.balance.replayEntries (blockWrites rt wallet txs) } := by
  unfold BalanceManager.count Wallet.getCoinbase
  rw [foldl_countTx]
  cases wallet.coinbase with
  | none => simp
  | some address => simp [eq_comm]

end Count

end PolarCloud.Mining
