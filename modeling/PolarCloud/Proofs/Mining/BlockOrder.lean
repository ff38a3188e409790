import PolarCloud.Base.Orders
import PolarCloud.Proofs.Mining.Unspent

/-! # The order of the transactions of a block

Removals and stores of a block are counted transaction by transaction, and a removal that comes
before its store removes nothing. So the balances after a block do not depend on the order of its
transactions exactly when any two of them leave the same at every entry that both write: when none
removes an output that another one stores.
-/

namespace PolarCloud.Mining

open Keystore Outputs

section Order

variable (rt : Runtime) (wallet : Wallet)

/-- What a transaction leaves at an entry of the balances: an item, its removal, or nothing. -/
def TxItr.leaves (tx : TxItr) (entry : Bytes × Outpoint) : Option (Option TxItem) :=
  lastWrite (builtWrites rt wallet (tx.buildHash rt)) entry

/-- Any two transactions that write an entry leave the same there. -/
def Consistent (txs : List TxItr) : Prop :=
  ∀ first ∈ txs, ∀ second ∈ txs, ∀ entry left right, first.leaves rt wallet entry = some left →
    second.leaves rt wallet entry = some right → left = right

variable {rt wallet}

/-- A transaction writes own entries only. -/
theorem TxItr.own_of_leaves {tx : TxItr} {entry : Bytes × Outpoint} {left : Option TxItem}
    (leaves : tx.leaves rt wallet entry = some left) : wallet.owns entry.1 = true := by
  have member := mem_of_lastWrite leaves
  unfold builtWrites at member
  split at member
  · rcases List.mem_append.mp member with removal | store
    · obtain ⟨vin, -, written⟩ := List.mem_flatMap.mp removal
      unfold vinWrites at written
      split at written
      · cases written
      · split at written
        · cases written
        · split at written
          · next owned =>
            cases List.mem_singleton.mp written
            exact owned
          · cases written
    · obtain ⟨output, -, written⟩ := List.mem_flatMap.mp store
      unfold voutWrites at written
      split at written
      · next kept =>
        cases List.mem_singleton.mp written
        exact kept.1
      · cases written
  · cases member

/-- What a transaction leaves at an own entry: an item that it pays, a removal, or nothing. -/
theorem TxItr.leaves_cases {tx : TxItr} (typed : tx.Typed) {entry : Bytes × Outpoint}
    (own : wallet.owns entry.1 = true) :
    (∃ item, (outputs rt wallet).pays tx entry item ∧ tx.leaves rt wallet entry = some (some item)) ∨
      (∀ item, ¬ (outputs rt wallet).pays tx entry item) ∧
        (((outputs rt wallet).removes tx entry ∧ tx.leaves rt wallet entry = some none) ∨
          (¬ (outputs rt wallet).removes tx entry ∧ tx.leaves rt wallet entry = none)) := by
  have own : (outputs rt wallet).own entry := own
  have last := (@writes_outputs rt wallet tx).last own
  rw [leaves, builtWrites, counted_buildHash, if_pos typed.counted, getVin_buildHash,
    getVout_buildHash]
  exact last

/-- Where the ids differ, a block is consistent exactly when no transaction removes an own output that
another one stores. -/
theorem consistent_iff {txs : List TxItr} (typed : ∀ tx ∈ txs, tx.Typed)
    (distinct : ∀ first ∈ txs, ∀ second ∈ txs, first.id rt = second.id rt → first = second) :
    Consistent rt wallet txs ↔ ∀ first ∈ txs, ∀ second ∈ txs, first ≠ second → ∀ entry item,
      wallet.owns entry.1 = true → (outputs rt wallet).pays first entry item →
        ¬ (outputs rt wallet).removes second entry := by
  have payer {tx : TxItr} {entry : Bytes × Outpoint} {item : TxItem} (pays : (outputs rt wallet).pays tx entry item) :
      entry.2.1 = tx.id rt := by
    obtain ⟨index, vout, -, -, rfl, -⟩ := pays
    rfl
  constructor
  · intro consistent first firstMember second secondMember apart entry item own pays removes
    rcases TxItr.leaves_cases (typed first firstMember) own with ⟨left, -, leaves⟩ | ⟨unpaid, -⟩
    · rcases TxItr.leaves_cases (typed second secondMember) own with ⟨right, pays', -⟩ | ⟨-, ⟨-, leaves'⟩ | ⟨kept, -⟩⟩
      · exact apart (distinct first firstMember second secondMember ((payer pays).symm.trans (payer pays')))
      · cases consistent first firstMember second secondMember entry _ _ leaves leaves'
      · exact kept removes
    · exact unpaid item pays
  · intro spared first firstMember second secondMember entry left right leaves leaves'
    have own := TxItr.own_of_leaves leaves
    by_cases same : first = second
    · subst same
      exact Option.some.inj (leaves.symm.trans leaves')
    · rcases TxItr.leaves_cases (typed first firstMember) own with
        ⟨item, pays, stored⟩ | ⟨-, ⟨removes, removed⟩ | ⟨-, nothing⟩⟩
      · rcases TxItr.leaves_cases (typed second secondMember) own with
          ⟨item', pays', -⟩ | ⟨-, ⟨removes', -⟩ | ⟨-, nothing'⟩⟩
        · exact absurd (distinct first firstMember second secondMember ((payer pays).symm.trans (payer pays'))) same
        · exact absurd removes' (spared first firstMember second secondMember same entry item own pays)
        · cases nothing'.symm.trans leaves'
      · rcases TxItr.leaves_cases (typed second secondMember) own with
          ⟨item', pays', -⟩ | ⟨-, ⟨-, removed'⟩ | ⟨-, nothing'⟩⟩
        · exact absurd removes (spared second secondMember first firstMember (Ne.symm same) entry item' own pays')
        · exact Option.some.inj (leaves.symm.trans (removed.trans (removed'.symm.trans leaves')))
        · cases nothing'.symm.trans leaves'
      · cases nothing.symm.trans leaves

end Order

/-! ## The order of a block -/

/-- The balances after a block do not depend on the order of its transactions exactly when the
transactions are consistent; without a coinbase nothing is counted. -/
theorem count_order_iff {rt : Runtime} {wallet : Wallet} (manager : BalanceManager) (height : UInt64)
    (txs : List TxItr) :
    (∀ order : List TxItr, order.Perm txs → manager.count rt wallet height order = manager.count rt wallet height txs) ↔
      (wallet.coinbase.isSome → Consistent rt wallet txs) := by
  have agreeing : Consistent rt wallet txs ↔ Agreeing (fun tx => builtWrites rt wallet (tx.buildHash rt)) txs := Iff.rfl
  rw [agreeing, ← SyncMap.replayEntries_perm_iff manager.balance]
  unfold BalanceManager.count Wallet.getCoinbase
  cases wallet.coinbase with
  | none => simp
  | some coinbase => simp [foldl_countTx, blockWrites]

namespace Sample

/-- A block with the reward and the payment that spends it. -/
def rewardedAndPaid : BlockHeadVO := ⟨some genesis, [reward 0, payment], by decide⟩

theorem leaves_payment : payment.leaves runtime twoKeys rewardKey = some none := by
  have writes : builtWrites runtime twoKeys (payment.buildHash runtime) = [(rewardKey, none)] := rfl
  rw [TxItr.leaves, writes, lastWrite, if_pos rfl]
  rfl

theorem leaves_reward : (reward 0).leaves runtime twoKeys rewardKey = some (some rewardItem) := by
  have writes : builtWrites runtime twoKeys ((reward 0).buildHash runtime) = [(rewardKey, some rewardItem)] := rfl
  rw [TxItr.leaves, writes, lastWrite, if_pos rfl]
  rfl

/-- What stands at the entry of the reward after two transactions that both write it. -/
theorem entry_count {first second : TxItr} {manager next : BalanceManager} {item : Option TxItem}
    (counted : manager.count runtime twoKeys 1 [first, second] = some next)
    (leaves : second.leaves runtime twoKeys rewardKey = some item) :
    next.balance.entry rewardKey.1 rewardKey.2 = item := by
  obtain ⟨-, rfl⟩ := (BalanceManager.count_eq_some_iff _ _).mp counted
  rw [SyncMap.entry_replayEntries, blockWrites, List.flatMap_cons, List.flatMap_singleton, lastWrite_append]
  rw [TxItr.leaves] at leaves
  rw [leaves]
  rfl

end Sample

/-- A block of two transactions that spends one output once, and leaves different balances when the
spending one comes first. -/
theorem spender_first_differs : ∃ (rt : Runtime) (wallet : Wallet) (manager : BalanceManager) (bhvo : BlockHeadVO)
    (order : List TxItr), bhvo.txs.Nodup ∧
      (bhvo.txs.flatMap fun tx => tx.getVin.map fun vin => (vin.txid, vin.vout)).Nodup ∧ order.Perm bhvo.txs ∧
        manager.count rt wallet 1 order ≠ manager.count rt wallet 1 bhvo.txs := by
  refine ⟨Sample.runtime, Sample.twoKeys, {}, Sample.rewardedAndPaid, [Sample.payment, Sample.reward 0], ?_, ?_,
    List.Perm.swap _ _ _, fun same => ?_⟩
  · decide
  · exact List.nodup_singleton _
  · have counts (txs : List TxItr) : ∃ next,
      ({} : BalanceManager).count Sample.runtime Sample.twoKeys 1 txs = some next :=
      ⟨_, (BalanceManager.count_eq_some_iff _ _).mpr ⟨rfl, rfl⟩⟩
    obtain ⟨next, counted⟩ := counts [Sample.payment, Sample.reward 0]
    have stored := Sample.entry_count counted Sample.leaves_reward
    have removed := Sample.entry_count (same.symm.trans counted) Sample.leaves_payment
    rw [stored] at removed
    cases removed

end PolarCloud.Mining
