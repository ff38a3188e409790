import Mathlib.Logic.Relation
import PolarCloud.Proofs.Mining.Links

/-! # Adding a block

A call of `addBlock` updates the balances and the backup witnesses and then links the block or
refuses it. Its effect is stated once; the exact condition under which a refused block leaves no
trace follows.
-/

namespace PolarCloud.Mining

open Keystore

variable {rt : Runtime} {wallet : Wallet}

/-- The deposits of a block are its transactions of that class, in order, and each enters one
backup witness. -/
theorem collectDeposits_spec {txs depositTx : List TxItr} {witnesses next : List BackupWitness}
    (collected : collectDeposits rt txs witnesses = some (next, depositTx)) :
    depositTx = txs.filter (fun tx => tx.txClass = Config.walletTxTypeDepositIn) ∧
      ∃ entered : List BackupWitness, next = witnesses ++ entered ∧ entered.length = depositTx.length := by
  induction txs generalizing witnesses depositTx with
  | nil =>
    cases collected
    exact ⟨rfl, [], by simp⟩
  | cons one rest ih =>
    rw [collectDeposits] at collected
    split at collected
    · next deposit =>
      obtain ⟨vin, -, collected⟩ := Option.bind_eq_some_iff.mp collected
      obtain ⟨addr, built⟩ : ∃ addr, buildAddrByPubkey rt vin.puk = some addr :=
        ⟨_, buildAddrByPubkey_eq rt vin.puk⟩
      rw [built] at collected
      obtain ⟨vout, -, collected⟩ := Option.bind_eq_some_iff.mp collected
      obtain ⟨⟨later, deposits⟩, recursive, same⟩ := Option.bind_eq_some_iff.mp collected
      cases same
      obtain ⟨filtered, entered, grown, size⟩ := ih recursive
      refine ⟨by rw [List.filter_cons_of_pos (by simpa using deposit), filtered],
        { addr, score := 0 } :: entered, ?_, ?_⟩
      · rw [grown, addWitness, List.append_assoc]
        rfl
      · rw [List.length_cons, List.length_cons, size]
    · next other =>
      obtain ⟨filtered, entered⟩ := ih collected
      exact ⟨by rw [List.filter_cons_of_neg (by simpa using other), filtered], entered⟩

/-- What `addBlock` does: every field it may change, and the two outcomes. -/
structure Adds (rt : Runtime) (wallet : Wallet) (node : Node) (bh : BlockHead) (txs : List TxItr)
    (next : Node) (added : Bool) : Prop where
  coinbase : wallet.coinbase.isSome
  db : next.db = node.db
  unpacked : next.unpacked = node.unpacked
  balanceM : next.balanceM =
    ⟨bh.height, node.balanceM.balance.replayEntries (blockWrites rt wallet txs)⟩
  deposits : ∃ depositTx, collectDeposits rt (txs.map fun tx => if tx.counted then tx.buildHash rt else tx)
    node.witnesses = some (next.witnesses, depositTx) ∧ node.chain.linkBlock bh depositTx = some (next.chain, added)

theorem addBlock_eq_some_iff {node next : Node} {bh : BlockHead} {txs : List TxItr} {added : Bool} :
    addBlock rt wallet node bh txs = some (next, added) ↔ Adds rt wallet node bh txs next added := by
  constructor
  · intro ran
    obtain ⟨manager, counted, ran⟩ := Option.bind_eq_some_iff.mp ran
    obtain ⟨⟨witnesses, depositTx⟩, collected, ran⟩ := Option.bind_eq_some_iff.mp ran
    obtain ⟨⟨chain, result⟩, linked, same⟩ := Option.bind_eq_some_iff.mp ran
    cases same
    obtain ⟨coinbase, rfl⟩ := (BalanceManager.count_eq_some_iff rt wallet).mp counted
    exact ⟨coinbase, rfl, rfl, rfl, depositTx, collected, linked⟩
  · rintro ⟨coinbase, db, unpacked, balanceM, depositTx, collected, linked⟩
    have counted := (BalanceManager.count_eq_some_iff rt wallet).mpr ⟨coinbase, balanceM⟩
    obtain ⟨db', chain', manager', witnesses', unpacked'⟩ := next
    subst db unpacked
    simp only [addBlock, counted, collected, linked, Option.bind_eq_bind, Option.bind_some]

/-- Adding one block, whatever the block is. -/
def AddStep (rt : Runtime) (wallet : Wallet) (node next : Node) : Prop :=
  ∃ bh txs added, addBlock rt wallet node bh txs = some (next, added)

/-- No block has been added. -/
structure Chain.Fresh (chain : Chain) : Prop where
  blocks : chain.blocks = []
  groups : chain.groups = []
  group : chain.group = none

theorem Chain.Fresh.linked {chain : Chain} (fresh : chain.Fresh) : chain.Linked := by
  obtain ⟨blocks, groups, group, starting, highest, current⟩ := chain
  obtain ⟨rfl, rfl, rfl⟩ := fresh
  exact Chain.linked_empty starting highest current

/-- Adding a block keeps the chain linked. -/
theorem Adds.linked {node next : Node} {bh : BlockHead} {txs : List TxItr} {added : Bool}
    (linked : node.chain.Linked) (adds : Adds rt wallet node bh txs next added) : next.chain.Linked := by
  obtain ⟨depositTx, -, link⟩ := adds.deposits
  by_cases accepted : node.chain.Accepts bh
  · obtain ⟨chain, result, kept, -⟩ := Chain.linkBlock_accepted depositTx linked accepted
    obtain ⟨same, -⟩ := Prod.mk.inj (Option.some.inj (link.symm.trans result))
    exact same ▸ kept
  · obtain ⟨same, -⟩ :=
      Prod.mk.inj (Option.some.inj (link.symm.trans (Chain.linkBlock_refused depositTx linked accepted)))
    exact same ▸ linked

/-- Every chain built by adding blocks is linked. -/
theorem linked_of_reached {start node : Node} (fresh : start.chain.Fresh)
    (reached : Relation.ReflTransGen (AddStep rt wallet) start node) : node.chain.Linked := by
  induction reached with
  | refl => exact fresh.linked
  | tail _ step ih =>
    obtain ⟨bh, txs, added, ran⟩ := step
    exact (addBlock_eq_some_iff.mp ran).linked ih

/-- The outcome of adding a block to a linked chain is decided by its height. -/
theorem Adds.added_iff {node next : Node} {bh : BlockHead} {txs : List TxItr} {added : Bool}
    (linked : node.chain.Linked) (adds : Adds rt wallet node bh txs next added) :
    added = true ↔ node.chain.Accepts bh := by
  obtain ⟨depositTx, -, link⟩ := adds.deposits
  by_cases accepted : node.chain.Accepts bh
  · obtain ⟨chain, result, -, -⟩ := Chain.linkBlock_accepted depositTx linked accepted
    obtain ⟨-, rfl⟩ := Prod.mk.inj (Option.some.inj (link.symm.trans result))
    simp [accepted]
  · obtain ⟨-, rfl⟩ :=
      Prod.mk.inj (Option.some.inj (link.symm.trans (Chain.linkBlock_refused depositTx linked accepted)))
    simp [accepted]

/-- A refused block changes no link. -/
theorem Adds.chain_eq {node next : Node} {bh : BlockHead} {txs : List TxItr}
    (linked : node.chain.Linked) (adds : Adds rt wallet node bh txs next false) : next.chain = node.chain := by
  have refused : ¬ node.chain.Accepts bh := fun accepted => by
    cases (adds.added_iff linked).mpr accepted
  obtain ⟨depositTx, -, link⟩ := adds.deposits
  exact (Prod.mk.inj (Option.some.inj (link.symm.trans (Chain.linkBlock_refused depositTx linked refused)))).1

/-- The backup witnesses stay as they are exactly when the block carries no deposit. -/
theorem Adds.witnesses_eq_iff {node next : Node} {bh : BlockHead} {txs : List TxItr} {added : Bool}
    (adds : Adds rt wallet node bh txs next added) :
    next.witnesses = node.witnesses ↔ ∀ tx ∈ txs, tx.txClass ≠ Config.walletTxTypeDepositIn := by
  obtain ⟨depositTx, collected, -⟩ := adds.deposits
  obtain ⟨filtered, entered, grown, size⟩ := collectDeposits_spec collected
  have sameClass (tx : TxItr) : (if tx.counted then tx.buildHash rt else tx).txClass = tx.txClass := by
    split
    · exact TxItr.txClass_buildHash rt tx
    · rfl
  have none_iff : depositTx = [] ↔ ∀ tx ∈ txs, tx.txClass ≠ Config.walletTxTypeDepositIn := by
    rw [filtered, List.filter_eq_nil_iff]
    simp [sameClass]
  rw [← none_iff, grown, List.append_right_eq_self, ← List.length_eq_zero_iff, size, List.length_eq_zero_iff]

/-- Every write repeats what the map holds: its address is there, and the last write to an entry
is the entry. -/
def Repeats (balance : Balances) (writes : List Write) : Prop :=
  (∀ write ∈ writes, (balance.load write.1.1).isSome) ∧
    ∀ query value, lastWrite writes query = some value → balance.entry query.1 query.2 = value

/-- Writes that were just replayed repeat what the map holds. -/
theorem repeats_replayEntries (balance : Balances) (writes : List Write) :
    Repeats (balance.replayEntries writes) writes := by
  refine ⟨fun write member => ?_, fun query value last => ?_⟩
  · exact (SyncMap.isSome_load_replayEntries balance writes _).mpr (.inr ⟨write, member, rfl⟩)
  · rw [SyncMap.entry_replayEntries, last, Option.getD_some]

/-- A refused block leaves balances, witnesses and links as they were exactly when it has the
height counted last, carries no deposit, and its writes repeat what the balances hold. -/
theorem addBlock_refused_iff {start node next : Node} {bh : BlockHead} {txs : List TxItr}
    (fresh : start.chain.Fresh) (reached : Relation.ReflTransGen (AddStep rt wallet) start node)
    (refused : addBlock rt wallet node bh txs = some (next, false)) :
    (next.balanceM = node.balanceM ∧ next.witnesses = node.witnesses ∧ next.chain = node.chain) ↔
      node.balanceM.syncHeight = bh.height ∧ (∀ tx ∈ txs, tx.txClass ≠ Config.walletTxTypeDepositIn) ∧
        Repeats node.balanceM.balance (blockWrites rt wallet txs) := by
  have adds := addBlock_eq_some_iff.mp refused
  have sameChain := adds.chain_eq (linked_of_reached fresh reached)
  have sameBalance := SyncMap.replayEntries_eq_self_iff node.balanceM.balance (blockWrites rt wallet txs)
  have sameManager : next.balanceM = node.balanceM ↔ node.balanceM.syncHeight = bh.height ∧
      Repeats node.balanceM.balance (blockWrites rt wallet txs) := by
    rw [adds.balanceM, Repeats, ← sameBalance]
    obtain ⟨syncHeight, balance⟩ := node.balanceM
    simp [eq_comm]
  rw [sameManager, adds.witnesses_eq_iff]
  constructor
  · rintro ⟨⟨height, repeats⟩, noDeposit, -⟩
    exact ⟨height, noDeposit, repeats⟩
  · rintro ⟨height, noDeposit, repeats⟩
    exact ⟨⟨height, repeats⟩, noDeposit, sameChain⟩

/-! ## A refused block that is counted -/

namespace Sample

/-- The two keys of a wallet: the coinbase and another one. -/
def coinbaseKey : Address := { seedIndex := 0, index := 0, priKey := [1], pubkey := [1], hash := [0, 1, 1] }

def otherKey : Address := { seedIndex := 0, index := 1, priKey := [2], pubkey := [2], hash := [0, 1, 2] }

def twoKeys : Wallet where
  addrList := [coinbaseKey, otherKey]
  addressFile := [coinbaseKey, otherKey]
  expAddressFile := []
  coinbase := some coinbaseKey

/-- Hashes that name their input by its length, and a decoder that reads nothing. -/
def runtime : Runtime where
  sha3 bytes := [UInt8.ofNat bytes.length]
  hash160 bytes := bytes
  unmarshal _ := none

/-- A reward to the other address. -/
def reward (createTime : Int64) :
    TxItr := .reward { voutTotal := 1, vout? := some [{ value := 5, address? := some [0, 1, 2] }] } createTime

end Sample

/-- After a block of height 1, a block of height 5 is refused, and yet its reward is counted. -/
theorem addBlock_refused_counts : ∃ (start node next : Node) (bh : BlockHead) (txs : List TxItr),
    start.chain.Fresh ∧ Relation.ReflTransGen (AddStep Sample.runtime Sample.twoKeys) start node ∧
      addBlock Sample.runtime Sample.twoKeys node bh txs = some (next, false) ∧
        (next.balanceM.balance.load Sample.otherKey.hash).isSome ∧
          ¬ (next.balanceM = node.balanceM ∧ next.witnesses = node.witnesses ∧ next.chain = node.chain) := by
  refine ⟨{}, _, _, { hash? := some [2], height := 5 }, [Sample.reward 0], ⟨rfl, rfl, rfl⟩,
    .single ⟨{ hash? := some [1], height := 1 }, [], true, rfl⟩, rfl, rfl, ?_⟩
  rintro ⟨same, -⟩
  have height := congrArg BalanceManager.syncHeight same
  exact absurd height (by decide)

/-- A first block that is delivered again is refused and leaves everything as it was. -/
theorem addBlock_again_unchanged : ∃ (node next : Node),
    addBlock Sample.runtime Sample.twoKeys {} { hash? := some [1], height := 1 } [Sample.reward 0] = some (node, true) ∧
      addBlock Sample.runtime Sample.twoKeys node { hash? := some [1], height := 1 } [Sample.reward 0] = some (next, false) ∧
        next.balanceM = node.balanceM ∧ next.witnesses = node.witnesses ∧ next.chain = node.chain := by
  obtain ⟨node, first, next, again⟩ : ∃ node,
      addBlock Sample.runtime Sample.twoKeys {} { hash? := some [1], height := 1 } [Sample.reward 0] = some (node, true) ∧
        ∃ next, addBlock Sample.runtime Sample.twoKeys node { hash? := some [1], height := 1 } [Sample.reward 0] =
          some (next, false) := ⟨_, rfl, _, rfl⟩
  refine ⟨node, next, first, again, ?_⟩
  have fresh : ({} : Node).chain.Fresh := ⟨rfl, rfl, rfl⟩
  apply (addBlock_refused_iff fresh (.single ⟨_, _, true, first⟩) again).mpr
  rw [(addBlock_eq_some_iff.mp first).balanceM]
  exact ⟨rfl, by decide, repeats_replayEntries _ _⟩

end PolarCloud.Mining
