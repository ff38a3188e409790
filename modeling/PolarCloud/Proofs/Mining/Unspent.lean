import PolarCloud.Base.Outputs
import PolarCloud.Proofs.Mining.Linkage
import PolarCloud.Proofs.Mining.SpentMarks

/-! # The balances and the unspent outputs of the chain

A block is counted before its height is looked at, so the balances follow every block that is
handed over and not only those on the chain. They are the unspent outputs of the chain in every run
in which each transaction of an accepted block settles, and a refused block repeats what is there.
-/

namespace PolarCloud.Mining

open Keystore Outputs

/-- What counts as an output of the wallet, as spending it, and as removing it: the first output of
a deposit cannot be spent, payments and deposits spend, and an input removes what stands under the
address of its key. -/
def outputs (rt : Runtime) (wallet : Wallet) : Reading TxItr (Bytes × Outpoint) TxItem where
  pays tx key item := ∃ index vout, tx.getVout[index]? = some vout ∧
    ¬ (tx.txClass = Config.walletTxTypeDepositIn ∧ index = 0) ∧
      key = (vout.address, tx.id rt, UInt64.ofNat index) ∧
        item = { value := vout.value, txid := tx.id rt, outIndex := UInt64.ofNat index }
  spends tx key := tx.Spends ∧ ∃ vin ∈ tx.getVin, (vin.txid, vin.vout) = key.2
  removes tx key := tx.txClass ≠ Config.walletTxTypeDepositOut ∧
    ∃ vin ∈ tx.getVin, buildAddrByPubkey rt vin.puk = some key.1 ∧ (vin.txid, vin.vout) = key.2
  own key := wallet.owns key.1

/-- The blocks on the chain with their transactions, which the chain itself does not keep. -/
abbrev History := List (BlockHead × List TxItr)

def History.txs (history : History) : List TxItr := history.flatMap Prod.snd

/-- The node after an event, and the blocks on its chain: a block that was handed over is on it when
the chain has grown. -/
def handleHistory (rt : Runtime) (wallet : Wallet) (state : Node × History) (event : ChainEvent) : Node × History :=
  let next := handleChain rt wallet state.1 event
  (next, state.2 ++
    if state.1.chain.blocks.length < next.chain.blocks.length then (event.handed? rt state.1).toList else [])

/-- The balances are the unspent outputs of the blocks on the chain, each with its value. -/
def BalanceUnspent (rt : Runtime) (wallet : Wallet) (node : Node) (history : History) : Prop :=
  (outputs rt wallet).Matches history.txs fun key => node.balanceM.balance.entry key.1 key.2

/-- The history lists the blocks on the chain. -/
def ListsChain (node : Node) (history : History) : Prop :=
  node.chain.onChain.map (fun block => (block.id, block.height)) =
    history.map fun block => (block.1.hash, block.1.height)

/-- Every transaction of an accepted block settles against those before it; a refused block writes
nothing but what the unspent outputs of the chain are. -/
def Settled (rt : Runtime) (wallet : Wallet) (state : Node × History) (event : ChainEvent) : Prop :=
  ∀ bh txs, event.handed? rt state.1 = some (bh, txs) →
    if state.1.chain.Accepts bh then
      ∀ before tx after, txs = before ++ tx :: after → (outputs rt wallet).Settles (state.2.txs ++ before) tx
    else
      ∀ key, wallet.owns key.1 → ∀ write, lastWrite (blockWrites rt wallet txs) key = some write →
        ∀ item, write = some item ↔ (outputs rt wallet).Unspent state.2.txs key item

/-- One event whose block settles. -/
def SettledStep (rt : Runtime) (wallet : Wallet) (state next : Node × History) : Prop :=
  ∃ event, Settled rt wallet state event ∧ next = handleHistory rt wallet state event

section Step

variable {rt : Runtime} {wallet : Wallet}

theorem TxItr.Typed.counted {tx : TxItr} (typed : tx.Typed) : tx.counted = true := by
  have kind : tx.txClass = tx.kind := typed
  cases tx <;> simp [TxItr.counted, kind, TxItr.kind]

/-- The writes of a transaction: removals for its inputs, then stores for its outputs. -/
theorem writes_outputs (tx : TxItr) :
    Reading.Writes (outputs rt wallet) tx ((tx.getVin).flatMap (vinWrites rt wallet (tx.buildHash rt)))
      (tx.getVout.zipIdx.flatMap (voutWrites wallet (tx.buildHash rt))) where
  removals_iff := by
    rintro ⟨addr, outpoint⟩ own write
    simp only [List.mem_flatMap, vinWrites, TxItr.txClass_buildHash, outputs]
    constructor
    · rintro ⟨vin, member, written⟩
      split at written
      · cases written
      · next removes =>
        split at written
        · cases written
        · next built =>
          split at written
          · cases List.mem_singleton.mp written
            exact ⟨rfl, removes, vin, member, built, rfl⟩
          · cases written
    · rintro ⟨rfl, removes, vin, member, built, rfl⟩
      have own : wallet.owns addr = true := own
      refine ⟨vin, member, ?_⟩
      rw [if_neg removes, built]
      simp only [own, if_true, List.mem_singleton]
  stores_iff := by
    rintro ⟨addr, outpoint⟩ own write
    simp only [List.mem_flatMap, voutWrites, TxItr.txClass_buildHash, TxItr.getHash_buildHash, outputs]
    constructor
    · rintro ⟨⟨vout, index⟩, member, written⟩
      split at written
      · next kept =>
        cases List.mem_singleton.mp written
        exact ⟨_, rfl, index, vout, List.mem_zipIdx_iff_getElem?.mp member, kept.2, rfl, rfl⟩
      · cases written
    · rintro ⟨item, rfl, index, vout, present, kept, same, rfl⟩
      cases same
      refine ⟨(vout, index), List.mem_zipIdx_iff_getElem?.mpr present, ?_⟩
      rw [if_pos ⟨own, kept⟩]
      exact List.mem_singleton_self _

/-- Counting a transaction keeps the balances the unspent outputs exactly when it settles. -/
theorem matches_tx_iff {txs : List TxItr} {tx : TxItr} {balance : Balances} (typed : tx.Typed)
    (matched : (outputs rt wallet).Matches txs fun key => balance.entry key.1 key.2) :
    ((outputs rt wallet).Matches (txs ++ [tx]) fun key =>
        (balance.replayEntries (builtWrites rt wallet (tx.buildHash rt))).entry key.1 key.2) ↔
      (outputs rt wallet).Settles txs tx := by
  refine matched.append_iff (writes_outputs tx) fun key _ => ?_
  rw [SyncMap.entry_replayEntries, builtWrites, TxItr.counted_buildHash, if_pos typed.counted, TxItr.getVin_buildHash,
    TxItr.getVout_buildHash]

/-- Counting a block whose transactions settle one after the other. -/
theorem matches_block {before txs : List TxItr} {balance : Balances} (typed : ∀ tx ∈ txs, tx.Typed)
    (matched : (outputs rt wallet).Matches before fun key => balance.entry key.1 key.2)
    (settles : ∀ earlier tx later, txs = earlier ++ tx :: later → (outputs rt wallet).Settles (before ++ earlier) tx) :
    (outputs rt wallet).Matches (before ++ txs) fun key =>
      (balance.replayEntries (blockWrites rt wallet txs)).entry key.1 key.2 := by
  induction txs generalizing before balance with
  | nil =>
    rw [List.append_nil]
    exact matched
  | cons tx rest ih =>
    have first := (matches_tx_iff (typed tx (List.mem_cons_self ..)) matched).mpr
      (by simpa using settles [] tx rest rfl)
    have later := ih (fun tx member => typed tx (List.mem_cons_of_mem _ member)) first
      fun earlier tx later cut => by simpa using settles (_ :: earlier) tx later (by rw [cut, List.cons_append])
    rw [List.append_assoc, List.singleton_append, ← SyncMap.replayEntries_append] at later
    exact later

private theorem typed_of_readTxs {db : Db} {txids : List Bytes} {holes : List (Option TxItr)} {txs : List TxItr}
    (read : readTxs rt db txids = some holes) (whole : holes.mapM id = some txs) : ∀ tx ∈ txs, tx.Typed := by
  induction txids generalizing holes txs with
  | nil =>
    cases read
    cases whole
    simp
  | cons txid rest ih =>
    simp only [readTxs, Option.bind_eq_bind, Option.bind_eq_some_iff] at read
    obtain ⟨value, -, later, read, same⟩ := read
    cases same
    simp only [List.mapM_cons, id_eq, Option.bind_eq_bind, Option.bind_eq_some_iff] at whole
    obtain ⟨tx, parsed, others, whole, same⟩ := whole
    cases same
    exact List.forall_mem_cons.mpr ⟨TxItr.typed_of_parse parsed, ih read whole⟩

/-- The transactions of a block that is handed over carry the class of their structure. -/
theorem typed_of_handed {node : Node} {event : ChainEvent} {bh : BlockHead} {txs : List TxItr}
    (handed : event.handed? rt node = some (bh, txs)) : ∀ tx ∈ txs, tx.Typed := by
  cases event with
  | block event =>
    cases event with
    | save bhvo =>
      obtain ⟨head, -, handed⟩ := Option.bind_eq_some_iff.mp handed
      split at handed
      · cases handed
        intro tx member
        obtain ⟨source, inside, rfl⟩ := List.mem_map.mp member
        exact (bhvo.typed source inside).buildHash
      · cases handed
    | sync neighbour bhash => cases handed
  | load bhash =>
    simp only [ChainEvent.handed?, loaded?, Option.bind_eq_bind, Option.bind_eq_some_iff] at handed
    obtain ⟨_, -, hB, -, holes, read, found, whole, same⟩ := handed
    cases same
    exact typed_of_readTxs read whole
  | start height => cases handed

/-- What holds in every state that is reached. -/
structure Accounted (rt : Runtime) (wallet : Wallet) (state : Node × History) : Prop where
  linked : state.1.chain.Linked
  labels : state.1.chain.labels.map (fun label => (label.1, label.2.1)) =
    state.2.map fun block => (block.1.hash, block.1.height)
  unspent : BalanceUnspent rt wallet state.1 state.2

theorem Accounted.listsChain {state : Node × History} (accounted : Accounted rt wallet state) :
    ListsChain state.1 state.2 := by
  rw [ListsChain, accounted.linked.onChain_eq, ← accounted.labels, Chain.labels, List.map_map]
  rfl

/-- A block is entered in the history when the chain has one label more. -/
theorem handleHistory_grown {state : Node × History} {event : ChainEvent} {block : BlockHead × List TxItr}
    {label : Bytes × UInt64 × List TxItr} (handed : event.handed? rt state.1 = some block)
    (labels : (handleChain rt wallet state.1 event).chain.labels = state.1.chain.labels ++ [label]) :
    (handleHistory rt wallet state event).2 = state.2 ++ [block] := by
  have length := congrArg List.length labels
  simp only [Chain.labels, List.length_append, List.length_map, List.length_singleton] at length
  rw [handleHistory]
  simp only [handed, length, Nat.lt_succ_self, if_true, Option.toList_some]

theorem handleHistory_same {state : Node × History} {event : ChainEvent}
    (labels : (handleChain rt wallet state.1 event).chain.labels = state.1.chain.labels) :
    (handleHistory rt wallet state event).2 = state.2 := by
  have length := congrArg List.length labels
  simp only [Chain.labels, List.length_map] at length
  rw [handleHistory]
  simp only [length, lt_irrefl, if_false, List.append_nil]

/-- One event whose block settles keeps the balances the unspent outputs of the chain. -/
theorem Accounted.step {state : Node × History} (accounted : Accounted rt wallet state) {event : ChainEvent}
    (settled : Settled rt wallet state event) : Accounted rt wallet (handleHistory rt wallet state event) := by
  obtain ⟨node, history⟩ := state
  obtain ⟨exit, hands⟩ := @handleChain_handed rt wallet node event
  obtain ⟨linked, effect⟩ := hands.effect accounted.linked
  have unchanged (labels : (handleChain rt wallet node event).chain.labels = node.chain.labels)
      (unspent : BalanceUnspent rt wallet (handleChain rt wallet node event) history) :
      Accounted rt wallet (handleHistory rt wallet (node, history) event) := by
    have sameHistory : (handleHistory rt wallet (node, history) event).2 = history := handleHistory_same labels
    refine ⟨linked, ?_, ?_⟩
    · rw [sameHistory, ← accounted.labels]
      exact congrArg _ labels
    · rw [sameHistory]
      exact unspent
  cases effect with
  | same labels balanceM =>
    refine unchanged labels ?_
    rw [BalanceUnspent, balanceM]
    exact accounted.unspent
  | refused bh txs handed refused labels balanceM =>
    have repeated := settled bh txs handed
    rw [if_neg refused] at repeated
    refine unchanged labels ((accounted.unspent.repeat_iff fun key _ => ?_).mpr repeated)
    rw [balanceM, BalanceManager.counts, SyncMap.entry_replayEntries]
  | linked bh txs handed accepted labels balanceM =>
    have settles := settled bh txs handed
    rw [if_pos accepted] at settles
    have grown : (handleHistory rt wallet (node, history) event).2 = history ++ [(bh, txs)] :=
      handleHistory_grown handed labels
    refine ⟨linked, ?_, ?_⟩
    · rw [grown, List.map_append, ← accounted.labels]
      change (handleChain rt wallet node event).chain.labels.map _ = _
      rw [labels, List.map_append]
      rfl
    · rw [grown, BalanceUnspent, History.txs, List.flatMap_append, List.flatMap_singleton]
      change (outputs rt wallet).Matches _ fun key =>
        (handleChain rt wallet node event).balanceM.balance.entry key.1 key.2
      rw [balanceM]
      exact matches_block (typed_of_handed handed) accounted.unspent settles

end Step

/-- In every run whose blocks settle, from an empty chain and empty balances, the balances are the
unspent outputs of the blocks on the chain in every state. -/
theorem balance_unspent_of_settled {rt : Runtime} {wallet : Wallet} {start state : Node × History}
    (fresh : start.1.chain.Fresh) (noBalance : start.1.balanceM.balance = .empty) (noHistory : start.2 = [])
    (reached : Relation.ReflTransGen (SettledStep rt wallet) start state) :
    BalanceUnspent rt wallet state.1 state.2 ∧ ListsChain state.1 state.2 := by
  suffices accounted : Accounted rt wallet state from ⟨accounted.unspent, accounted.listsChain⟩
  induction reached with
  | refl =>
    refine ⟨fresh.linked, ?_, ?_⟩
    · rw [noHistory, Chain.labels, fresh.blocks]
      rfl
    · rw [noHistory, BalanceUnspent, noBalance]
      exact Reading.matches_nil
  | tail _ step ih =>
    obtain ⟨event, settled, rfl⟩ := step
    exact ih.step settled

/-! ## A spent output that comes back -/

/-- One turn of the block saver, whatever it brings. -/
def SaveStep (rt : Runtime) (wallet : Wallet) (state next : Node × History) : Prop :=
  ∃ bhvo, next = handleHistory rt wallet state (.block (.save bhvo))

namespace Sample

theorem typed_reward : ∀ tx ∈ [reward 0], tx.Typed := by decide

/-- A first block that rewards the other address, and a payment that spends the reward. -/
def rewarded : BlockHeadVO := ⟨some genesis, [reward 0], typed_reward⟩

def payment : TxItr := .pay { type := 3, vinTotal := 1, vin? := some [{ txid? := some ((reward 0).id runtime), puk? := some [2] }] }

def paid : BlockHeadVO := ⟨some second, [payment], by decide⟩

/-- The outpoint of the reward, and what stands under it. -/
def rewardKey : Bytes × Outpoint := (otherKey.hash, (reward 0).id runtime, 0)

def rewardItem : TxItem := { value := 5, txid := (reward 0).id runtime, outIndex := 0 }

theorem blockWrites_reward :
    blockWrites runtime twoKeys [(reward 0).buildHash runtime] = [(rewardKey, some rewardItem)] := by
  rw [blockWrites, List.flatMap_singleton, TxItr.buildHash_buildHash]
  rfl

/-- One turn with a block without deposits that is handed over. -/
theorem history_of_saved {state : Node × History} {bhvo : BlockHeadVO} {bh : BlockHead}
    (linked : state.1.chain.Linked) (head : bhvo.bh = some bh)
    (noDeposit : ∀ tx ∈ bhvo.txs, tx.txClass ≠ Config.walletTxTypeDepositIn)
    (saved : (Event.savedWith runtime state.1 (.save bhvo)).isSome) :
    ∃ next, next = handleHistory runtime twoKeys state (.block (.save bhvo)) ∧
      next.1.db = (saveBlockHead runtime twoKeys state.1 bhvo).1.db ∧
      next.1.chain.startingBlock = state.1.chain.startingBlock ∧ next.1.chain.Linked ∧
      next.1.balanceM = state.1.balanceM.counts runtime twoKeys bh (bhvo.txs.map (·.buildHash runtime)) ∧
      if state.1.chain.Accepts bh then
        next.1.chain.labels = state.1.chain.labels ++ [(bh.hash, bh.height, [])] ∧
          next.2 = state.2 ++ [(bh, bhvo.txs.map (·.buildHash runtime))]
      else next.1.chain.labels = state.1.chain.labels ∧ next.2 = state.2 := by
  have hands := @saveBlockHead_handed runtime twoKeys state.1 bhvo
  have handed := @handed?_save runtime state.1 bhvo bh head
  rw [if_pos saved] at handed
  rw [handed] at hands
  obtain ⟨-, linked', balanceM, labels⟩ := hands.effect_of_noDeposit linked rfl fun tx member => by
    obtain ⟨source, inside, rfl⟩ := List.mem_map.mp member
    rw [TxItr.txClass_buildHash]
    exact noDeposit source inside
  refine ⟨_, rfl, rfl, handle_startingBlock (.save bhvo), linked', balanceM, ?_⟩
  split at labels
  · next accepted =>
    rw [if_pos accepted]
    exact ⟨labels, handleHistory_grown handed labels⟩
  · next refused =>
    rw [if_neg refused]
    exact ⟨labels, handleHistory_same labels⟩

/-- The block with the payment, where the reward and the first block are stored. -/
theorem paid_turn {node : Node} {source : TxItr} {parent : BlockHead} (starting : node.chain.startingBlock = 0)
    (typed : source.Typed) (own : source.getHash = (reward 0).id runtime) (inside : 0 < source.getVout.length)
    (present : node.db.find ((reward 0).id runtime) = some source.json) (held : Stored node.db [1] parent)
    (self : parent.hash = [1]) :
    (Event.savedWith runtime node (.save paid)).isSome ∧
      (saveBlockHead runtime twoKeys node paid).1.db.find ((reward 0).id runtime) =
        some (source.marked 0 (payment.id runtime)).json ∧
        Stored (saveBlockHead runtime twoKeys node paid).1.db [1] (parent.addNext (some [2])) := by
  have apart (key : Bytes) (other : key.head? ≠ some 0) : (reward 0).id runtime ≠ key := id_reward_ne other
  have paymentApart (key : Bytes) (other : key.head? ≠ some 3) : key ≠ payment.id runtime := fun same => other (same ▸ rfl)
  have ran := @saveTxs_spender runtime node.db true payment source _ (.inr rfl) rfl
    ⟨typed, (Db.find_save_ne _ _ (paymentApart _ (by decide))).trans present⟩ inside
  rw [own] at ran
  have there : Stored ((node.db.save (payment.id runtime) (payment.buildHash runtime).json).save ((reward 0).id runtime)
      (source.marked 0 (payment.id runtime)).json) [1] parent := by
    rw [Stored, Db.find_save_ne _ _ (apart _ (by decide)).symm, Db.find_save_ne _ _ (paymentApart _ (by decide))]
    exact held
  have due : amendDue node.chain second := by
    rw [amendDue, starting]
    decide
  have db := @saveBlockHead_db_amended runtime twoKeys node paid second parent _ ran rfl due there
  rw [starting, self, Db.saveHead, if_neg (by decide)] at db
  refine ⟨?_, ?_, ?_⟩
  · rw [@Event.savedWith_amended runtime node (.save paid) second parent [payment] _ rfl (congrArg Prod.snd ran)
      (show Db.find (saveTxs runtime true [payment] node.db).1 [1] = _ by rw [ran]; exact there)
      (BlockHead.parse_json _ _)]
    rfl
  · rw [db, Db.find_save_ne _ _ (apart _ (by decide)), Db.find_save_ne _ _ (apart _ (by decide)), Db.find_save_self]
  · rw [db, Stored, Db.find_save_ne _ _ (by decide), Db.find_save_self]
    rfl

/-- The first block rewards the other address, and the second one spends the reward. -/
structure RewardSpent (one two : Node × History) : Prop where
  isOne : one = handleHistory runtime twoKeys ({}, []) (.block (.save rewarded))
  isTwo : two = handleHistory runtime twoKeys one (.block (.save paid))
  starting : two.1.chain.startingBlock = 0
  linked : one.1.chain.Linked ∧ two.1.chain.Linked
  labels : one.1.chain.labels = [(genesis.hash, genesis.height, [])] ∧
    two.1.chain.labels = [(genesis.hash, genesis.height, []), (second.hash, second.height, [])]
  historyOne : one.2 = [(genesis, [(reward 0).buildHash runtime])]
  historyTwo : two.2 = [(genesis, [(reward 0).buildHash runtime]), (second, [payment.buildHash runtime])]
  again : (Event.savedWith runtime two.1 (.save paid)).isSome

theorem rewardSpent : ∃ one two, RewardSpent one two := by
  let id := (reward 0).id runtime
  let saved := (reward 0).buildHash runtime
  have apart (key : Bytes) (other : key.head? ≠ some 0) : id ≠ key := id_reward_ne other
  have fresh : ({} : Node).chain.Fresh := ⟨rfl, rfl, rfl⟩
  -- the reward arrives
  have plain : ¬ amendDue ({} : Node).chain genesis := by decide
  obtain ⟨one, isOne, dbOne, startOne, linkedOne, -, grownOne⟩ :=
    @history_of_saved ({}, []) rewarded genesis fresh.linked rfl (by decide) (by
      rw [@Event.savedWith_plain runtime {} (.save rewarded) genesis [reward 0] rfl plain rfl]
      rfl)
  rw [if_pos (by intro last none; cases none)] at grownOne
  obtain ⟨labelsOne, historyOne⟩ := grownOne
  rw [@saveBlockHead_db_plain runtime twoKeys {} rewarded genesis (Db.save .empty id saved.json) rfl rfl plain] at dbOne
  have dbOne : one.1.db = (Db.save .empty id saved.json).save [1] genesis.json := dbOne
  have startOne : one.1.chain.startingBlock = 0 := startOne
  -- the payment spends it
  have source : one.1.db.find id = some saved.json := by
    rw [dbOne, Db.find_save_ne _ _ (apart _ (by decide)), Db.find_save_self]
  have first : Stored one.1.db [1] genesis := by rw [dbOne, Stored, Db.find_save_self]
  obtain ⟨arrives, source, first⟩ := @paid_turn one.1 saved genesis startOne (by decide) rfl (by decide) source first rfl
  obtain ⟨two, isTwo, dbTwo, startTwo, linkedTwo, -, grownTwo⟩ :=
    @history_of_saved one paid second linkedOne rfl (by decide) arrives
  rw [if_pos (by rw [linkedOne.accepts_iff, labelsOne]; decide), labelsOne, historyOne] at grownTwo
  rw [← dbTwo] at source first
  -- it would be handed over again
  have startTwo : two.1.chain.startingBlock = 0 := startTwo.trans startOne
  obtain ⟨again, -⟩ := @paid_turn two.1 _ _ startTwo (by decide) rfl (by decide) source first rfl
  exact ⟨one, two, isOne, isTwo, startTwo, ⟨linkedOne, linkedTwo⟩, ⟨labelsOne, grownTwo.1⟩, historyOne, grownTwo.2, again⟩

end Sample

/-- A first block rewards the wallet, a second one spends the reward, and the first block arrives
again: the spent reward is back in the balances. -/
theorem balance_spent_again : ∃ (start state : Node × History), start = ({}, []) ∧
    Relation.ReflTransGen (SaveStep Sample.runtime Sample.twoKeys) start state ∧ ListsChain state.1 state.2 ∧
      ¬ BalanceUnspent Sample.runtime Sample.twoKeys state.1 state.2 := by
  obtain ⟨one, two, run⟩ := Sample.rewardSpent
  obtain ⟨three, isThree, -, -, linked, balance, grown⟩ :=
    @Sample.history_of_saved two Sample.rewarded Sample.genesis run.linked.2 rfl (by decide) (by
      rw [@Event.savedWith_plain Sample.runtime two.1 (.save Sample.rewarded) Sample.genesis [Sample.reward 0] rfl
        (by simp only [Event.Amends, amendDue, run.starting]; decide) rfl]
      rfl)
  rw [if_neg (by rw [run.linked.2.accepts_iff, run.labels.2]; decide), run.labels.2, run.historyTwo] at grown
  obtain ⟨labels, history⟩ := grown
  refine ⟨({}, []), three, rfl, (((Relation.ReflTransGen.single ⟨_, run.isOne⟩).tail ⟨_, run.isTwo⟩).tail ⟨_, isThree⟩),
    ?_, fun unspent => ?_⟩
  · rw [ListsChain, linked.onChain_eq, history]
    have labels := congrArg (List.map fun label => (label.1, label.2.1)) labels
    rw [Chain.labels, List.map_map] at labels
    exact labels
  · have present : three.1.balanceM.balance.entry Sample.rewardKey.1 Sample.rewardKey.2 = some Sample.rewardItem := by
      rw [balance, BalanceManager.counts, SyncMap.entry_replayEntries]
      change (lastWrite (blockWrites Sample.runtime Sample.twoKeys [(Sample.reward 0).buildHash Sample.runtime])
        Sample.rewardKey).getD _ = _
      rw [Sample.blockWrites_reward]
      simp [lastWrite]
    have owned : Sample.twoKeys.owns Sample.otherKey.hash = true := by decide
    refine ((unspent Sample.rewardKey owned Sample.rewardItem).mp present).2 ?_
    refine ⟨Sample.payment.buildHash Sample.runtime, ?_, .inr rfl, _, List.mem_singleton_self _, rfl⟩
    rw [history]
    simp [History.txs]

namespace Sample

/-- An accepted message with one transaction that settles. -/
theorem settled_single {state : Node × History} {bh : BlockHead} {tx : TxItr} (typed : ∀ one ∈ [tx], one.Typed)
    (accepted : state.1.chain.Accepts bh)
    (settles : (outputs runtime twoKeys).Settles state.2.txs (tx.buildHash runtime)) :
    Settled runtime twoKeys state (.block (.save ⟨some bh, [tx], typed⟩)) := by
  intro head txs handed
  rw [handed?_save (show (BlockHeadVO.mk (some bh) [tx] typed).bh = some bh from rfl)] at handed
  split at handed
  · cases handed
    rw [if_pos accepted]
    intro before one after cut
    cases before with
    | nil =>
      cases cut
      rw [List.append_nil]
      exact settles
    | cons first rest => exact absurd (congrArg List.length cut) (by simp)
  · cases handed

/-- The reward has one output. -/
theorem pays_reward_iff {key : Bytes × Outpoint} {item : TxItem} :
    (outputs runtime twoKeys).pays ((reward 0).buildHash runtime) key item ↔ key = rewardKey ∧ item = rewardItem := by
  constructor
  · rintro ⟨index, vout, present, -, rfl, rfl⟩
    cases index with
    | zero =>
      cases present
      exact ⟨rfl, rfl⟩
    | succ index => cases present
  · rintro ⟨rfl, rfl⟩
    exact ⟨0, _, rfl, by decide, rfl, rfl⟩

theorem settles_reward : (outputs runtime twoKeys).Settles [] ((reward 0).buildHash runtime) where
  fresh key value _ _ spent := by
    rw [List.nil_append, Reading.spent_singleton] at spent
    exact absurd spent.1 (by unfold TxItr.Spends; decide)
  agree key value _ pays other paid := by
    rw [List.nil_append, Reading.paid_singleton] at paid
    rw [(pays_reward_iff.mp paid).2, (pays_reward_iff.mp pays).2]
  drops key _ removes := by
    obtain ⟨-, vin, member, -⟩ := removes
    cases member
  keyed key value _ spends := absurd spends.1 (by unfold TxItr.Spends; decide)

/-- The payment pays nothing, and spends the reward with the key of its address. -/
theorem settles_payment : (outputs runtime twoKeys).Settles [(reward 0).buildHash runtime] (payment.buildHash runtime) where
  fresh key value _ pays := by
    obtain ⟨index, vout, present, -⟩ := pays
    cases present
  agree key value _ pays := by
    obtain ⟨index, vout, present, -⟩ := pays
    cases present
  drops key _ removes kept := by
    obtain ⟨-, vin, member, -, same⟩ := removes
    exact absurd ⟨.inr rfl, vin, member, same⟩ kept
  keyed key value _ spends unspent := by
    obtain ⟨paid, -⟩ := unspent
    obtain ⟨rfl, -⟩ := pays_reward_iff.mp (Reading.paid_singleton.mp paid)
    obtain ⟨-, vin, member, same⟩ := spends
    refine ⟨by decide, vin, member, ?_, same⟩
    cases List.mem_singleton.mp member
    rfl

theorem blockWrites_payment : blockWrites runtime twoKeys [payment.buildHash runtime] = [(rewardKey, none)] := by
  rw [blockWrites, List.flatMap_singleton, TxItr.buildHash_buildHash]
  rfl

/-- The payment again: what it removes is spent. -/
theorem settled_again {one two : Node × History} (run : RewardSpent one two) :
    Settled runtime twoKeys two (.block (.save paid)) := by
  intro bh txs handed
  rw [handed?_save (show paid.bh = some second from rfl)] at handed
  split at handed
  · cases handed
    rw [if_neg (by rw [run.linked.2.accepts_iff, run.labels.2]; decide), run.historyTwo]
    intro key _ write last item
    rw [show paid.txs = [payment] from rfl, List.map_singleton, blockWrites_payment] at last
    obtain ⟨rfl, rfl⟩ : key = rewardKey ∧ none = write := by simpa [lastWrite] using last
    refine iff_of_false (by rintro ⟨⟩) fun unspent => unspent.2 ?_
    refine ⟨payment.buildHash runtime, ?_, .inr rfl, _, List.mem_singleton_self _, rfl⟩
    simp [History.txs]
  · cases handed

end Sample

/-- A run whose blocks settle: the first block rewards the other address, the second one spends the reward, and the
second one arrives again. -/
theorem balance_unspent_of_settled_spent : ∃ state,
    state = [Sample.rewarded, Sample.paid, Sample.paid].foldl
      (fun state bhvo => handleHistory Sample.runtime Sample.twoKeys state (.block (.save bhvo))) ({}, []) ∧
      state.2.map Prod.fst = [Sample.genesis, Sample.second] ∧
      BalanceUnspent Sample.runtime Sample.twoKeys state.1 state.2 ∧ ListsChain state.1 state.2 := by
  obtain ⟨one, two, run⟩ := Sample.rewardSpent
  have first : SettledStep Sample.runtime Sample.twoKeys ({}, []) one :=
    ⟨_, Sample.settled_single Sample.typed_reward (by intro last none; cases none) Sample.settles_reward, run.isOne⟩
  have second : SettledStep Sample.runtime Sample.twoKeys one two := by
    refine ⟨_, Sample.settled_single (by decide) ?_ ?_, run.isTwo⟩
    · rw [run.linked.1.accepts_iff, run.labels.1]
      decide
    · rw [run.historyOne]
      exact Sample.settles_payment
  obtain ⟨three, isThree, -, -, -, -, grown⟩ :=
    @Sample.history_of_saved two Sample.paid Sample.second run.linked.2 rfl (by decide) run.again
  rw [if_neg (by rw [run.linked.2.accepts_iff, run.labels.2]; decide), run.historyTwo] at grown
  have third : SettledStep Sample.runtime Sample.twoKeys two three := ⟨_, Sample.settled_again run, isThree⟩
  refine ⟨three, ?_, ?_,
    balance_unspent_of_settled ⟨rfl, rfl, rfl⟩ rfl rfl (((Relation.ReflTransGen.single first).tail second).tail third)⟩
  · rw [isThree, run.isTwo, run.isOne]
    simp only [List.foldl_cons, List.foldl_nil]
  · rw [grown.2]
    rfl

end PolarCloud.Mining
