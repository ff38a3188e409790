import PolarCloud.Model.Mining.Load
import PolarCloud.Proofs.Mining.Import

/-! # What is handed to the chain

Between its message and the call of `addBlock` a turn changes the database, the pool and one
counter; a load changes nothing. So what either does to the balances and to the links is the effect
of one call of `addBlock`, or nothing at all.
-/

namespace PolarCloud.Mining

open Keystore

/-- The block that a load reads: a header, and all of its transactions. -/
def loaded? (rt : Runtime) (db : Db) (bhash : Bytes) : Option (BlockHead × List TxItr) := do
  let head ← db.find bhash
  let hB ← parseBlockHead rt head
  let txItrs ← readTxs rt db hB.tx
  let txItrs ← txItrs.mapM id
  some (hB, txItrs)

/-- What reaches the chain: an import, one block that is loaded, or the height of the first block. -/
inductive ChainEvent where
  | block (event : Event)
  | load (bhash : Bytes)
  | start (height : UInt64)

/-- The node after an event. -/
def handleChain (rt : Runtime) (wallet : Wallet) (node : Node) : ChainEvent → Node
  | .block event => handle rt wallet node event
  | .load bhash => (loadBlockForDB rt wallet node bhash).1
  | .start height => { node with chain := { node.chain with startingBlock := height } }

/-- The block that an event hands to `addBlock`; a synchronisation hands over none. -/
def ChainEvent.handed? (rt : Runtime) (node : Node) : ChainEvent → Option (BlockHead × List TxItr)
  | .block (.save bhvo) => do
      let bh ← bhvo.bh
      if (Event.savedWith rt node (.save bhvo)).isSome then some (bh, bhvo.txs.map (·.buildHash rt)) else none
  | .block (.sync ..) => none
  | .load bhash => loaded? rt node.db bhash
  | .start _ => none

/-- Nodes with the same links, balances and witnesses; database, pool and counters may differ. -/
structure SameChain (node other : Node) : Prop where
  blocks : other.chain.blocks = node.chain.blocks
  groups : other.chain.groups = node.chain.groups
  group : other.chain.group = node.chain.group
  balanceM : other.balanceM = node.balanceM
  witnesses : other.witnesses = node.witnesses

theorem SameChain.refl (node : Node) : SameChain node node := ⟨rfl, rfl, rfl, rfl, rfl⟩

theorem SameChain.trans {node other third : Node} (first : SameChain node other) (second : SameChain other third) :
    SameChain node third where
  blocks := second.blocks.trans first.blocks
  groups := second.groups.trans first.groups
  group := second.group.trans first.group
  balanceM := second.balanceM.trans first.balanceM
  witnesses := second.witnesses.trans first.witnesses

theorem SameChain.linked {node other : Node} (same : SameChain node other) (linked : node.chain.Linked) :
    other.chain.Linked := by
  obtain ⟨blocks, groups, group, -, -⟩ := same
  constructor
  · rw [blocks]; exact linked.blocks
  · rw [groups]; exact linked.groups
  · rw [group, groups]; exact linked.group
  · rw [groups, blocks]; exact linked.pieces
  · rw [groups]; exact linked.nonempty
  · rw [groups, blocks]; exact linked.owner

/-- What an event does to the chain: nothing, or what one call of `addBlock` does; it ends with a
panic exactly when the call does. -/
inductive Handed (rt : Runtime) (wallet : Wallet) (node : Node) (handed : Option (BlockHead × List TxItr))
    (next : Node) (exit : Exit) : Prop where
  | nothing (unhanded : handed = none) (same : SameChain node next)
  | panicked (before : Node) (bh : BlockHead) (txs : List TxItr) (isHanded : handed = some (bh, txs))
      (same : SameChain node before) (ran : addBlock rt wallet before bh txs = none) (later : SameChain before next)
      (panics : exit = .panic)
  | added (before after : Node) (bh : BlockHead) (txs : List TxItr) (added : Bool)
      (isHanded : handed = some (bh, txs)) (same : SameChain node before)
      (ran : addBlock rt wallet before bh txs = some (after, added)) (later : SameChain after next)
      (goesOn : exit = .next)

section Turn

variable {rt : Runtime} {wallet : Wallet} {node : Node}

/-- Nothing before the call of `addBlock` is seen by it. -/
theorem Handed.of_sameChain {before next : Node} {handed : Option (BlockHead × List TxItr)} {exit : Exit}
    (same : SameChain node before) (hands : Handed rt wallet before handed next exit) :
    Handed rt wallet node handed next exit := by
  cases hands with
  | nothing unhanded later => exact .nothing unhanded (same.trans later)
  | panicked middle bh txs isHanded later ran after panics =>
    exact .panicked middle bh txs isHanded (same.trans later) ran after panics
  | added middle after bh txs added isHanded later ran afterwards goesOn =>
    exact .added middle after bh txs added isHanded (same.trans later) ran afterwards goesOn

/-- The last part of a turn hands the block over. -/
theorem storeBlock_handed (bh : BlockHead) (txs : List TxItr) :
    Handed rt wallet node (some (bh, txs)) (storeBlock rt wallet node bh txs).1
      (storeBlock rt wallet node bh txs).2 := by
  unfold storeBlock
  dsimp only
  have prepared (db : Db) (unpacked : SyncMap Bytes TxItr) :
      SameChain node { node with
        db, unpacked,
        chain := if node.chain.currentBlock + 1 = bh.height then { node.chain with currentBlock := bh.height }
          else node.chain } := by
    split <;> exact ⟨rfl, rfl, rfl, rfl, rfl⟩
  split
  · next ran => exact .panicked _ bh txs rfl (prepared _ _) ran (.refl _) rfl
  · next after added ran =>
    split
    · exact .added _ after bh txs added rfl (prepared _ _) ran (.refl _) rfl
    · exact .added _ after bh txs added rfl (prepared _ _) ran ⟨rfl, rfl, rfl, rfl, rfl⟩ rfl

theorem handed?_save {bhvo : BlockHeadVO} {bh : BlockHead} (head : bhvo.bh = some bh) :
    ChainEvent.handed? rt node (.block (.save bhvo)) =
      if (Event.savedWith rt node (.save bhvo)).isSome then some (bh, bhvo.txs.map (·.buildHash rt)) else none := by
  simp only [ChainEvent.handed?, head, Option.bind_eq_bind, Option.bind_some]

/-- A turn of the block saver ends before the header is saved, or with the last part on some database. -/
theorem saveBlockHead_cases (bhvo : BlockHeadVO) :
    (ChainEvent.handed? rt node (.block (.save bhvo)) = none ∧
        ∃ db, (saveBlockHead rt wallet node bhvo).1 = { node with db }) ∨
      ∃ db bh txs, ChainEvent.handed? rt node (.block (.save bhvo)) = some (bh, txs) ∧
        saveBlockHead rt wallet node bhvo = storeBlock rt wallet { node with db } bh txs := by
  have brought (bh : BlockHead) (head : bhvo.bh = some bh) :
      Event.message? rt node.db (.save bhvo) = some ⟨some bh, bhvo.txs⟩ := by
    simp only [Event.message?, head]
  cases @saveBlockHead_turn rt wallet node bhvo with
  | stopped unsaved turn =>
    refine .inl ⟨?_, _, turn⟩
    cases head : bhvo.bh with
    | none => simp only [ChainEvent.handed?, head, Option.bind_eq_bind, Option.bind_none]
    | some bh =>
      rw [handed?_save head, unsaved]
      rfl
  | plain bh head due ran turn =>
    refine .inr ⟨_, bh, _, ?_, turn⟩
    rw [handed?_save head, Event.savedWith_plain (brought bh head) due ran]
    rfl
  | amended bh head due value parent ran present read turn =>
    refine .inr ⟨_, bh, _, ?_, turn⟩
    rw [handed?_save head, Event.savedWith_amended (brought bh head) ran present read]
    rfl

/-- One turn of the block saver hands over its block. -/
theorem saveBlockHead_handed (bhvo : BlockHeadVO) :
    Handed rt wallet node (ChainEvent.handed? rt node (.block (.save bhvo))) (saveBlockHead rt wallet node bhvo).1
      (saveBlockHead rt wallet node bhvo).2 := by
  have sameDb (db : Db) : SameChain node { node with db } := ⟨rfl, rfl, rfl, rfl, rfl⟩
  rcases @saveBlockHead_cases rt wallet node bhvo with ⟨unhanded, db, same⟩ | ⟨db, bh, txs, handed, same⟩
  · exact .nothing unhanded (same ▸ sameDb db)
  · rw [handed, same]
    exact (storeBlock_handed bh txs).of_sameChain (sameDb db)

/-- Loading a block hands over what is read, and leaves the node as it is when nothing is. -/
theorem loadBlockForDB_cases (bhash : Bytes) :
    (loaded? rt node.db bhash = none ∧ (loadBlockForDB rt wallet node bhash).1 = node) ∨
      ∃ bh txs, loaded? rt node.db bhash = some (bh, txs) ∧
        loadBlockForDB rt wallet node bhash =
          match addBlock rt wallet node bh txs with
          | none => (node, .panic)
          | some (next, _) => (next, .ok bh) := by
  unfold loadBlockForDB loaded?
  cases node.db.find bhash with
  | none => exact .inl ⟨rfl, rfl⟩
  | some head =>
    cases read : parseBlockHead rt head with
    | none => exact .inl ⟨by simp [read], by simp [read]⟩
    | some hB =>
      cases found : readTxs rt node.db hB.tx with
      | none => exact .inl ⟨by simp [read, found], by simp [read, found]⟩
      | some holes =>
        cases whole : holes.mapM id with
        | none => exact .inl ⟨by simp [read, found, whole], by simp [read, found, whole]⟩
        | some txs =>
          refine .inr ⟨hB, txs, by simp [read, found, whole], ?_⟩
          cases ran : addBlock rt wallet node hB txs <;> simp only [read, found, whole, ran]

/-- Every event hands over its block, and does nothing else to the chain. -/
theorem handleChain_handed (event : ChainEvent) :
    ∃ exit, Handed rt wallet node (event.handed? rt node) (handleChain rt wallet node event) exit := by
  cases event with
  | block event =>
    cases event with
    | save bhvo => exact ⟨_, saveBlockHead_handed bhvo⟩
    | sync neighbour bhash =>
      refine ⟨.next, .nothing rfl ?_⟩
      have sameDb (db : Db) : SameChain node { node with db } := ⟨rfl, rfl, rfl, rfl, rfl⟩
      simp only [handleChain, handle, syncBlockForDBAndNeighbor]
      split
      · exact .refl _
      · split
        · exact .refl _
        · exact .refl _
        · unfold importBlock
          split
          · dsimp only
            split
            · split <;> exact sameDb _
            · exact sameDb _
          · exact sameDb _
          · exact sameDb _
  | load bhash =>
    simp only [handleChain, ChainEvent.handed?]
    rcases @loadBlockForDB_cases rt wallet node bhash with ⟨unhanded, same⟩ | ⟨bh, txs, handed, loaded⟩
    · exact ⟨.next, .nothing unhanded (by rw [same]; exact .refl _)⟩
    · rw [loaded, handed]
      split
      · next ran => exact ⟨.panic, .panicked _ bh txs rfl (.refl _) ran (.refl _) rfl⟩
      · next after added ran => exact ⟨.next, .added _ after bh txs added rfl (.refl _) ran (.refl _) rfl⟩
  | start height => exact ⟨.next, .nothing rfl ⟨rfl, rfl, rfl, rfl, rfl⟩⟩

theorem SameChain.labels {node other : Node} (same : SameChain node other) :
    other.chain.labels = node.chain.labels := by
  rw [Chain.labels, same.blocks, Chain.labels]

theorem SameChain.getLastBlock {node other : Node} (same : SameChain node other) :
    other.chain.getLastBlock = node.chain.getLastBlock := by
  simp only [Chain.getLastBlock, same.group, same.groups, same.blocks]

theorem SameChain.accepts_iff {node other : Node} (same : SameChain node other) (bh : BlockHead) :
    other.chain.Accepts bh ↔ node.chain.Accepts bh := by
  simp only [Chain.Accepts, same.getLastBlock]

/-- The balances when a block was counted. -/
def BalanceManager.counts (rt : Runtime) (wallet : Wallet) (manager : BalanceManager) (bh : BlockHead)
    (txs : List TxItr) : BalanceManager :=
  ⟨bh.height, manager.balance.replayEntries (blockWrites rt wallet txs)⟩

/-- The deposits that a block enters. -/
def depositsOf (rt : Runtime) (txs : List TxItr) : List TxItr :=
  (txs.map fun tx => if tx.counted then tx.buildHash rt else tx).filter
    fun tx => tx.txClass = Config.walletTxTypeDepositIn

theorem depositsOf_eq_nil {txs : List TxItr} (noDeposit : ∀ tx ∈ txs, tx.txClass ≠ Config.walletTxTypeDepositIn) :
    depositsOf rt txs = [] := by
  simp only [depositsOf, List.filter_eq_nil_iff, List.forall_mem_map, decide_eq_true_eq]
  intro tx member
  split
  · rw [TxItr.txClass_buildHash]
    exact noDeposit tx member
  · exact noDeposit tx member

/-- The links and the balances after an event: as before, or a block was counted, and then refused
by its height or made the last one. -/
inductive Effect (rt : Runtime) (wallet : Wallet) (node : Node) (handed : Option (BlockHead × List TxItr))
    (next : Node) : Prop where
  | same (labels : next.chain.labels = node.chain.labels) (balanceM : next.balanceM = node.balanceM)
  | refused (bh : BlockHead) (txs : List TxItr) (isHanded : handed = some (bh, txs))
      (refused : ¬ node.chain.Accepts bh) (labels : next.chain.labels = node.chain.labels)
      (balanceM : next.balanceM = node.balanceM.counts rt wallet bh txs)
  | linked (bh : BlockHead) (txs : List TxItr) (isHanded : handed = some (bh, txs))
      (accepted : node.chain.Accepts bh)
      (labels : next.chain.labels = node.chain.labels ++ [(bh.hash, bh.height, depositsOf rt txs)])
      (balanceM : next.balanceM = node.balanceM.counts rt wallet bh txs)

/-- The labels after a block was added: one more where its height is accepted. -/
theorem Adds.labels {next : Node} {bh : BlockHead} {txs : List TxItr} {added : Bool} (linked : node.chain.Linked)
    (adds : Adds rt wallet node bh txs next added) :
    next.chain.labels = if node.chain.Accepts bh then
      node.chain.labels ++ [(bh.hash, bh.height, depositsOf rt txs)] else node.chain.labels := by
  split
  · next accepted =>
    obtain ⟨depositTx, collected, link⟩ := adds.deposits
    obtain ⟨chain, result, -, -, labels⟩ := Chain.linkBlock_accepted depositTx linked accepted
    obtain ⟨rfl, -⟩ := Prod.mk.inj (Option.some.inj (link.symm.trans result))
    rw [labels, (collectDeposits_spec collected).1, depositsOf]
  · next refuses =>
    have refused : added = false := Bool.eq_false_iff.mpr fun isAdded => refuses ((adds.added_iff linked).mp isAdded)
    subst refused
    rw [adds.chain_eq linked]

/-- An event keeps the chain linked and has one of the three effects. -/
theorem Handed.effect {handed : Option (BlockHead × List TxItr)} {next : Node} {exit : Exit}
    (linked : node.chain.Linked) (hands : Handed rt wallet node handed next exit) :
    next.chain.Linked ∧ Effect rt wallet node handed next := by
  cases hands with
  | nothing unhanded same => exact ⟨same.linked linked, .same same.labels same.balanceM⟩
  | panicked before bh txs isHanded same ran later =>
    have whole := same.trans later
    exact ⟨whole.linked linked, .same whole.labels whole.balanceM⟩
  | added before after bh txs added isHanded same ran later =>
    have linked' := same.linked linked
    have adds := addBlock_eq_some_iff.mp ran
    have counts : next.balanceM = node.balanceM.counts rt wallet bh txs := by
      rw [later.balanceM, adds.balanceM, same.balanceM, BalanceManager.counts]
    refine ⟨later.linked (adds.linked linked'), ?_⟩
    have labels := later.labels.trans (adds.labels linked')
    split at labels
    · next accepted =>
      exact .linked bh txs isHanded ((same.accepts_iff bh).mp accepted) (by rw [labels, same.labels]) counts
    · next refused =>
      exact .refused bh txs isHanded (fun accepts => refused ((same.accepts_iff bh).mpr accepts))
        (by rw [labels, same.labels]) counts

/-! ## Blocks that cause no panic -/

/-- Every deposit has an input and an output. -/
def DepositsFilled (txs : List TxItr) : Prop :=
  ∀ tx ∈ txs, tx.txClass = Config.walletTxTypeDepositIn → tx.getVin ≠ [] ∧ tx.getVout ≠ []

instance (txs : List TxItr) : Decidable (DepositsFilled txs) := by
  unfold DepositsFilled
  infer_instance

/-- Collecting deposits panics exactly when one of them has no input or no output. -/
theorem collectDeposits_isSome_iff {txs : List TxItr} {witnesses : List BackupWitness} :
    (collectDeposits rt txs witnesses).isSome ↔ DepositsFilled txs := by
  induction txs generalizing witnesses with
  | nil => simp [collectDeposits, DepositsFilled]
  | cons tx rest ih =>
    have split : DepositsFilled (tx :: rest) ↔ (tx.txClass = Config.walletTxTypeDepositIn →
        tx.getVin ≠ [] ∧ tx.getVout ≠ []) ∧ DepositsFilled rest := by
      simp only [DepositsFilled, List.forall_mem_cons]
    rw [split, collectDeposits]
    by_cases deposit : tx.txClass = Config.walletTxTypeDepositIn
    · rw [if_pos deposit]
      cases inputs : tx.getVin with
      | nil => simp [deposit]
      | cons vin vins =>
        obtain ⟨addr, built⟩ : ∃ addr, buildAddrByPubkey rt vin.puk = some addr :=
          ⟨_, buildAddrByPubkey_eq rt vin.puk⟩
        cases outputs : tx.getVout with
        | nil => simp [built, deposit]
        | cons vout vouts =>
          rw [← @ih (addWitness witnesses addr vout.value)]
          simp only [List.head?_cons, Option.bind_eq_bind, Option.bind_some, built]
          cases collectDeposits rt rest (addWitness witnesses addr vout.value) <;> simp
    · rw [if_neg deposit, ih]
      simp only [deposit, false_imp_iff, true_and]

/-- Adding to a linked chain panics exactly without a coinbase or with a deposit that is not filled. -/
theorem addBlock_isSome_iff {bh : BlockHead} {txs : List TxItr} (linked : node.chain.Linked) :
    (addBlock rt wallet node bh txs).isSome ↔ wallet.coinbase.isSome ∧ DepositsFilled txs := by
  have built : DepositsFilled (txs.map fun tx => if tx.counted then tx.buildHash rt else tx) ↔ DepositsFilled txs := by
    simp only [DepositsFilled, List.forall_mem_map]
    refine forall₂_congr fun tx _ => ?_
    split <;> simp
  rw [← built, ← @collectDeposits_isSome_iff rt _ node.witnesses]
  constructor
  · intro runs
    obtain ⟨⟨next, added⟩, ran⟩ := Option.isSome_iff_exists.mp runs
    obtain ⟨coinbase, -, -, -, depositTx, collected, -⟩ := addBlock_eq_some_iff.mp ran
    exact ⟨coinbase, by rw [collected]; rfl⟩
  · rintro ⟨coinbase, collects⟩
    obtain ⟨⟨witnesses, depositTx⟩, collected⟩ := Option.isSome_iff_exists.mp collects
    have counted := (@BalanceManager.count_eq_some_iff rt wallet node.balanceM _ bh.height txs).mpr ⟨coinbase, rfl⟩
    by_cases accepted : node.chain.Accepts bh
    · obtain ⟨chain, result, -⟩ := Chain.linkBlock_accepted depositTx linked accepted
      simp only [addBlock, counted, collected, Option.bind_eq_bind, Option.bind_some, result, Option.isSome_some]
    · have result := Chain.linkBlock_refused depositTx linked accepted
      simp only [addBlock, counted, collected, Option.bind_eq_bind, Option.bind_some, result, Option.isSome_some]

/-- A block without deposits is counted without a panic, and linked or refused by its height. -/
theorem Handed.effect_of_noDeposit {bh : BlockHead} {txs : List TxItr} {next : Node} {exit : Exit}
    (linked : node.chain.Linked) (coinbase : wallet.coinbase.isSome)
    (noDeposit : ∀ tx ∈ txs, tx.txClass ≠ Config.walletTxTypeDepositIn)
    (hands : Handed rt wallet node (some (bh, txs)) next exit) :
    exit = .next ∧ next.chain.Linked ∧ next.balanceM = node.balanceM.counts rt wallet bh txs ∧ next.chain.labels =
      if node.chain.Accepts bh then node.chain.labels ++ [(bh.hash, bh.height, [])] else node.chain.labels := by
  have filled : DepositsFilled txs := fun tx member deposit => absurd deposit (noDeposit tx member)
  cases hands with
  | nothing unhanded => cases unhanded
  | panicked before bh txs isHanded same ran =>
    cases isHanded
    have runs := (@addBlock_isSome_iff rt wallet before bh txs (same.linked linked)).mpr ⟨coinbase, filled⟩
    rw [ran] at runs
    cases runs
  | added before after bh txs added isHanded same ran later goesOn =>
    cases isHanded
    have linked' := same.linked linked
    have adds := addBlock_eq_some_iff.mp ran
    refine ⟨goesOn, later.linked (adds.linked linked'), ?_, ?_⟩
    · rw [later.balanceM, adds.balanceM, same.balanceM, BalanceManager.counts]
    · simp only [← same.accepts_iff, ← same.labels, later.labels, ← @depositsOf_eq_nil rt txs noDeposit]
      exact adds.labels linked'

end Turn

end PolarCloud.Mining
