import PolarCloud.Proofs.Mining.Saved

/-! # Loading what was saved

At start-up the first block is loaded and then its successors, but no further: the load of a
successor goes on only where it lists none. So a restart rebuilds the chain exactly when it has at
most two blocks, and the second one is listed by the first.
-/

namespace PolarCloud.Mining

open Keystore

/-- A node started again on the database of another one. -/
structure Restarted (saved restart : Node) : Prop where
  db : restart.db = saved.db
  chain : restart.chain.Fresh
  balance : restart.balanceM.balance = .empty

/-- The load succeeds with exactly the saved blocks on the chain, the highest one last, and the
balances of before. -/
def Restored (rt : Runtime) (wallet : Wallet) (fuel : ℕ) (saved restart : Node) (blocks : List FullBlock) : Prop :=
  ∃ node, loadBlockChain rt wallet fuel restart = some (node, .ok ()) ∧
    node.chain.onChain.map (fun block => (block.id, block.height)) =
      blocks.map (fun block => (block.bh.hash, block.bh.height)) ∧
    node.chain.getLastBlock.map Block.id = blocks.getLast?.map (fun block => block.bh.hash) ∧
    node.balanceM.balance = saved.balanceM.balance

/-! ## Transactions read back up to their marks -/

section Erase

variable {rt : Runtime} {wallet : Wallet}

/-- Stored transactions, each of them another one up to its marks. -/
abbrev SameErase (txs stored : List TxItr) : Prop := List.Forall₂ (fun tx other => other.erase = tx.erase) txs stored

@[simp] theorem TxItr.txClass_erase (tx : TxItr) : tx.erase.txClass = tx.txClass := by cases tx <;> rfl

@[simp] theorem TxItr.getVin_erase (tx : TxItr) : tx.erase.getVin = tx.getVin := by cases tx <;> rfl

@[simp] theorem TxItr.counted_erase (tx : TxItr) : tx.erase.counted = tx.counted := by
  simp only [TxItr.counted, TxItr.txClass_erase]

theorem TxItr.getVout_erase (tx : TxItr) :
    tx.erase.getVout = tx.getVout.map fun vout => { vout with tx := none } := by cases tx <;> rfl

/-- What is counted does not depend on marks. -/
theorem builtWrites_erase (tx : TxItr) :
    builtWrites rt wallet (tx.erase.buildHash rt) = builtWrites rt wallet (tx.buildHash rt) := by
  have inputs : vinWrites rt wallet (tx.erase.buildHash rt) = vinWrites rt wallet (tx.buildHash rt) := by
    funext vin
    simp only [vinWrites, TxItr.txClass_buildHash, TxItr.txClass_erase]
  have outputs : voutWrites wallet (tx.erase.buildHash rt) = voutWrites wallet (tx.buildHash rt) := by
    funext output
    simp only [voutWrites, TxItr.txClass_buildHash, TxItr.txClass_erase, TxItr.getHash_buildHash, TxItr.id_erase]
  have unmarked (output : Vout × ℕ) : voutWrites wallet (tx.buildHash rt)
    (Prod.map (fun vout => { vout with tx := none })
      id output) = voutWrites wallet (tx.buildHash rt) output := rfl
  simp only [builtWrites, TxItr.counted_buildHash, TxItr.counted_erase, TxItr.getVin_buildHash,
    TxItr.getVout_buildHash, inputs, outputs, TxItr.getVin_erase, TxItr.getVout_erase, List.zipIdx_map,
    List.flatMap_map, unmarked]

theorem blockWrites_of_sameErase {txs stored : List TxItr} (same : SameErase txs stored) :
    blockWrites rt wallet stored = blockWrites rt wallet txs := by
  induction same with
  | nil => rfl
  | @cons tx other _ _ head _ ih =>
    simp only [blockWrites, List.flatMap_cons] at ih ⊢
    rw [ih, ← builtWrites_erase other, head, builtWrites_erase]

theorem DepositsFilled.of_sameErase {txs stored : List TxItr} (same : SameErase txs stored)
    (filled : DepositsFilled txs) : DepositsFilled stored := by
  induction same with
  | nil => exact filled
  | @cons tx other txs _ head _ ih =>
    obtain ⟨first, rest⟩ := List.forall_mem_cons.mp filled
    refine List.forall_mem_cons.mpr ⟨fun deposit => ?_, ih rest⟩
    have class_ : other.txClass = tx.txClass := by rw [← TxItr.txClass_erase, head, TxItr.txClass_erase]
    have vin : other.getVin = tx.getVin := by rw [← TxItr.getVin_erase, head, TxItr.getVin_erase]
    have vout : other.getVout.map (fun vout => { vout with tx := none }) =
        tx.getVout.map fun vout => { vout with tx := none } := by
      rw [← TxItr.getVout_erase, head, TxItr.getVout_erase]
    obtain ⟨someVin, someVout⟩ := first (class_ ▸ deposit)
    refine ⟨vin ▸ someVin, fun none => someVout ?_⟩
    rw [none, List.map_nil, eq_comm, List.map_eq_nil_iff] at vout
    exact vout

/-- Transactions that are stored are read back, up to their marks. -/
theorem readTxs_of_held {db : Db} {txs : List TxItr} (held : ∀ tx ∈ txs, HeldTx rt db tx) :
    ∃ stored, readTxs rt db (txs.map (·.id rt)) = some (stored.map some) ∧ SameErase txs stored := by
  induction txs with
  | nil => exact ⟨[], rfl, .nil⟩
  | cons tx rest ih =>
    obtain ⟨⟨first, ⟨typed, present⟩, same⟩, later⟩ := List.forall_mem_cons.mp held
    obtain ⟨stored, read, sameRest⟩ := ih later
    refine ⟨first :: stored, ?_, .cons same sameRest⟩
    simp only [List.map_cons, readTxs, present, read, Option.bind_eq_bind, Option.bind_some, TxItr.parse_json rt typed]

end Erase

section Load

variable {rt : Runtime} {wallet : Wallet} {start : UInt64}

/-- The ids and heights on the chain. -/
def Chain.outline (chain : Chain) : List (Bytes × UInt64) := chain.labels.map fun label => (label.1, label.2.1)

theorem Chain.Linked.accepts_iff_outline {chain : Chain} (linked : chain.Linked) {bh : BlockHead} :
    chain.Accepts bh ↔ ∀ pair, chain.outline.getLast? = some pair → pair.2 + 1 = bh.height := by
  rw [linked.accepts_iff, Chain.outline, List.getLast?_map]
  constructor
  · intro accepts pair last
    obtain ⟨label, isLast, rfl⟩ := Option.map_eq_some_iff.mp last
    exact accepts label isLast
  · intro accepts label last
    exact accepts (label.1, label.2.1) (by rw [last, Option.map_some])

/-- Loading a stored block that the chain accepts. -/
theorem loadBlockForDB_held {node : Node} {block : FullBlock} {nextblockhash : Option (List (Option Bytes))}
    (linked : node.chain.Linked) (stored : Stored node.db block.bh.hash (block.bh.withNexts nextblockhash))
    (txids : block.bh.tx = block.txs.map (·.id rt)) (held : ∀ tx ∈ block.txs, HeldTx rt node.db tx)
    (coinbase : wallet.coinbase.isSome) (filled : DepositsFilled block.txs) (accepts : node.chain.Accepts block.bh) :
    ∃ next, loadBlockForDB rt wallet node block.bh.hash = (next, .ok (block.bh.withNexts nextblockhash)) ∧
      next.db = node.db ∧ next.chain.Linked ∧
      next.chain.outline = node.chain.outline ++ [(block.bh.hash, block.bh.height)] ∧
      next.balanceM.balance = node.balanceM.balance.replayEntries (blockWrites rt wallet block.txs) := by
  obtain ⟨txs, read, same⟩ := readTxs_of_held held
  have whole : (txs.map some).mapM id = some txs := Json.mapM_map_eq_some_iff.mpr fun _ _ => rfl
  have loaded : loaded? rt node.db block.bh.hash = some (block.bh.withNexts nextblockhash, txs) := by
    have present : node.db.find block.bh.hash = some (block.bh.withNexts nextblockhash).json := stored
    have read : readTxs rt node.db (block.bh.withNexts nextblockhash).tx = some (txs.map some) := by
      rw [← read, ← txids]
      rfl
    simp only [loaded?, present, BlockHead.parse_json, read, whole, Option.bind_eq_bind, Option.bind_some]
  rcases @loadBlockForDB_cases rt wallet node block.bh.hash with ⟨none, -⟩ | ⟨bh, others, isLoaded, turn⟩
  · cases none.symm.trans loaded
  · cases isLoaded.symm.trans loaded
    obtain ⟨⟨next, added⟩, ran⟩ := Option.isSome_iff_exists.mp
      ((@addBlock_isSome_iff rt wallet node (block.bh.withNexts nextblockhash) txs linked).mpr
        ⟨coinbase, filled.of_sameErase same⟩)
    rw [ran] at turn
    have adds := addBlock_eq_some_iff.mp ran
    have labels := adds.labels linked
    rw [if_pos (show node.chain.Accepts (block.bh.withNexts nextblockhash) from accepts)] at labels
    refine ⟨next, turn, adds.db, adds.linked linked, ?_, ?_⟩
    · rw [Chain.outline, labels, List.map_append, Chain.outline]
      rfl
    · rw [adds.balanceM, blockWrites_of_sameErase same]

/-- How many blocks a load reaches. -/
def reach (start : UInt64) : ℕ := if start = 0 then 1 else 2

/-- The first block of the succession is loaded into the empty chain. -/
private theorem load_first {saved restart : Node} {genesis : FullBlock} {rest : List FullBlock}
    (succession : Succession rt start (genesis :: rest)) (took : Took rt wallet start (genesis :: rest) saved)
    (restarted : Restarted saved restart) :
    ∃ one nextblockhash, (genesis.bh.withNexts nextblockhash).nexts = recorded start (genesis :: rest) 0 ∧
      loadBlockForDB rt wallet restart genesis.bh.hash = (one, .ok (genesis.bh.withNexts nextblockhash)) ∧
      one.db = saved.db ∧ one.chain.Linked ∧ one.chain.outline = [(genesis.bh.hash, genesis.bh.height)] ∧
      one.balanceM.balance = SyncMap.empty.replayEntries (blockWrites rt wallet genesis.txs) := by
  have isFirst : genesis ∈ genesis :: rest := List.mem_cons_self ..
  obtain ⟨nextblockhash, stored, nexts⟩ := took.saved.heads 0 genesis rfl
  obtain ⟨coinbase, filled⟩ := took.runs genesis isFirst
  have accepts : restart.chain.Accepts genesis.bh := by
    intro last isLast
    rw [restarted.chain.linked.getLastBlock_eq, restarted.chain.blocks] at isLast
    cases isLast
  obtain ⟨one, load, db, linked, outline, balance⟩ := loadBlockForDB_held restarted.chain.linked
    (by rw [restarted.db]; exact stored) (succession.tx genesis isFirst)
    (by rw [restarted.db]; exact took.saved.txs genesis isFirst) coinbase filled accepts
  have noOutline : restart.chain.outline = [] := by
    rw [Chain.outline, Chain.labels, restarted.chain.blocks]
    rfl
  rw [noOutline, List.nil_append] at outline
  rw [restarted.balance] at balance
  exact ⟨one, nextblockhash, nexts, load, db.trans restarted.db, linked, outline, balance⟩

/-- A chain that ends with the first block accepts the second one. -/
private theorem accepts_second {genesis second : FullBlock} {later : List FullBlock} {chain : Chain}
    (succession : Succession rt start (genesis :: second :: later)) (linked : chain.Linked)
    (outline : chain.outline = [(genesis.bh.hash, genesis.bh.height)]) : chain.Accepts second.bh := by
  have low := succession.heights 0 genesis rfl
  have high := succession.heights 1 second rfl
  have bound := second.bh.height.toNat_lt
  rw [linked.accepts_iff_outline, outline]
  rintro pair last
  obtain rfl : (genesis.bh.hash, genesis.bh.height) = pair := Option.some.inj last
  rw [← UInt64.toNat_inj, UInt64.toNat_add, high, low, show (1 : UInt64).toNat = 1 from rfl]
  omega

/-- A load takes the first blocks of the succession, as many as it reaches. -/
theorem loadBlockChain_took {saved restart : Node} {genesis : FullBlock} {rest : List FullBlock}
    (succession : Succession rt start (genesis :: rest)) (took : Took rt wallet start (genesis :: rest) saved)
    (restarted : Restarted saved restart) (fuel : ℕ) :
    ∃ node, loadBlockChain rt wallet (fuel + 1) restart = some (node, .ok ()) ∧ node.chain.Linked ∧
      node.chain.outline = ((genesis :: rest).take (reach start)).map (fun block => (block.bh.hash, block.bh.height)) ∧
        node.balanceM.balance = balancesOf rt wallet ((genesis :: rest).take (reach start)) := by
  have present : restart.db.find Config.keyBlockStart = some (.raw genesis.bh.hash) := by
    rw [restarted.db]
    exact took.saved.first genesis rfl
  obtain ⟨one, nextblockhash, nexts, loadOne, dbOne, linkedOne, outlineOne, balanceOne⟩ :=
    load_first succession took restarted
  -- the height of the first block is recorded
  let started : Node := { one with chain := { one.chain with startingBlock := genesis.bh.height } }
  have linkedStarted : started.chain.Linked :=
    ⟨linkedOne.blocks, linkedOne.groups, linkedOne.group, linkedOne.pieces, linkedOne.nonempty, linkedOne.owner⟩
  have outlineStarted : started.chain.outline = [(genesis.bh.hash, genesis.bh.height)] := outlineOne
  have chain {node : Node} (visits : loadEach (deepCycleLoadBlock rt wallet (fuel + 1))
      (recorded start (genesis :: rest) 0) started = some (node, .next)) :
      loadBlockChain rt wallet (fuel + 1) restart = some (node, .ok ()) := by
    rw [← nexts] at visits
    simp only [loadBlockChain, present, Value.bytes, loadOne]
    rw [show loadEach (deepCycleLoadBlock rt wallet (fuel + 1)) (genesis.bh.withNexts nextblockhash).nexts
      { one with chain := { one.chain with startingBlock := (genesis.bh.withNexts nextblockhash).height } } =
        some (node, .next) from visits]
  by_cases zero : start = 0
  · refine ⟨started, ?_, linkedStarted, ?_, ?_⟩
    · apply chain
      rw [recorded, if_pos ⟨zero, rfl⟩]
      rfl
    · rw [outlineStarted, reach, if_pos zero]
      rfl
    · rw [reach, if_pos zero]
      exact balanceOne.trans (by simp [balancesOf])
  · rw [reach, if_neg zero]
    cases rest with
    | nil =>
      refine ⟨started, ?_, linkedStarted, outlineStarted, balanceOne.trans (by simp [balancesOf])⟩
      apply chain
      rw [recorded, if_neg (fun both => zero both.1)]
      rfl
    | cons second later =>
      have isSecond : second ∈ genesis :: second :: later := by simp
      obtain ⟨nextblockhash', storedSecond, -⟩ := took.saved.heads 1 second rfl
      obtain ⟨coinbase, filled⟩ := took.runs second isSecond
      obtain ⟨two, loadTwo, -, linkedTwo, outlineTwo, balanceTwo⟩ := loadBlockForDB_held linkedStarted
        (by rw [show started.db = one.db from rfl, dbOne]; exact storedSecond) (succession.tx second isSecond)
        (by rw [show started.db = one.db from rfl, dbOne]; exact took.saved.txs second isSecond) coinbase filled
        (accepts_second succession linkedStarted outlineStarted)
      refine ⟨two, ?_, linkedTwo, ?_, ?_⟩
      · apply chain
        rw [recorded, if_neg (fun both => zero both.1)]
        simp only [List.getElem?_cons_succ, List.getElem?_cons_zero, Option.map_some, Option.toList_some, loadEach,
          deepCycleLoadBlock_succ, loadTwo]
      · rw [outlineTwo, outlineStarted]
        rfl
      · rw [balanceTwo, show started.balanceM = one.balanceM from rfl, balanceOne, ← SyncMap.replayEntries_append]
        simp [balancesOf]

/-- The load rebuilds what was saved exactly when it reaches all of it. -/
theorem restored_iff_reach {saved restart : Node} {genesis : FullBlock} {rest : List FullBlock}
    (succession : Succession rt start (genesis :: rest)) (took : Took rt wallet start (genesis :: rest) saved)
    (restarted : Restarted saved restart) (fuel : ℕ) :
    Restored rt wallet (fuel + 1) saved restart (genesis :: rest) ↔ rest.length + 1 ≤ reach start := by
  obtain ⟨node, loaded, linked, outline, balance⟩ := loadBlockChain_took succession took restarted fuel
  have onChain : node.chain.onChain.map (fun block => (block.id, block.height)) = node.chain.outline := by
    rw [linked.onChain_eq, Chain.outline, Chain.labels, List.map_map]
    rfl
  constructor
  · rintro ⟨other, loaded', blocks, -⟩
    cases loaded.symm.trans loaded'
    have lengths := congrArg List.length (onChain.symm.trans blocks)
    rw [outline] at lengths
    simp only [List.length_map, List.length_take, List.length_cons] at lengths
    omega
  · intro enough
    rw [List.take_of_length_le (by simpa using enough)] at outline balance
    refine ⟨node, loaded, onChain.trans outline, ?_, balance.trans took.balance.symm⟩
    have ids : node.chain.blocks.map Block.id = (genesis :: rest).map fun block => block.bh.hash := by
      have firsts := congrArg (List.map Prod.fst) outline
      rw [Chain.outline, Chain.labels, List.map_map, List.map_map, List.map_map] at firsts
      exact firsts
    rw [linked.getLastBlock_eq, ← List.getLast?_map, ids, List.getLast?_map]

end Load

/-- After a succession of blocks a restart rebuilds the chain exactly when there is one block, or
there are two and the first is not of height 0. -/
theorem restored_iff {rt : Runtime} {wallet : Wallet} {start : UInt64} {first saved restart : Node}
    {genesis : FullBlock} {rest : List FullBlock} (begins : Begins start first)
    (succession : Succession rt start (genesis :: rest)) (ran : saveAll rt wallet first (genesis :: rest) = some saved)
    (restarted : Restarted saved restart) (fuel : ℕ) :
    Restored rt wallet (fuel + 1) saved restart (genesis :: rest) ↔ rest = [] ∨ rest.length = 1 ∧ start ≠ 0 := by
  rw [restored_iff_reach succession (took_of_saveAll begins succession ran) restarted, reach,
    ← List.length_eq_zero_iff]
  split
  · next zero =>
    simp only [zero, ne_eq, not_true_eq_false, and_false, or_false]
    omega
  · next positive =>
    simp only [ne_eq, positive, not_false_eq_true, and_true]
    omega

/-! ## A chain that is cut off -/

namespace Sample

/-- A block without transactions. -/
def bareBlock (bh : BlockHead) : FullBlock := ⟨bh, [], List.forall_mem_nil _⟩

/-- A third block on top of the second one. -/
def onSecond : BlockHead := { hash? := some [4], height := 3, groupHeight := 1, previousblockhash? := some [2] }

def emptyNode : Node := { chain := { startingBlock := 1 } }

theorem begins_emptyNode : Begins 1 emptyNode := ⟨rfl, ⟨rfl, rfl, rfl⟩, rfl, rfl⟩

/-- Three blocks in a row. -/
def threeBlocks : List FullBlock := [bareBlock genesis, bareBlock second, bareBlock onSecond]

theorem succession_threeBlocks : Succession runtime 1 threeBlocks where
  heights := by
    intro index block present
    match index with
    | 0 => cases present; rfl
    | 1 => cases present; rfl
    | 2 => cases present; rfl
    | index + 3 => cases present
  parents := by
    intro index pre block first second
    match index with
    | 0 => cases first; cases second; rfl
    | 1 => cases first; cases second; rfl
    | index + 2 => cases second
  bare := by decide
  tx := by decide
  hashes := by decide
  reserved := by decide
  inputs := by simp [threeBlocks, bareBlock]
  apart := by simp [threeBlocks, bareBlock]
  ids := by simp [threeBlocks, bareBlock]

end Sample

/-- Three blocks in a row are saved, and two of them are loaded. -/
theorem restored_broken : ∃ (first saved restart : Node) (genesis : FullBlock) (rest : List FullBlock),
    Begins 1 first ∧ Succession Sample.runtime 1 (genesis :: rest) ∧
      saveAll Sample.runtime Sample.twoKeys first (genesis :: rest) = some saved ∧ Restarted saved restart ∧
        ∀ fuel, ¬ Restored Sample.runtime Sample.twoKeys (fuel + 1) saved restart (genesis :: rest) := by
  obtain ⟨saved, ran⟩ := @saveAll_bare Sample.runtime Sample.twoKeys 1 Sample.threeBlocks _ Sample.begins_emptyNode rfl
    Sample.succession_threeBlocks (by simp [Sample.threeBlocks, Sample.bareBlock])
  have restarted : Restarted saved { db := saved.db } := ⟨rfl, ⟨rfl, rfl, rfl⟩, rfl⟩
  refine ⟨Sample.emptyNode, saved, { db := saved.db }, _, _, Sample.begins_emptyNode, Sample.succession_threeBlocks,
    ran, restarted, fun fuel restored => ?_⟩
  have enough := (restored_iff_reach Sample.succession_threeBlocks
    (took_of_saveAll Sample.begins_emptyNode Sample.succession_threeBlocks ran) restarted fuel).mp restored
  exact absurd enough (by decide)

/-- Two blocks are rebuilt. -/
theorem restored_iff_twice : ∃ (saved restart : Node),
    saveAll Sample.runtime Sample.twoKeys Sample.emptyNode [Sample.bareBlock Sample.genesis,
      Sample.bareBlock Sample.second] =
        some saved ∧
      ∀ fuel, Restored Sample.runtime Sample.twoKeys (fuel + 1) saved restart
        [Sample.bareBlock Sample.genesis, Sample.bareBlock Sample.second] := by
  have succession : Succession Sample.runtime 1 [Sample.bareBlock Sample.genesis, Sample.bareBlock Sample.second] :=
    @Succession.left _ _ _ [Sample.bareBlock Sample.onSecond] Sample.succession_threeBlocks
  obtain ⟨saved, ran⟩ := @saveAll_bare Sample.runtime Sample.twoKeys 1 _ _ Sample.begins_emptyNode rfl succession
    (by simp [Sample.bareBlock])
  have restarted : Restarted saved { db := saved.db } := ⟨rfl, ⟨rfl, rfl, rfl⟩, rfl⟩
  exact ⟨saved, { db := saved.db }, ran, fun fuel =>
    (restored_iff Sample.begins_emptyNode succession ran restarted fuel).mpr (.inr ⟨rfl, by decide⟩)⟩

end PolarCloud.Mining
