import Mathlib.Data.List.Chain
import PolarCloud.Proofs.Mining.Handed
import PolarCloud.Proofs.Mining.ForkChoice

/-! # The hash links of the chain in memory

`addBlock` compares heights only, so a block may be linked behind one that is not its parent. The
chain stays hash linked in every run in which each block that is accepted names the last one, and
no header with another parent is saved under the id of a block on the chain.
-/

namespace PolarCloud.Mining

open Keystore

/-- The parent named by the header that is read under a key. -/
def parentOf (rt : Runtime) (db : Db) (id : Bytes) : Option Bytes :=
  ((db.find id).bind (parseBlockHead rt)).map BlockHead.previousblockhash

/-- The stored header of every block behind the first one names the block before it. -/
def HashLinked (rt : Runtime) (node : Node) : Prop :=
  ∀ index block, node.chain.onChain[index + 1]? = some block →
    ∃ ref preBlock, block.preBlock = some ref ∧ node.chain.blocks[ref]? = some preBlock ∧
      parentOf rt node.db block.id = some preBlock.id

/-- A block that the chain accepts names the last block as its parent. -/
def Follows (rt : Runtime) (node : Node) (event : ChainEvent) : Prop :=
  ∀ bh txs, event.handed? rt node = some (bh, txs) → node.chain.Accepts bh →
    ∀ last, node.chain.getLastBlock = some last → bh.previousblockhash = last.id

/-- What an event saves leaves the parents of the blocks behind the first one as they are: no
transaction is saved under the id of such a block, a header saved there names the parent that is
stored, and the reserved key is not used for a block. -/
def KeepsParents (rt : Runtime) (node : Node) : ChainEvent → Prop
  | .block event => ∀ message, event.message? rt node.db = some message →
      (∀ tx ∈ message.txs, (∀ block ∈ node.chain.onChain.tail, block.id ≠ tx.id rt) ∧
        (tx.Spends → ∀ vin ∈ tx.getVin, vin.txid ≠ Config.keyBlockStart)) ∧
      ∀ bh, message.bh = some bh → (event.savedWith rt node).isSome →
        bh.hash ≠ Config.keyBlockStart ∧ (event.Amends node bh → bh.previousblockhash ≠ Config.keyBlockStart) ∧
          ∀ block ∈ node.chain.onChain.tail, block.id = bh.hash →
            parentOf rt node.db block.id = some bh.previousblockhash
  | .load bhash => bhash ≠ Config.keyBlockStart
  | .start _ => True

/-- One event that keeps the links. -/
def FollowStep (rt : Runtime) (wallet : Wallet) (node next : Node) : Prop :=
  ∃ event, Follows rt node event ∧ KeepsParents rt node event ∧ next = handleChain rt wallet node event

/-- One event, whatever it brings. -/
def ChainStep (rt : Runtime) (wallet : Wallet) (node next : Node) : Prop :=
  ∃ event, next = handleChain rt wallet node event

/-! ## Loading is a run of such events -/

section Load

variable {rt : Runtime} {wallet : Wallet}

private theorem loadEach_run {load : Node → Bytes → Option (Node × Exit)}
    (single : ∀ node bhash next exit, load node bhash = some (next, exit) →
      Relation.ReflTransGen (ChainStep rt wallet) node next)
    {hashes : List Bytes} {node next : Node} {exit : Exit} (ran : loadEach load hashes node = some (next, exit)) :
    Relation.ReflTransGen (ChainStep rt wallet) node next := by
  induction hashes generalizing node with
  | nil =>
    cases ran
    exact .refl
  | cons one rest ih =>
    rw [loadEach] at ran
    split at ran
    · next middle first => exact (single node one middle .next first).trans (ih ran)
    · exact single node one next exit ran

/-- The load at start-up is a run of loads of one block. -/
theorem loadBlockChain_run {fuel : ℕ} {node next : Node} {result : Result Unit}
    (ran : loadBlockChain rt wallet fuel node = some (next, result)) :
    Relation.ReflTransGen (ChainStep rt wallet) node next := by
  have one (node : Node) (bhash : Bytes) :
      ChainStep rt wallet node (loadBlockForDB rt wallet node bhash).1 := ⟨.load bhash, rfl⟩
  have single (node : Node) (bhash : Bytes) (next : Node) (exit : Exit)
      (ran : deepCycleLoadBlock rt wallet fuel node bhash = some (next, exit)) :
      Relation.ReflTransGen (ChainStep rt wallet) node next := by
    cases fuel with
    | zero => cases ran
    | succ fuel =>
      have step := one node bhash
      rw [deepCycleLoadBlock_succ] at ran
      split at ran
      · next load =>
        cases ran
        rw [load] at step
        exact .single step
      · next load =>
        cases ran
        rw [load] at step
        exact .single step
  unfold loadBlockChain at ran
  split at ran
  · cases ran
    exact .refl
  · next headid present =>
    have step := one node headid.bytes
    split at ran
    · next load =>
      cases ran
      rw [load] at step
      exact .single step
    · next load =>
      cases ran
      rw [load] at step
      exact .single step
    · next first bh load =>
      rw [load] at step
      have started : ChainStep rt wallet first
        { first with chain := { first.chain with startingBlock := bh.height } } :=
        ⟨.start bh.height, rfl⟩
      dsimp only at ran
      split at ran
      · cases ran
      · next loads =>
        cases ran
        exact ((Relation.ReflTransGen.single step).tail started).trans (loadEach_run single loads)
      · next loads =>
        cases ran
        exact ((Relation.ReflTransGen.single step).tail started).trans (loadEach_run single loads)

end Load

/-! ## The parents that are read -/

section Parents

variable {rt : Runtime} {db : Db}

theorem parentOf_of_find {id : Bytes} {value : Value} {bh : BlockHead} (present : db.find id = some value)
    (read : parseBlockHead rt value = some bh) : parentOf rt db id = some bh.previousblockhash := by
  rw [parentOf, present, Option.bind_some, read, Option.map_some]

theorem parentOf_save_ne {id key : Bytes} (value : Value) (ne : id ≠ key) :
    parentOf rt (db.save key value) id = parentOf rt db id := by
  rw [parentOf, Db.find_save_ne _ _ ne, parentOf]

theorem parentOf_save_head (key : Bytes) (bh : BlockHead) :
    parentOf rt (db.save key bh.json) key = some bh.previousblockhash :=
  parentOf_of_find (Db.find_save_self ..) (BlockHead.parse_json rt bh)

theorem parentOf_saveHead {id : Bytes} {bh : BlockHead} (first : Bool) (ne : id ≠ Config.keyBlockStart) :
    parentOf rt (Db.saveHead db bh first) id = if id = bh.hash then some bh.previousblockhash else
      parentOf rt db id := by
  have saved : parentOf rt (db.save bh.hash bh.json) id =
      if id = bh.hash then some bh.previousblockhash else parentOf rt db id := by
    split
    · next same => rw [same, parentOf_save_head]
    · next other => exact parentOf_save_ne _ other
  unfold Db.saveHead
  dsimp only
  split
  · rw [parentOf_save_ne _ ne, saved]
  · exact saved

/-- Marking an output changes no parent. -/
private theorem parentOf_mark (filed : AllFiled db) {key : Bytes} {value : Value} {spent : TxItr} {index : UInt64}
    {txid : Bytes} (reserved : key ≠ Config.keyBlockStart) (present : db.find key = some value)
    (read : parseTxBase rt value = some spent) (outputs : spent.getVout ≠ []) (id : Bytes) :
    parentOf rt (db.save spent.getHash (spent.marked index txid).json) id = parentOf rt db id := by
  obtain ⟨-, rfl, rfl⟩ := ((filed _ _ present).read_tx read outputs).resolve_right reserved
  by_cases same : id = spent.getHash
  · rw [same, parentOf_of_find (Db.find_save_self ..) (parseBlockHead_tx rt _),
      parentOf_of_find present (parseBlockHead_tx rt _)]
    rfl
  · exact parentOf_save_ne _ same

/-- Saving transactions changes no parent but those under their own ids. -/
theorem parentOf_saveTxs (filed : AllFiled db) (skip : Bool) {txs : List TxItr} (typed : ∀ tx ∈ txs, tx.Typed)
    (reserved : ∀ tx ∈ txs, tx.Spends → ∀ vin ∈ tx.getVin, vin.txid ≠ Config.keyBlockStart)
    {id : Bytes} (apart : ∀ tx ∈ txs, id ≠ tx.id rt) :
    parentOf rt (saveTxs rt skip txs db).1 id = parentOf rt db id := by
  have kept := @saveTxs_keeps rt skip txs (fun now => AllFiled now ∧ parentOf rt now id = parentOf rt db id)
    ?_ ?_ db ⟨filed, rfl⟩
  · exact kept.2
  · rintro tx member now ⟨filed, same⟩
    have new := Filed.tx (tx.buildHash rt) ((typed tx member).buildHash)
    rw [TxItr.getHash_buildHash] at new
    exact ⟨filed.save new, by rw [parentOf_save_ne _ (apart tx member), same]⟩
  · rintro tx member spends two input now value spent ⟨filed, same⟩ present read inside
    have outputs : spent.getVout ≠ [] := List.length_pos_iff.mp (by omega)
    have new := Filed.tx (spent.marked two.vout (tx.id rt)) ((TxItr.typed_of_parse read).marked _ _)
    rw [TxItr.getHash_marked] at new
    exact ⟨filed.save new,
      by rw [parentOf_mark filed (reserved tx member spends two input) present read outputs, same]⟩

/-- Amending a parent changes no parent. -/
theorem parentOf_amend (filed : AllFiled db) {key : Bytes} {next : Option Bytes} {value : Value} {parent : BlockHead}
    (reserved : key ≠ Config.keyBlockStart) (present : db.find key = some value)
    (read : parseBlockHead rt value = some parent) (id : Bytes) :
    parentOf rt (db.save parent.hash (parent.addNext next).json) id = parentOf rt db id := by
  have own : parent.hash = key := by
    rcases (filed _ _ present).read_head read with ⟨-, own⟩ | ⟨-, -, -, -, only⟩ | clash
    · exact own
    · exact only.2
    · exact absurd clash reserved
  rw [own]
  by_cases same : id = key
  · rw [same, parentOf_save_head, parentOf_of_find present read]
    rfl
  · exact parentOf_save_ne _ same

end Parents

/-! ## The links of a run -/

section Step

variable {rt : Runtime} {wallet : Wallet} {node : Node}

/-- The ids of the blocks on the chain, from the first to the last. -/
def Chain.ids (chain : Chain) : List Bytes := chain.labels.map Prod.fst

theorem Chain.ids_eq (chain : Chain) : chain.ids = chain.blocks.map Block.id := by
  rw [ids, labels, List.map_map]
  rfl

/-- What holds in every state that is reached. -/
structure Anchored (rt : Runtime) (node : Node) : Prop where
  filed : AllFiled node.db
  linked : node.chain.Linked
  reserved : Config.keyBlockStart ∉ node.chain.ids
  follows : List.IsChain (fun pre id => parentOf rt node.db id = some pre) node.chain.ids

/-- On a linked chain the block before another one is the one before it in the list of ids. -/
theorem hashLinked_iff (linked : node.chain.Linked) :
    HashLinked rt node ↔ List.IsChain (fun pre id => parentOf rt node.db id = some pre) node.chain.ids := by
  rw [Chain.ids_eq, List.isChain_iff_getElem, HashLinked, linked.onChain_eq]
  constructor
  · intro hashLinked index inside
    rw [List.length_map] at inside
    obtain ⟨ref, preBlock, link, present, parent⟩ := hashLinked index _ (List.getElem?_eq_getElem inside)
    rw [linked.blocks.pre_eq _ _ (List.getElem?_eq_getElem inside)] at link
    obtain rfl : index = ref := by simpa using link
    obtain ⟨_, rfl⟩ := List.getElem?_eq_some_iff.mp present
    simpa only [List.getElem_map] using parent
  · intro follows index block present
    obtain ⟨inside, rfl⟩ := List.getElem?_eq_some_iff.mp present
    have pair := follows index (by rwa [List.length_map])
    refine ⟨index, node.chain.blocks[index], ?_, List.getElem?_eq_getElem _, ?_⟩
    · rw [linked.blocks.pre_eq _ _ present]
      rfl
    · simpa only [List.getElem_map] using pair

private theorem handed_block {event : Event} {bh : BlockHead} {txs : List TxItr}
    (handed : ChainEvent.handed? rt node (.block event) = some (bh, txs)) :
    (event.savedWith rt node).isSome ∧ ∃ txs, event.message? rt node.db = some ⟨some bh, txs⟩ := by
  cases event with
  | save bhvo =>
    obtain ⟨head, present, handed⟩ := Option.bind_eq_some_iff.mp handed
    split at handed
    · next saved =>
      cases handed
      exact ⟨saved, bhvo.txs, by simp only [Event.message?, present]⟩
    · cases handed
  | sync neighbour bhash => cases handed

private theorem read_loaded (filed : AllFiled node.db) {bhash : Bytes} (reserved : bhash ≠ Config.keyBlockStart)
    {bh : BlockHead} {txs : List TxItr} (loaded : loaded? rt node.db bhash = some (bh, txs)) :
    bh.hash = bhash ∧ parentOf rt node.db bhash = some bh.previousblockhash := by
  simp only [loaded?, Option.bind_eq_bind, Option.bind_eq_some_iff] at loaded
  obtain ⟨value, present, hB, read, _, -, _, -, same⟩ := loaded
  cases same
  refine ⟨?_, parentOf_of_find present read⟩
  rcases (filed _ _ present).read_head read with ⟨-, own⟩ | ⟨-, -, -, -, only⟩ | clash
  · exact own
  · exact only.2
  · exact absurd clash reserved

theorem loadBlockForDB_db (bhash : Bytes) : (loadBlockForDB rt wallet node bhash).1.db = node.db := by
  rcases @loadBlockForDB_cases rt wallet node bhash with ⟨-, same⟩ | ⟨bh, txs, -, loaded⟩
  · rw [same]
  · rw [loaded]
    split
    · rfl
    · next ran => exact addBlock_db ran

/-- The parents after a block event that keeps them. -/
private theorem parents_after_block (filed : AllFiled node.db) {event : Event}
    (kept : KeepsParents rt node (.block event)) :
    (∀ block ∈ node.chain.onChain.tail, block.id ≠ Config.keyBlockStart →
        parentOf rt (handle rt wallet node event).db block.id = parentOf rt node.db block.id) ∧
      ∀ bh txs, ChainEvent.handed? rt node (.block event) = some (bh, txs) → bh.hash ≠ Config.keyBlockStart ∧
        parentOf rt (handle rt wallet node event).db bh.hash = some bh.previousblockhash := by
  rcases @handle_db rt wallet node event with ⟨none, same⟩ | ⟨⟨head, txs⟩, brought, imported⟩
  · rw [same]
    refine ⟨fun _ _ _ => rfl, fun bh txs handed => ?_⟩
    obtain ⟨-, _, brought⟩ := handed_block handed
    cases none.symm.trans brought
  · obtain ⟨keptTxs, keptHead⟩ := kept _ brought
    have typed := Event.typed_of_message brought
    have filedTxs : AllFiled (saveTxs rt event.skip txs node.db).1 := filed.after_saveTxs typed
    have sameTxs (block : Block) (member : block ∈ node.chain.onChain.tail) :
        parentOf rt (saveTxs rt event.skip txs node.db).1 block.id = parentOf rt node.db block.id :=
      parentOf_saveTxs filed event.skip typed (fun tx member => (keptTxs tx member).2)
        fun tx there => (keptTxs tx there).1 block member
    have handedHead {bh : BlockHead} {txs' : List TxItr}
        (handed : ChainEvent.handed? rt node (.block event) = some (bh, txs')) : head = some bh := by
      obtain ⟨-, _, brought'⟩ := handed_block handed
      cases brought.symm.trans brought'
      rfl
    generalize (handle rt wallet node event).db = next at imported ⊢
    cases imported with
    | stopped unsaved =>
      refine ⟨fun block member _ => sameTxs block member, fun bh txs handed => ?_⟩
      have saved := (handed_block handed).1
      rw [unsaved brought] at saved
      cases saved
    | plain bh isHead due ran =>
      subst isHead
      obtain ⟨reserved, -, sameParent⟩ := keptHead bh rfl (by rw [Event.savedWith_plain brought due ran]; rfl)
      constructor
      · intro block member ne
        rw [parentOf_saveHead _ ne]
        split
        · next same => rw [sameParent block member same]
        · exact sameTxs block member
      · intro other txs handed
        obtain rfl := Option.some.inj (handedHead handed)
        exact ⟨reserved, by rw [parentOf_saveHead _ reserved, if_pos rfl]⟩
    | amended bh isHead due value parent ran present read =>
      subst isHead
      obtain ⟨reserved, reservedParent, sameParent⟩ :=
        keptHead bh rfl (by rw [Event.savedWith_amended brought ran present read]; rfl)
      constructor
      · intro block member ne
        rw [parentOf_saveHead _ ne]
        split
        · next same => rw [sameParent block member same]
        · rw [parentOf_amend filedTxs (reservedParent due) present read]
          exact sameTxs block member
      · intro other txs handed
        obtain rfl := Option.some.inj (handedHead handed)
        exact ⟨reserved, by rw [parentOf_saveHead _ reserved, if_pos rfl]⟩

/-- The parents after an event that keeps them: those of the blocks behind the first one are as
before, and a block that was handed over is read with its own parent. -/
private theorem parents_after (filed : AllFiled node.db) {event : ChainEvent} (kept : KeepsParents rt node event) :
    (∀ block ∈ node.chain.onChain.tail, block.id ≠ Config.keyBlockStart →
        parentOf rt (handleChain rt wallet node event).db block.id = parentOf rt node.db block.id) ∧
      ∀ bh txs, event.handed? rt node = some (bh, txs) → bh.hash ≠ Config.keyBlockStart ∧
        parentOf rt (handleChain rt wallet node event).db bh.hash = some bh.previousblockhash := by
  cases event with
  | start height => exact ⟨fun _ _ _ => rfl, fun bh txs handed => by cases handed⟩
  | load bhash =>
    rw [handleChain, loadBlockForDB_db]
    refine ⟨fun _ _ _ => rfl, fun bh txs handed => ?_⟩
    obtain ⟨rfl, parent⟩ := read_loaded filed kept handed
    exact ⟨kept, parent⟩
  | block event => exact parents_after_block filed kept

/-- One event that keeps the links anchors the chain as before. -/
theorem Anchored.step (anchored : Anchored rt node) {event : ChainEvent} (follows : Follows rt node event)
    (kept : KeepsParents rt node event) : Anchored rt (handleChain rt wallet node event) := by
  obtain ⟨sameParents, ownParent⟩ := @parents_after rt wallet node anchored.filed event kept
  have filed : AllFiled (handleChain rt wallet node event).db := by
    cases event with
    | block event => exact anchored.filed.after_handle event
    | load bhash => rw [handleChain, loadBlockForDB_db]; exact anchored.filed
    | start height => exact anchored.filed
  obtain ⟨exit, hands⟩ := @handleChain_handed rt wallet node event
  obtain ⟨linked, effect⟩ := hands.effect anchored.linked
  have before : List.IsChain (fun pre id => parentOf rt (handleChain rt wallet node event).db id = some pre)
      node.chain.ids := by
    refine anchored.follows.imp_of_mem_tail_imp fun pre id _ member parent => ?_
    have reserved : id ≠ Config.keyBlockStart := fun same => anchored.reserved (same ▸ List.mem_of_mem_tail member)
    rw [Chain.ids_eq, ← List.map_tail, List.mem_map] at member
    obtain ⟨block, member, rfl⟩ := member
    rw [← anchored.linked.onChain_eq] at member
    rw [sameParents block member reserved, parent]
  have unchanged (labels : (handleChain rt wallet node event).chain.labels = node.chain.labels) :
      Anchored rt (handleChain rt wallet node event) := by
    have ids : (handleChain rt wallet node event).chain.ids = node.chain.ids := by
      rw [Chain.ids, labels, Chain.ids]
    exact ⟨filed, linked, by rw [ids]; exact anchored.reserved, by rw [ids]; exact before⟩
  cases effect with
  | same labels => exact unchanged labels
  | refused bh txs handed refused labels => exact unchanged labels
  | linked bh txs handed accepted labels =>
    have ids : (handleChain rt wallet node event).chain.ids = node.chain.ids ++ [bh.hash] := by
      rw [Chain.ids, labels, List.map_append, Chain.ids]
      rfl
    obtain ⟨reserved, parent⟩ := ownParent bh txs handed
    refine ⟨filed, linked, ?_, ?_⟩
    · rw [ids, List.mem_append, List.mem_singleton]
      exact fun here => here.elim anchored.reserved fun same => reserved same.symm
    · rw [ids, List.isChain_append]
      refine ⟨before, List.IsChain.singleton _, fun pre last id isNew => ?_⟩
      obtain rfl : bh.hash = id := by simpa using isNew
      rw [Chain.ids_eq, List.getLast?_map, ← anchored.linked.getLastBlock_eq] at last
      obtain ⟨block, isLast, rfl⟩ := Option.map_eq_some_iff.mp last
      rw [parent, follows bh txs handed accepted block isLast]

end Step

/-- In every run of such events from an empty chain, every block behind the first one was built on
the block before it. -/
theorem hashLinked_of_follows {rt : Runtime} {wallet : Wallet} {start node : Node} (filed : AllFiled start.db)
    (fresh : start.chain.Fresh) (reached : Relation.ReflTransGen (FollowStep rt wallet) start node) :
    HashLinked rt node := by
  suffices anchored : Anchored rt node from (hashLinked_iff anchored.linked).mpr anchored.follows
  induction reached with
  | refl =>
    have ids : start.chain.ids = [] := by rw [Chain.ids_eq, fresh.blocks, List.map_nil]
    exact ⟨filed, fresh.linked, by rw [ids]; exact List.not_mem_nil, by rw [ids]; exact List.IsChain.nil⟩
  | tail _ step ih =>
    obtain ⟨event, follows, kept, rfl⟩ := step
    exact ih.step follows kept

/-! ## Two branches spliced -/

namespace Sample

/-- At start-up, with a first block in the database. -/
def atStart : Node := { db := genesisDb genesis }

/-- The first block is loaded and its height becomes the first one. -/
def afterLoad : Node :=
  handleChain runtime twoKeys (handleChain runtime twoKeys atStart (.load [1])) (.start 1)

theorem loaded?_genesis : loaded? runtime atStart.db [1] = some (genesis, []) := by
  have found : atStart.db.find [1] = some genesis.json := rfl
  simp only [loaded?, found, Option.bind_eq_bind, Option.bind_some, BlockHead.parse_json]
  rfl

theorem afterLoad_chain : afterLoad.chain.Linked ∧ afterLoad.chain.labels = [([1], 1, [])] := by
  have fresh : atStart.chain.Fresh := ⟨rfl, rfl, rfl⟩
  obtain ⟨exit, loads⟩ := @handleChain_handed runtime twoKeys atStart (.load [1])
  rw [ChainEvent.handed?, loaded?_genesis] at loads
  obtain ⟨-, linked, -, labels⟩ := loads.effect_of_noDeposit fresh.linked rfl (by simp)
  rw [if_pos (by intro last none; cases none)] at labels
  exact ⟨⟨linked.blocks, linked.groups, linked.group, linked.pieces, linked.nonempty, linked.owner⟩, labels⟩

theorem afterLoad_db : afterLoad.db = genesisDb genesis := @loadBlockForDB_db runtime twoKeys atStart [1]

/-- A bare block whose stored parent is amended: the database and the links after it. -/
theorem saved_linked {node : Node} {bh parent : BlockHead} (linked : node.chain.Linked)
    (starting : node.chain.startingBlock = 1) (high : 1 < bh.height)
    (held : Stored node.db bh.previousblockhash parent) :
    ∃ next, next = handleChain runtime twoKeys node (.block (.save (bare bh))) ∧ next.chain.startingBlock = 1 ∧
      next.db = Db.saveHead (node.db.save parent.hash (parent.addNext bh.hash?).json) bh false ∧
        next.chain.Linked ∧ next.chain.labels =
          if node.chain.Accepts bh then node.chain.labels ++ [(bh.hash, bh.height, [])] else node.chain.labels := by
  obtain ⟨next, isNext, starting', db⟩ :=
    @saved_amended runtime twoKeys node _ (bare bh) bh parent starting rfl high rfl held
  have hands := @saveBlockHead_handed runtime twoKeys node (bare bh)
  have saved := @Event.savedWith_amended runtime node (.save (bare bh)) bh parent [] _ rfl rfl held
    (BlockHead.parse_json runtime parent)
  have handed : ChainEvent.handed? runtime node (.block (.save (bare bh))) = some (bh, []) := by
    rw [handed?_save (show (bare bh).bh = some bh from rfl), saved]
    rfl
  rw [handed] at hands
  obtain ⟨-, linked', -, labels⟩ := hands.effect_of_noDeposit linked rfl (by simp)
  exact ⟨next, isNext, starting', db, isNext ▸ linked', isNext ▸ labels⟩

end Sample

/-- The third block is linked behind the first successor, though it was built on the rival. -/
theorem hashLinked_broken : ∃ (start node : Node), AllFiled start.db ∧ start.chain.Fresh ∧
    Relation.ReflTransGen (ChainStep Sample.runtime Sample.twoKeys) start node ∧
      ¬ HashLinked Sample.runtime node := by
  obtain ⟨linked, labels⟩ := Sample.afterLoad_chain
  obtain ⟨one, stepOne, startOne, dbOne, linkedOne, labelsOne⟩ :=
    @Sample.saved_linked _ Sample.second Sample.genesis linked rfl (by decide) (by rw [Sample.afterLoad_db]; rfl)
  rw [if_pos (by rw [linked.accepts_iff, labels]; decide), labels] at labelsOne
  obtain ⟨two, stepTwo, startTwo, dbTwo, linkedTwo, labelsTwo⟩ :=
    @Sample.saved_linked one Sample.rival (Sample.genesis.addNext (some [2])) linkedOne startOne (by decide)
      (by rw [dbOne, Sample.afterLoad_db]; rfl)
  rw [if_neg (by rw [linkedOne.accepts_iff, labelsOne]; decide), labelsOne] at labelsTwo
  obtain ⟨three, stepThree, -, dbThree, linkedThree, labelsThree⟩ :=
    @Sample.saved_linked two Sample.third Sample.rival linkedTwo startTwo (by decide)
      (by rw [dbTwo, dbOne, Sample.afterLoad_db]; rfl)
  rw [if_pos (by rw [linkedTwo.accepts_iff, labelsTwo]; decide), labelsTwo] at labelsThree
  refine ⟨Sample.atStart, three, allFiled_empty.after_saveHead Sample.genesis true, ⟨rfl, rfl, rfl⟩, ?_, ?_⟩
  · refine .tail (.tail (.tail (.tail (.single ⟨.load [1], rfl⟩) ⟨.start 1, rfl⟩) ⟨_, stepOne⟩) ⟨_, stepTwo⟩)
      ⟨_, stepThree⟩
  · rw [hashLinked_iff linkedThree, Chain.ids, labelsThree]
    intro follows
    have parent : parentOf Sample.runtime three.db [4] = some [2] := follows.getElem 1 (by decide)
    rw [dbThree, parentOf_saveHead false (by decide), if_pos (by decide)] at parent
    exact absurd parent (by decide)

/-- A run that follows: a first block is loaded, and the block on top of it arrives. -/
theorem hashLinked_of_follows_once :
    HashLinked Sample.runtime (handleChain Sample.runtime Sample.twoKeys Sample.afterLoad
      (.block (.save (Sample.bare Sample.second)))) := by
  obtain ⟨linked, labels⟩ := Sample.afterLoad_chain
  have one : Sample.afterLoad.chain.onChain.length = 1 := by
    rw [linked.onChain_eq, ← List.length_map Block.label]
    exact congrArg List.length labels
  have load : FollowStep Sample.runtime Sample.twoKeys Sample.atStart _ :=
    ⟨.load [1], (fun bh txs handed accepted last isLast => nomatch isLast), (by decide : _ ≠ _), rfl⟩
  have start : FollowStep Sample.runtime Sample.twoKeys _ Sample.afterLoad :=
    ⟨.start 1, (fun bh txs handed => nomatch handed), trivial, rfl⟩
  have follows : Follows Sample.runtime Sample.afterLoad (.block (.save (Sample.bare Sample.second))) := by
    intro bh txs handed accepted last isLast
    obtain ⟨-, _, brought⟩ := handed_block handed
    cases brought
    rw [linked.getLastBlock_eq] at isLast
    have label : some last.label = some ([1], 1, []) := by
      rw [← Option.map_some, ← isLast, ← List.getLast?_map]
      exact congrArg List.getLast? labels
    exact (congrArg Prod.fst (Option.some.inj label)).symm
  have keeps : KeepsParents Sample.runtime Sample.afterLoad (.block (.save (Sample.bare Sample.second))) := by
    intro message brought
    cases brought
    refine ⟨(fun tx member => nomatch member), fun bh head saved => ?_⟩
    cases head
    refine ⟨by decide, fun _ => by decide, fun block member => ?_⟩
    have none : Sample.afterLoad.chain.onChain.tail = [] :=
      List.eq_nil_of_length_eq_zero (by rw [List.length_tail, one])
    rw [none] at member
    cases member
  have filed : AllFiled Sample.atStart.db := allFiled_empty.after_saveHead Sample.genesis true
  exact hashLinked_of_follows filed ⟨rfl, rfl, rfl⟩ (((Relation.ReflTransGen.single load).tail start).tail
    ⟨_, follows, keeps, rfl⟩)

end PolarCloud.Mining
