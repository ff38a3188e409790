import PolarCloud.Proofs.Mining.Counters
import PolarCloud.Proofs.Mining.Survival

/-! # The two imports side by side

A block that is broadcast and a block that is synchronised leave the same records as long as both
imports amend the parent, or neither does. Only the broadcast reaches the chain in memory, its
balances and its height, so the imports agree exactly where it finds nothing to do there.
-/

namespace PolarCloud.Mining

open Keystore

/-- A well-formed block on top of a stored one, with what it spends stored. -/
structure NextBlock (rt : Runtime) (node : Node) (bh : BlockHead) (txs : List TxItr) : Prop where
  checked : bh.check rt = true
  lists : bh.tx = txs.map (·.id rt)
  filled : DepositsFilled txs
  parent : ∃ parent, Stored node.db bh.previousblockhash parent ∧ bh.height.toNat = parent.height.toNat + 1
  spends : ∀ tx ∈ txs, tx.Spends → ∀ two ∈ tx.getVin, ∃ spent, StoredTx node.db two.txid spent ∧
    two.vout.toNat < spent.getVout.length

/-- Both imports complete or neither does, with the same database, links, balances and height. -/
structure ImportsAgree (saved : Node × Exit) (synced : Node × Result BlockHead) : Prop where
  ends : saved.2 = .next ↔ ∃ bh, synced.2 = .ok bh
  db : saved.1.db = synced.1.db
  blocks : saved.1.chain.blocks = synced.1.chain.blocks
  groups : saved.1.chain.groups = synced.1.chain.groups
  balance : saved.1.balanceM.balance = synced.1.balanceM.balance
  currentBlock : saved.1.chain.currentBlock = synced.1.chain.currentBlock

section Conditions

variable (rt : Runtime) (wallet : Wallet) (node : Node) (bh : BlockHead) (txs : List TxItr)

/-- The broadcast finds nothing to do in memory: the chain refuses the block, what it pays and spends
is counted already, and its height is not the next one. -/
structure Unnoticed : Prop where
  coinbase : wallet.coinbase.isSome
  refused : ¬ node.chain.Accepts bh
  counted : Repeats node.balanceM.balance (blockWrites rt wallet (txs.map (·.buildHash rt)))
  height : node.chain.currentBlock + 1 ≠ bh.height

/-- What a broadcast writes that amends no parent. -/
def plainLog : List Record :=
  (runJobs rt true (txJobs rt txs) node.db).1 ++ (bh.hash, some bh.json) ::
    if bh.height = node.chain.startingBlock then [(Config.keyBlockStart, some (.raw bh.hash))] else []

/-- For a block that is not stored: its transactions cannot be saved to the end, or the broadcast finds
nothing to do in memory and both imports amend the parent or neither does. -/
def SameWhenNew : Prop :=
  AllPass rt (txJobs rt txs) (outlines rt node.db) →
    Unnoticed rt wallet node bh txs ∧ (amendDue node.chain bh ↔ 0 < node.chain.startingBlock)

/-- For a block that is stored, which a synchronisation leaves alone: the broadcast finds nothing to do
in memory either, amends no parent, and repeats what is stored. -/
def SameWhenStored : Prop :=
  AllPass rt (txJobs rt txs) (outlines rt node.db) ∧ Unnoticed rt wallet node bh txs ∧ ¬ amendDue node.chain bh ∧
    ∀ key value, lastWrite (plainLog rt node bh txs) key = some value → node.db.load key = value

/-- The block can be read from the database. -/
def Known : Prop := ((node.db.find bh.hash).bind (parseBlockHead rt)).isSome

end Conditions

section Imports

variable {rt : Runtime} {wallet : Wallet} {node : Node} {bh : BlockHead} {txs : List TxItr}

/-! ## The loop over the transactions -/

/-- Where nothing that is spent is missing, passing over what is missing makes no difference. -/
theorem runJobs_skip {jobs : List Job} {db : Db}
    (present : ∀ txid two, Job.mark txid two ∈ jobs → (db.find two.txid).isSome) :
    runJobs rt false jobs db = runJobs rt true jobs db := by
  induction jobs generalizing db with
  | nil => rfl
  | cons job rest ih =>
    have same : job.write rt false db = job.write rt true db := by
      cases job with
      | save tx => rfl
      | mark txid two =>
        obtain ⟨value, found⟩ := Option.isSome_iff_exists.mp (present txid two List.mem_cons_self)
        simp only [Job.write, found]
    cases wrote : job.write rt true db with
    | error exit => rw [runJobs_error (same.trans wrote), runJobs_error wrote]
    | ok written =>
        -- what is there is never deleted
      have kept (txid : Bytes) (two : Vin) (member : Job.mark txid two ∈ rest) :
          (Db.find (db.replay written) two.txid).isSome := by
        have before := present txid two (List.mem_cons_of_mem _ member)
        change ((db.replay written).load two.txid).isSome
        rw [SyncMap.load_replay]
        cases last : lastWrite written two.txid with
        | none => exact before
        | some value => exact Job.isSome_of_write wrote (mem_of_lastWrite last)
      rw [runJobs_ok (same.trans wrote), runJobs_ok wrote, ih kept]

theorem saveTxs_skip (next : NextBlock rt node bh txs) : saveTxs rt false txs node.db = saveTxs rt true txs node.db := by
  rw [saveTxs_eq, saveTxs_eq, runJobs_skip]
  intro txid two member
  obtain ⟨tx, inside, member⟩ := List.mem_flatMap.mp member
  rcases List.mem_cons.mp member with clash | member
  · cases clash
  · split at member
    · next spends =>
      obtain ⟨vin, input, same⟩ := List.mem_map.mp member
      cases same
      obtain ⟨spent, stored, -⟩ := next.spends tx inside spends two input
      rw [stored.2]
      rfl
    · cases member

/-- What stands under the key of the parent once the transactions are saved: the parent, or one of them. -/
structure ParentAfter (rt : Runtime) (db : Db) (key : Bytes) (parent : BlockHead) (value : Value) (p : BlockHead) :
    Prop where
  present : db.find key = some value
  read : parseBlockHead rt value = some p
  own : p.hash = key
  origin : (value = parent.json ∧ p = parent) ∨ (∃ tx : TxItr, value = tx.json) ∧ p.OnlyHash key

theorem parent_after {skip : Bool} {db : Db} {key : Bytes} {parent : BlockHead} (stored : Stored db key parent)
    (own : parent.hash = key) :
    ∃ value p, ParentAfter rt (saveTxs rt skip txs db).1 key parent value p := by
  have kept := @saveTxs_keeps rt skip txs
    (fun now => Stored now key parent ∨ ∃ tx : TxItr, now.find key = some tx.json ∧ tx.getHash = key) ?_ ?_ db (.inl stored)
  · rcases kept with still | ⟨tx, present, hash⟩
    · exact ⟨parent.json, parent, still, BlockHead.parse_json rt parent, own, .inl ⟨rfl, rfl⟩⟩
    · exact ⟨tx.json, _, present, parseBlockHead_tx rt tx, hash, .inr ⟨⟨tx, rfl⟩, rfl, hash⟩⟩
  · intro tx _ now kept
    rw [Stored, Db.find_save]
    split
    · next same => exact .inr ⟨tx.buildHash rt, rfl, (TxItr.getHash_buildHash tx).trans same.symm⟩
    · exact kept
  · intro tx _ _ two _ now value spent kept _ _ _
    rw [Stored, Db.find_save]
    split
    · next same => exact .inr ⟨_, rfl, (TxItr.getHash_marked spent _ _).trans same.symm⟩
    · exact kept

namespace ParentAfter

variable {db : Db} {key : Bytes} {parent p : BlockHead} {value : Value} (after : ParentAfter rt db key parent value p)

include after

/-- The amended record is another one. -/
theorem ne_amended (hash? : Option Bytes) : value ≠ (p.addNext hash?).json := by
  rcases after.origin with ⟨rfl, rfl⟩ | ⟨⟨tx, rfl⟩, -⟩
  · intro same
    have lists := congrArg (fun bh : BlockHead => bh.nextblockhash?.getD []) (BlockHead.json_injective same)
    have lengths := congrArg List.length lists
    simp [BlockHead.addNext] at lengths
  · exact TxItr.json_ne_head tx _

/-- The parent itself does not come back when the record is amended, unless it has no height. -/
theorem parent_ne_amended (high : parent.height ≠ 0) (hash? : Option Bytes) : parent.json ≠ (p.addNext hash?).json := by
  rcases after.origin with ⟨same, -⟩ | ⟨-, only⟩
  · exact same ▸ after.ne_amended hash?
  · intro same
    have heights := congrArg BlockHead.height (BlockHead.json_injective same)
    exact high (heights.trans only.height)

theorem amendParent_eq {block : BlockHead} (onTop : block.previousblockhash = key) :
    amendParent rt db block = .saved (db.save key (p.addNext block.hash?).json) := by
  subst onTop
  simp only [amendParent, after.present, after.read, BlockHead.hash_addNext, after.own]

end ParentAfter

/-! ## The last part of a turn -/

/-- The turn comes to its end and leaves links, balances and height as they were. -/
structure MemoryKept (node : Node) (after : Node × Exit) : Prop where
  ends : after.2 = .next
  blocks : after.1.chain.blocks = node.chain.blocks
  groups : after.1.chain.groups = node.chain.groups
  balance : after.1.balanceM.balance = node.balanceM.balance
  currentBlock : after.1.chain.currentBlock = node.chain.currentBlock

/-- The height synchronised up to is moved by the next height alone. -/
theorem storeBlock_currentBlock_iff (linked : node.chain.Linked) {built : List TxItr} :
    (storeBlock rt wallet node bh built).1.chain.currentBlock = node.chain.currentBlock ↔
      node.chain.currentBlock + 1 ≠ bh.height := by
  have moves : (storeBlock rt wallet node bh built).1.chain.currentBlock =
      if node.chain.currentBlock + 1 = bh.height then bh.height else node.chain.currentBlock := by
    have heights := congrArg Heights.current (@storeBlock_heights rt wallet node bh built linked)
    split at heights
    · exact heights
    · exact heights
  rw [moves]
  split
  · next isNext =>
    rw [← isNext]
    simp
  · next other => simp [other]

theorem storeBlock_memoryKept_iff (linked : node.chain.Linked) (filled : DepositsFilled txs) (db : Db) :
    MemoryKept node (storeBlock rt wallet { node with db } bh (txs.map (·.buildHash rt))) ↔
      Unnoticed rt wallet node bh txs := by
  have linked' : ({ node with db } : Node).chain.Linked := linked
  have ends := @storeBlock_next_iff rt wallet { node with db } bh (txs.map (·.buildHash rt)) linked'
  have current := @storeBlock_currentBlock_iff rt wallet { node with db } bh linked' (txs.map (·.buildHash rt))
  have hands := @storeBlock_handed rt wallet { node with db } bh (txs.map (·.buildHash rt))
  rw [depositsFilled_buildHash] at ends
  cases hands with
  | nothing unhanded => cases unhanded
  | panicked before bh' built isHanded same ran later panics =>
    constructor
    · intro kept
      cases kept.ends.symm.trans panics
    · intro unnoticed
      cases (ends.mpr ⟨unnoticed.coinbase, filled⟩).symm.trans panics
  | added before after bh' built added isHanded same ran later goesOn =>
    cases isHanded
    have adds := addBlock_eq_some_iff.mp ran
    have counted : (storeBlock rt wallet { node with db } bh (txs.map (·.buildHash rt))).1.balanceM.balance =
        node.balanceM.balance ↔
        Repeats node.balanceM.balance (blockWrites rt wallet (txs.map (·.buildHash rt))) := by
      rw [later.balanceM, adds.balanceM, same.balanceM]
      exact SyncMap.replayEntries_eq_self_iff _ _
    constructor
    · intro kept
      refine ⟨(ends.mp kept.ends).1, fun accepts => ?_, counted.mp kept.balance, current.mp kept.currentBlock⟩
      have labels := adds.labels (same.linked linked')
      rw [if_pos ((same.accepts_iff bh).mpr accepts), ← later.labels, same.labels, Chain.labels, kept.blocks] at labels
      have lengths := congrArg List.length labels
      rw [List.length_append, List.length_singleton, Chain.labels] at lengths
      exact Nat.succ_ne_self _ lengths.symm
    · intro unnoticed
      have refused : ¬ before.chain.Accepts bh := fun accepts => unnoticed.refused ((same.accepts_iff bh).mp accepts)
      have isRefused : added = false :=
        Bool.eq_false_iff.mpr fun isAdded => refused ((adds.added_iff (same.linked linked')).mp isAdded)
      subst isRefused
      have chain := adds.chain_eq (same.linked linked')
      exact ⟨goesOn, by rw [later.blocks, chain, same.blocks], by rw [later.groups, chain, same.groups],
        counted.mpr unnoticed.counted, current.mpr unnoticed.height⟩

/-! ## The imports as a whole -/

/-- A turn whose transactions are saved to the end goes on to its last part. -/
theorem saveBlockHead_eq {bhvo : BlockHeadVO} {parent p : BlockHead} {value : Value} {db : Db}
    (head : bhvo.bh = some bh) (ran : saveTxs rt true bhvo.txs node.db = (db, .next))
    (after : ParentAfter rt db bh.previousblockhash parent value p) :
    saveBlockHead rt wallet node bhvo = storeBlock rt wallet { node with
      db := if amendDue node.chain bh then db.save bh.previousblockhash (p.addNext bh.hash?).json else db }
        bh (bhvo.txs.map (·.buildHash rt)) := by
  simp only [saveBlockHead, ran, head]
  split
  · rw [after.amendParent_eq rfl]
  · rfl

/-- A synchronisation that asks a neighbour, and whose transactions are saved to the end. -/
theorem importBlock_eq {parent p : BlockHead} {value : Value} {db : Db}
    (ran : saveTxs rt false txs node.db = (db, .next))
    (after : ParentAfter rt db bh.previousblockhash parent value p) :
    importBlock rt node bh txs = ({ node with
      db := Db.save (if 0 < node.chain.startingBlock then db.save bh.previousblockhash (p.addNext bh.hash?).json else db)
        bh.hash bh.json }, .ok bh) := by
  simp only [importBlock, ran]
  split
  · rw [after.amendParent_eq rfl]
  · rfl

/-- Where no record stands in the way, agreeing means that the turn keeps the memory and both leave one database. -/
theorem importsAgree_iff_kept {saved : Node × Exit} {db : Db} :
    ImportsAgree saved ({ node with db }, .ok bh) ↔ MemoryKept node saved ∧ saved.1.db = db := by
  constructor
  · intro agree
    exact ⟨⟨agree.ends.mpr ⟨bh, rfl⟩, agree.blocks, agree.groups, agree.balance, agree.currentBlock⟩, agree.db⟩
  · rintro ⟨kept, same⟩
    exact ⟨iff_of_true kept.ends ⟨bh, rfl⟩, same, kept.blocks, kept.groups, kept.balance, kept.currentBlock⟩

/-! ## The records -/

theorem height_pos {parent : BlockHead} (height : bh.height.toNat = parent.height.toNat + 1) : 0 < bh.height := by
  apply UInt64.lt_iff_toNat_lt.mpr
  rw [height, UInt64.toNat_zero]
  omega

/-- For a block that is not stored, both imports leave one database exactly when both amend the parent or
neither does. -/
theorem sameDb_new_iff {chain : Chain} {db : Db} {parent p : BlockHead} {value : Value}
    (after : ParentAfter rt db bh.previousblockhash parent value p) (other : bh.previousblockhash ≠ bh.hash)
    (high : 0 < bh.height) (amended : Db)
    (amends : amended = db.save bh.previousblockhash (p.addNext bh.hash?).json) :
    Db.saveHead (if amendDue chain bh then amended else db) bh (bh.height = chain.startingBlock) =
        Db.save (if 0 < chain.startingBlock then amended else db) bh.hash bh.json ↔
      (amendDue chain bh ↔ 0 < chain.startingBlock) := by
  have later (due : amendDue chain bh) : bh.height ≠ chain.startingBlock := fun same =>
    absurd (same ▸ due.1) (by simp)
  have atParent : amended.find bh.previousblockhash = some (p.addNext bh.hash?).json := by
    rw [amends, Db.find_save_self]
  constructor
  · intro same
    have records := congrArg (fun db => Db.find db bh.previousblockhash) same
    simp only [find_saveHead, if_neg other, Db.find_save_ne _ _ other] at records
    constructor
    · intro due
      by_contra unsynced
      simp only [later due, decide_false, Bool.false_eq_true, false_and, if_false, if_pos due, if_neg unsynced,
        atParent, after.present] at records
      exact after.ne_amended _ (Option.some.inj records).symm
    · intro synced
      by_contra notDue
      rw [if_neg notDue, if_pos synced, atParent, after.present] at records
      split at records
      · cases Option.some.inj records
      · exact after.ne_amended _ (Option.some.inj records)
  · intro guards
    have notFirst : bh.height ≠ chain.startingBlock := by
      intro same
      have synced : 0 < chain.startingBlock := same ▸ high
      exact later (guards.mpr synced) same
    simp only [guards, Db.saveHead, notFirst, decide_false, Bool.false_eq_true, if_false]

/-- For a block that is stored, the turn leaves the database as it was exactly when it amends no parent and
repeats what is there. -/
theorem sameDb_stored_iff {db : Db} {parent p : BlockHead} {value : Value}
    (saved : db = node.db.replay (runJobs rt true (txJobs rt txs) node.db).1)
    (stored : Stored node.db bh.previousblockhash parent) (height : bh.height.toNat = parent.height.toNat + 1)
    (after : ParentAfter rt db bh.previousblockhash parent value p) :
    Db.saveHead (if amendDue node.chain bh then db.save bh.previousblockhash (p.addNext bh.hash?).json else db) bh
        (bh.height = node.chain.startingBlock) = node.db ↔
      ¬ amendDue node.chain bh ∧
        ∀ key value, lastWrite (plainLog rt node bh txs) key = some value → node.db.load key = value := by
  by_cases due : amendDue node.chain bh
  · -- the record of the parent is another one afterwards
    refine iff_of_false (fun same => ?_) fun both => both.1 due
    have later : bh.height ≠ node.chain.startingBlock := fun same => absurd (same ▸ due.1) (by simp)
    have records := congrArg (fun db => Db.find db bh.previousblockhash) same
    rw [show node.db.find bh.previousblockhash = some parent.json from stored] at records
    simp only [find_saveHead, later, decide_false, Bool.false_eq_true, false_and, if_false, if_pos due,
      Db.find_save_self] at records
    have high := UInt64.lt_iff_toNat_lt.mp due.2
    have one : (1 : UInt64).toNat = 1 := rfl
    split at records
    · have same := BlockHead.json_injective (Option.some.inj records)
      rw [same] at height
      omega
    · refine after.parent_ne_amended (fun zero => ?_) _ (Option.some.inj records).symm
      rw [height, zero, one] at high
      exact absurd high (by decide)
  · rw [if_neg due, and_iff_right due, ← SyncMap.replay_eq_self_iff, plainLog, SyncMap.replay_append, ← saved]
    have same : Db.saveHead db bh (bh.height = node.chain.startingBlock) = db.replay ((bh.hash, some bh.json) ::
        if bh.height = node.chain.startingBlock then [(Config.keyBlockStart, some (.raw bh.hash))] else []) := by
      unfold Db.saveHead
      by_cases first : bh.height = node.chain.startingBlock
      · simp only [first, decide_true, if_true]
        rfl
      · simp only [first, decide_false, Bool.false_eq_true, if_false]
        rfl
    rw [same]

end Imports

/-- The two imports of a next block agree exactly under these conditions. -/
theorem imports_agree_iff {rt : Runtime} {wallet : Wallet} {node : Node} {bhvo : BlockHeadVO} {bh : BlockHead}
    {neighbour : Neighbour} (linked : node.chain.Linked) (filed : AllFiled node.db) (head : bhvo.bh = some bh)
    (next : NextBlock rt node bh bhvo.txs) (answer : findBlockForNeighbor rt neighbour bh.hash = .ok (bh, bhvo.txs)) :
    ImportsAgree (saveBlockHead rt wallet node bhvo) (syncBlockForDBAndNeighbor rt node neighbour bh.hash) ↔
      (Known rt node bh → SameWhenStored rt wallet node bh bhvo.txs) ∧
        (¬ Known rt node bh → SameWhenNew rt wallet node bh bhvo.txs) := by
  obtain ⟨parent, stored, height⟩ := id next.parent
  have own : parent.hash = bh.previousblockhash := (filed _ _ stored).own
  have kept (db : Db) := @storeBlock_memoryKept_iff rt wallet node bh bhvo.txs linked next.filled db
  have pass := (@saveTxs_next_iff rt bhvo.txs bhvo.typed node.db).1
  have skipped := saveTxs_skip next
  have replayed := @saveTxs_eq rt true bhvo.txs node.db
  obtain ⟨value, p, after⟩ := @parent_after rt bhvo.txs true node.db _ parent stored own
  rcases ran : saveTxs rt true bhvo.txs node.db with ⟨db, exit⟩
  rw [ran] at pass skipped after replayed
  have isDb : db = node.db.replay (runJobs rt true (txJobs rt bhvo.txs) node.db).1 := congrArg Prod.fst replayed
  have cut (unfinished : exit ≠ .next) : saveBlockHead rt wallet node bhvo = ({ node with db }, exit) := by
    simp only [saveBlockHead, ran]
  cases found : (node.db.find bh.hash).bind (parseBlockHead rt) with
  | some known =>
    -- the synchronisation returns the stored header
    have isKnown : Known rt node bh := by rw [Known, found]; rfl
    have synced : syncBlockForDBAndNeighbor rt node neighbour bh.hash = (node, .ok known) := by
      simp only [syncBlockForDBAndNeighbor, found]
    rw [synced, show ((node, .ok known) : Node × Result BlockHead) = ({ node with db := node.db }, .ok known) from rfl,
      importsAgree_iff_kept]
    simp only [isKnown, true_imp_iff, not_true_eq_false, false_imp_iff, and_true]
    by_cases ended : exit = .next
    · subst ended
      rw [saveBlockHead_eq head ran after, kept, storeBlock_db, sameDb_stored_iff isDb stored height after]
      exact (and_iff_right (pass.mp rfl)).symm
    · rw [cut ended]
      exact iff_of_false (fun both => ended both.1.ends) fun same => ended (pass.mpr same.1)
  | none =>
    have isNew : ¬ Known rt node bh := by rw [Known, found]; simp
    have synced : syncBlockForDBAndNeighbor rt node neighbour bh.hash = importBlock rt node bh bhvo.txs := by
      simp only [syncBlockForDBAndNeighbor, found, answer]
    have other : bh.previousblockhash ≠ bh.hash := by
      intro same
      rw [← same, show node.db.find bh.previousblockhash = some parent.json from stored, Option.bind_some,
        BlockHead.parse_json] at found
      cases found
    simp only [isNew, false_imp_iff, not_false_eq_true, true_imp_iff, true_and]
    rw [synced]
    by_cases ended : exit = .next
    · subst ended
      rw [saveBlockHead_eq head ran after, importBlock_eq skipped after, importsAgree_iff_kept, kept, storeBlock_db]
      have same := @sameDb_new_iff rt bh node.chain db parent p value after other (height_pos height) _ rfl
      exact (and_congr_right fun _ => same).trans ⟨fun both _ => both, fun both => both (pass.mp rfl)⟩
    · -- both loops end at the same transaction
      rw [cut ended]
      refine iff_of_true ?_ fun passes => absurd (pass.mpr passes) ended
      simp only [importBlock, skipped]
      cases exit with
      | next => exact absurd rfl ended
      | stop => exact ⟨by simp, rfl, rfl, rfl, rfl, rfl⟩
      | panic => exact ⟨by simp, rfl, rfl, rfl, rfl, rfl⟩

/-! ## A block that only one of them links, and one that neither does -/

namespace Sample

/-- A reward to somebody else, and a payment that spends it. -/
def foreign : TxItr := .reward { voutTotal := 1, vout? := some [{ value := 7, address? := some [0, 9, 9] }] } 0

def spendForeign : TxItr := .pay
  { type := 3, vinTotal := 1, vin? := some [{ txid? := some (foreign.id runtime), puk? := some [9] }], voutTotal := 1,
    vout? := some [{ value := 6, address? := some [0, 9, 8] }], gas := 1 }

/-- A block that follows the first one, under the hash of its content, and one on top of it. -/
def following : BlockHead := BlockHead.buildHash runtime
  { height := 2, groupHeight := 1, previousblockhash? := some [1], nTx := 1, merkleRoot? := some [],
    tx? := some [some (foreign.id runtime)] }

def topping : BlockHead := BlockHead.buildHash runtime
  { height := 3, groupHeight := 1, previousblockhash? := following.hash?, nTx := 1, merkleRoot? := some [],
    tx? := some [some (spendForeign.id runtime)], witness? := some [1] }

def followingVO : BlockHeadVO := ⟨some following, [foreign], by decide⟩

def toppingVO : BlockHeadVO := ⟨some topping, [spendForeign], by decide⟩

/-- A neighbour that knows a block with one transaction. -/
def knowing (bh : BlockHead) (tx : TxItr) : Neighbour := fun request _ => if request = 0 then some bh.json else some tx.json

theorem answer_knowing {bh : BlockHead} {tx : TxItr} {id : Bytes} (lists : bh.tx = [id]) (typed : tx.Typed) :
    findBlockForNeighbor runtime (knowing bh tx) bh.hash = .ok (bh, [tx]) := by
  simp only [findBlockForNeighbor, knowing, if_pos, BlockHead.parse_json, lists, findTxs, if_neg (Nat.one_ne_zero),
    TxItr.parse_json runtime typed]

theorem next_following : NextBlock runtime afterLoad following [foreign] where
  checked := BlockHead.check_buildHash runtime _
  lists := rfl
  filled := by decide
  parent := ⟨genesis, by rw [afterLoad_db]; rfl, rfl⟩
  spends := List.forall_mem_singleton.mpr fun spends => absurd spends (by unfold TxItr.Spends; decide)

/-- What stands under the hash of the first block once the transaction of the next one is saved. -/
theorem genesis_after : ParentAfter runtime (afterLoad.db.save (foreign.id runtime) (foreign.buildHash runtime).json) [1]
    genesis genesis.json genesis where
  present := by
    have apart : ([1] : Bytes) ≠ foreign.id runtime := fun same => absurd (congrArg List.head? same) (by decide)
    rw [Db.find_save_ne _ _ apart, afterLoad_db]
    rfl
  read := BlockHead.parse_json runtime genesis
  own := rfl
  origin := .inl ⟨rfl, rfl⟩

theorem hash_following : following.hash.length = 1 ∧ following.hash ≠ genesis.hash :=
  ⟨rfl, by decide +kernel⟩

theorem sync_following : syncBlockForDBAndNeighbor runtime afterLoad (knowing following foreign) following.hash =
    ({ afterLoad with
      db := Db.save (Db.save (afterLoad.db.save (foreign.id runtime) (foreign.buildHash runtime).json) [1]
        (genesis.addNext following.hash?).json) following.hash following.json }, .ok following) := by
  have reserved : following.hash ≠ Config.keyBlockStart := fun same => absurd (same ▸ hash_following.1) (by decide)
  have absent : afterLoad.db.find following.hash = none := by
    rw [afterLoad_db, genesisDb, find_saveHead, if_neg fun both => reserved both.2, if_neg hash_following.2]
    rfl
  have imported := @importBlock_eq runtime afterLoad following [foreign] genesis genesis _ _ rfl genesis_after
  rw [if_pos (show 0 < afterLoad.chain.startingBlock by decide)] at imported
  have answer := @answer_knowing following foreign (foreign.id runtime) rfl (by decide)
  rw [syncBlockForDBAndNeighbor, absent, Option.bind_none, answer]
  exact imported

/-- The database has the next block, the chain in memory has not. -/
def lagging : Node := (syncBlockForDBAndNeighbor runtime afterLoad (knowing following foreign) following.hash).1

theorem id_ne_following (tx : TxItr) : tx.id runtime ≠ following.hash := id_ne_of_length hash_following.1 tx

/-- The next block and what it spends are stored, itself is not. -/
structure Lags (node : Node) : Prop where
  chain : node.chain = afterLoad.chain
  parent : Stored node.db following.hash following
  spent : StoredTx node.db (foreign.id runtime) (foreign.buildHash runtime)
  absent : node.db.find topping.hash = none

theorem lags_lagging : Lags lagging := by
  have fromGenesis : foreign.id runtime ≠ [1] := fun same => absurd (congrArg List.head? same) (by decide)
  rw [lagging, sync_following]
  refine ⟨rfl, Db.find_save_self _ _ _, ⟨by decide, ?_⟩, ?_⟩
  · rw [Db.find_save_ne _ _ (id_ne_following foreign), Db.find_save_ne _ _ fromGenesis, Db.find_save_self]
  · have oneByte : topping.hash.length = 1 := rfl
    have reserved : topping.hash ≠ Config.keyBlockStart := fun same => absurd (same ▸ oneByte) (by decide)
    have fromFollowing : topping.hash ≠ following.hash := by decide +kernel
    have other : topping.hash ≠ genesis.hash := by decide +kernel
    rw [Db.find_save_ne _ _ fromFollowing, Db.find_save_ne _ _ (show topping.hash ≠ [1] from other),
      Db.find_save_ne _ _ (id_ne_of_length oneByte _).symm,
      afterLoad_db, genesisDb, find_saveHead, if_neg fun both => reserved both.2, if_neg other]
    rfl

end Sample

/-- A block follows the loaded first block: broadcast, it is linked; synchronised, it is not. -/
theorem imports_differ : ∃ (node : Node) (bhvo : BlockHeadVO) (bh : BlockHead) (neighbour : Neighbour),
    node.chain.Linked ∧ AllFiled node.db ∧ bhvo.bh = some bh ∧ NextBlock Sample.runtime node bh bhvo.txs ∧
      findBlockForNeighbor Sample.runtime neighbour bh.hash = .ok (bh, bhvo.txs) ∧
        ¬ ImportsAgree (saveBlockHead Sample.runtime Sample.twoKeys node bhvo)
          (syncBlockForDBAndNeighbor Sample.runtime node neighbour bh.hash) := by
  obtain ⟨linked, labels⟩ := Sample.afterLoad_chain
  have filed : AllFiled Sample.afterLoad.db := by
    rw [Sample.afterLoad_db]
    exact allFiled_empty.after_saveHead Sample.genesis true
  refine ⟨Sample.afterLoad, Sample.followingVO, Sample.following, Sample.knowing Sample.following Sample.foreign, linked,
    filed, rfl, Sample.next_following, Sample.answer_knowing rfl rfl, fun agree => ?_⟩
  rw [Sample.sync_following, importsAgree_iff_kept,
    saveBlockHead_eq (show Sample.followingVO.bh = some Sample.following from rfl) rfl Sample.genesis_after] at agree
  have unnoticed := (storeBlock_memoryKept_iff linked Sample.next_following.filled _).mp agree.1
  apply unnoticed.refused
  rw [linked.accepts_iff, labels]
  decide

/-- The chain in memory lags a synchronised block behind: neither import notices the next one. -/
theorem imports_agree_lagging : Sample.lagging.chain.labels = [([1], 1, [])] ∧
    NextBlock Sample.runtime Sample.lagging Sample.topping [Sample.spendForeign] ∧
      ImportsAgree (saveBlockHead Sample.runtime Sample.twoKeys Sample.lagging Sample.toppingVO)
        (syncBlockForDBAndNeighbor Sample.runtime Sample.lagging
          (Sample.knowing Sample.topping Sample.spendForeign) Sample.topping.hash) := by
  have lags := Sample.lags_lagging
  obtain ⟨linkedStart, labels⟩ := Sample.afterLoad_chain
  have linked : Sample.lagging.chain.Linked := by
    rw [lags.chain]
    exact linkedStart
  have start : AllFiled Sample.afterLoad.db := by
    rw [Sample.afterLoad_db]
    exact allFiled_empty.after_saveHead Sample.genesis true
  have filed : AllFiled Sample.lagging.db := by
    have new := Filed.tx (Sample.foreign.buildHash Sample.runtime) (by decide)
    rw [TxItr.getHash_buildHash] at new
    rw [Sample.lagging, Sample.sync_following]
    exact ((start.save new).save (.head (Sample.genesis.addNext Sample.following.hash?))).save (.head Sample.following)
  have next : NextBlock Sample.runtime Sample.lagging Sample.topping [Sample.spendForeign] :=
    { checked := BlockHead.check_buildHash Sample.runtime _
      lists := rfl
      filled := by decide
      parent := ⟨Sample.following, lags.parent, by decide⟩
      spends := List.forall_mem_singleton.mpr fun _ => List.forall_mem_singleton.mpr ⟨_, lags.spent, by
        rw [TxItr.getVout_buildHash]
        decide⟩ }
  have isNew : ¬ Known Sample.runtime Sample.lagging Sample.topping := by
    rw [Known, lags.absent]
    simp
  have unnoticed : Unnoticed Sample.runtime Sample.twoKeys Sample.lagging Sample.topping [Sample.spendForeign] :=
    { coinbase := rfl
      refused := by
        rw [linked.accepts_iff, lags.chain, labels]
        decide
      counted := by
        have nothing : blockWrites Sample.runtime Sample.twoKeys [Sample.spendForeign.buildHash Sample.runtime] = [] := by
          rw [blockWrites, List.flatMap_singleton, TxItr.buildHash_buildHash]
          rfl
        rw [List.map_singleton, nothing]
        exact ⟨List.forall_mem_nil _, fun query value last => nomatch last⟩
      height := by
        rw [lags.chain]
        decide }
  have guards : amendDue Sample.lagging.chain Sample.topping ↔ 0 < Sample.lagging.chain.startingBlock := by
    rw [lags.chain]
    decide
  exact ⟨by rw [lags.chain, labels], next, (@imports_agree_iff Sample.runtime Sample.twoKeys _ Sample.toppingVO _ _ linked filed
    rfl next (Sample.answer_knowing rfl (by decide))).mpr ⟨fun known => absurd known isNew, fun _ _ => ⟨unnoticed, guards⟩⟩⟩

end PolarCloud.Mining
