import PolarCloud.Proofs.Mining.SpentMarks
import PolarCloud.Proofs.Mining.Unspent

/-! # What a succession of blocks leaves in the database

The block saver takes blocks without forks, one after the other. Every transaction is then stored up
to its marks, every header up to its successors, and each header lists the next block, except that a
block of height 1 is never listed.
-/

namespace PolarCloud.Mining

open Keystore

/-- A block with its header. -/
structure FullBlock where
  bh : BlockHead
  txs : List TxItr
  typed : ∀ tx ∈ txs, tx.Typed

def FullBlock.vo (block : FullBlock) : BlockHeadVO := ⟨some block.bh, block.txs, block.typed⟩

/-- One turn of the block saver that goes on to the next message. -/
def saveNext (rt : Runtime) (wallet : Wallet) (node : Node) (block : FullBlock) : Option Node :=
  match saveBlockHead rt wallet node block.vo with
  | (next, .next) => some next
  | _ => none

def saveAll (rt : Runtime) (wallet : Wallet) (node : Node) (blocks : List FullBlock) : Option Node :=
  blocks.foldlM (saveNext rt wallet) node

/-- Successive blocks from a first height: each is built on the one before it, none lists successors
yet, each lists its transactions, and the keys of different records differ. -/
structure Succession (rt : Runtime) (start : UInt64) (blocks : List FullBlock) : Prop where
  heights : ∀ index block, blocks[index]? = some block → block.bh.height.toNat = start.toNat + index
  parents : ∀ index pre block, blocks[index]? = some pre → blocks[index + 1]? = some block →
    block.bh.previousblockhash = pre.bh.hash
  bare : ∀ block ∈ blocks, block.bh.nexts = []
  tx : ∀ block ∈ blocks, block.bh.tx = block.txs.map (·.id rt)
  hashes : (blocks.map fun block => block.bh.hash).Nodup
  reserved : ∀ block ∈ blocks, block.bh.hash ≠ Config.keyBlockStart
  inputs : ∀ block ∈ blocks, ∀ tx ∈ block.txs, tx.Spends → ∀ vin ∈ tx.getVin, vin.txid ≠ Config.keyBlockStart
  apart : ∀ block ∈ blocks, ∀ other ∈ blocks, ∀ tx ∈ other.txs, tx.id rt ≠ block.bh.hash
  ids : ∀ block ∈ blocks, ∀ other ∈ blocks, ∀ tx ∈ block.txs, ∀ tx' ∈ other.txs, tx.id rt = tx'.id rt →
    tx.erase = tx'.erase

/-- The successors that the header at a position ends up with. -/
def recorded (start : UInt64) (blocks : List FullBlock) (index : ℕ) : List Bytes :=
  if start = 0 ∧ index = 0 then [] else (blocks[index + 1]?.map fun block => block.bh.hash).toList

/-- A transaction is stored, up to its marks. -/
def HeldTx (rt : Runtime) (db : Db) (tx : TxItr) :
    Prop := ∃ stored, StoredTx db (tx.id rt) stored ∧ stored.erase = tx.erase

/-- The header with other successors. -/
def BlockHead.withNexts (bh : BlockHead) (nextblockhash? : Option (List (Option Bytes))) : BlockHead :=
  { bh with nextblockhash? }

@[simp] theorem BlockHead.hash_withNexts (bh : BlockHead) (nextblockhash? : Option (List (Option Bytes))) :
    (bh.withNexts nextblockhash?).hash = bh.hash := rfl

theorem BlockHead.addNext_withNexts (bh : BlockHead) {nextblockhash? : Option (List (Option Bytes))}
    (none : (bh.withNexts nextblockhash?).nexts = []) (hash? : Option Bytes) :
    (bh.withNexts nextblockhash?).addNext hash? = bh.withNexts (some [hash?]) := by
  have empty : nextblockhash?.getD [] = [] := by
    cases nextblockhash? with
    | none => rfl
    | some nexts => exact List.map_eq_nil_iff.mp none
  simp only [addNext, withNexts, empty, List.nil_append]

/-- The records that the blocks leave. -/
structure SavedAs (rt : Runtime) (start : UInt64) (blocks : List FullBlock) (db : Db) : Prop where
  filed : AllFiled db
  first : ∀ block, blocks.head? = some block → db.find Config.keyBlockStart = some (.raw block.bh.hash)
  heads : ∀ index block, blocks[index]? = some block → ∃ nextblockhash?,
    Stored db block.bh.hash (block.bh.withNexts nextblockhash?) ∧
      (block.bh.withNexts nextblockhash?).nexts = recorded start blocks index
  txs : ∀ block ∈ blocks, ∀ tx ∈ block.txs, HeldTx rt db tx

section Transactions

variable {rt : Runtime}

/-- An id begins with its class, the reserved key with a letter. -/
theorem TxItr.id_ne_keyBlockStart (tx : TxItr) : tx.id rt ≠ Config.keyBlockStart := by
  intro same
  have head := congrArg List.head? same
  cases tx <;> exact absurd head (by simp [TxItr.id, TxItr.idPrefix]; decide)

/-- Saving transactions leaves a record that is no transaction's. -/
theorem find_saveTxs_of_apart {db : Db} (filed : AllFiled db) (skip : Bool) {txs : List TxItr}
    (typed : ∀ tx ∈ txs, tx.Typed)
    (reserved : ∀ tx ∈ txs, tx.Spends → ∀ vin ∈ tx.getVin, vin.txid ≠ Config.keyBlockStart)
    {key : Bytes} {value : Value} (apart : ∀ tx ∈ txs, tx.id rt ≠ key) (noTx : ∀ tx : TxItr, value ≠ tx.json)
    (present : db.find key = some value) : Db.find (saveTxs rt skip txs db).1 key = some value := by
  have kept := @saveTxs_keeps rt skip txs (fun now => AllFiled now ∧ now.find key = some value) ?_ ?_ db
    ⟨filed, present⟩
  · exact kept.2
  · rintro tx member now ⟨filed, present⟩
    have new := Filed.tx (tx.buildHash rt) ((typed tx member).buildHash)
    rw [TxItr.getHash_buildHash] at new
    exact ⟨filed.save new, by rw [Db.find_save_ne _ _ (apart tx member).symm, present]⟩
  · rintro tx member spends two input now record spent ⟨filed, present⟩ found read inside
    have outputs : spent.getVout ≠ [] := List.length_pos_iff.mp (by omega)
    obtain ⟨typedSpent, rfl, own⟩ :=
      ((filed _ _ found).read_tx read outputs).resolve_right (reserved tx member spends two input)
    have new := Filed.tx (spent.marked two.vout (tx.id rt)) (typedSpent.marked _ _)
    rw [TxItr.getHash_marked] at new
    refine ⟨filed.save new, ?_⟩
    rw [Db.find_save_ne, present]
    rintro rfl
    rw [← own, present] at found
    exact noTx spent (Option.some.inj found)

/-- Saving transactions leaves each of them stored, and those that were. -/
theorem heldTx_saveTxs {db : Db} (filed : AllFiled db) (skip : Bool) {earlier txs : List TxItr}
    (typed : ∀ tx ∈ txs, tx.Typed)
    (reserved : ∀ tx ∈ txs, tx.Spends → ∀ vin ∈ tx.getVin, vin.txid ≠ Config.keyBlockStart)
    (ids : ∀ tx ∈ earlier ++ txs, ∀ tx' ∈ txs, tx.id rt = tx'.id rt → tx.erase = tx'.erase)
    (held : ∀ tx ∈ earlier, HeldTx rt db tx) (ended : (saveTxs rt skip txs db).2 = .next) :
    ∀ tx ∈ earlier ++ txs, HeldTx rt (saveTxs rt skip txs db).1 tx := by
  have rule := @saveTxs_rule rt skip txs (fun done now => AllFiled now ∧ ∀ tx ∈ earlier ++ done, HeldTx rt now tx)
    ?_ ?_ db ⟨filed, by rwa [List.append_nil]⟩
  · obtain ⟨before, after, cut, kept, all⟩ := rule
    rw [all ended, List.append_nil] at cut
    exact cut ▸ kept.2
  · rintro before tx after now cut ⟨filed, held⟩
    have member : tx ∈ txs := by rw [cut]; simp
    have new := Filed.tx (tx.buildHash rt) ((typed tx member).buildHash)
    rw [TxItr.getHash_buildHash] at new
    refine ⟨filed.save new, fun other inside => ?_⟩
    by_cases same : other.id rt = tx.id rt
    · have there : other ∈ earlier ++ txs := by
        rw [cut]
        simp only [List.mem_append, List.mem_cons, List.not_mem_nil, or_false] at inside ⊢
        tauto
      refine ⟨tx.buildHash rt, ⟨(typed tx member).buildHash, by rw [same, Db.find_save_self]⟩, ?_⟩
      rw [TxItr.erase_buildHash, ids other there tx member same]
    · rw [← List.append_assoc, List.mem_append, List.mem_singleton] at inside
      obtain ⟨stored, ⟨typedStored, present⟩, same'⟩ := held other (inside.resolve_right fun eq => same (eq ▸ rfl))
      exact ⟨stored, ⟨typedStored, by rw [Db.find_save_ne _ _ same, present]⟩, same'⟩
  · rintro before tx after now cut spends two input record spent ⟨filed, held⟩ found read inside
    have member : tx ∈ txs := by rw [cut]; simp
    have outputs : spent.getVout ≠ [] := List.length_pos_iff.mp (by omega)
    obtain ⟨typedSpent, rfl, own⟩ :=
      ((filed _ _ found).read_tx read outputs).resolve_right (reserved tx member spends two input)
    have new := Filed.tx (spent.marked two.vout (tx.id rt)) (typedSpent.marked _ _)
    rw [TxItr.getHash_marked] at new
    refine ⟨filed.save new, fun other inside => ?_⟩
    obtain ⟨stored, ⟨typedStored, present⟩, same'⟩ := held other inside
    by_cases same : other.id rt = spent.getHash
    · rw [same, own, found] at present
      obtain rfl := TxItr.json_inj typedSpent typedStored (Option.some.inj present)
      exact ⟨spent.marked two.vout (tx.id rt), ⟨typedSpent.marked _ _, by rw [same, Db.find_save_self]⟩,
        by rw [TxItr.erase_marked, same']⟩
    · exact ⟨stored, ⟨typedStored, by rw [Db.find_save_ne _ _ same, present]⟩, same'⟩

end Transactions

section Step

variable {rt : Runtime} {wallet : Wallet} {start : UInt64} {blocks : List FullBlock} {block : FullBlock}

private theorem getElem?_append_of_some {α : Type*} {before later : List α} {index : ℕ} {item : α}
    (present : before[index]? = some item) : (before ++ later)[index]? = some item := by
  rw [List.getElem?_append_left (List.getElem?_eq_some_iff.mp present).1, present]

/-- The beginning of a succession is one. -/
theorem Succession.left {later : List FullBlock} (succession : Succession rt start (blocks ++ later)) :
    Succession rt start blocks where
  heights := fun index block present => succession.heights index block (getElem?_append_of_some present)
  parents := fun index pre block first second => succession.parents index pre block
    (getElem?_append_of_some first) (getElem?_append_of_some second)
  bare := fun block member => succession.bare block (List.mem_append_left _ member)
  tx := fun block member => succession.tx block (List.mem_append_left _ member)
  hashes := by
    have hashes := succession.hashes
    rw [List.map_append] at hashes
    exact hashes.of_append_left
  reserved := fun block member => succession.reserved block (List.mem_append_left _ member)
  inputs := fun block member => succession.inputs block (List.mem_append_left _ member)
  apart := fun block member other there => succession.apart block (List.mem_append_left _ member) other
    (List.mem_append_left _ there)
  ids := fun block member other there => succession.ids block (List.mem_append_left _ member) other
    (List.mem_append_left _ there)

/-- Different positions have different hashes. -/
theorem Succession.hash_ne (succession : Succession rt start blocks) {i j : ℕ} {first second : FullBlock}
    (atFirst : blocks[i]? = some first) (atSecond : blocks[j]? = some second) (ne : i ≠ j) :
    first.bh.hash ≠ second.bh.hash := by
  intro same
  have inside : i < (blocks.map fun block => block.bh.hash).length := by
    rw [List.length_map]
    exact (List.getElem?_eq_some_iff.mp atFirst).1
  refine ne ((List.getElem?_inj inside succession.hashes).mp ?_)
  rw [List.getElem?_map, List.getElem?_map, atFirst, atSecond, Option.map_some, Option.map_some, same]

/-- The turn of a block that goes on has saved its transactions. -/
theorem saveNext_eq_some {node next : Node} (ran : saveNext rt wallet node block = some next) :
    saveBlockHead rt wallet node block.vo = (next, .next) ∧ (saveTxs rt true block.txs node.db).2 = .next := by
  unfold saveNext at ran
  split at ran
  · next result saved =>
    cases ran
    refine ⟨saved, ?_⟩
    rcases turn : saveTxs rt true block.txs node.db with ⟨db, exit⟩
    simp only [saveBlockHead, FullBlock.vo, turn] at saved
    cases exit with
    | next => rfl
    | stop => cases congrArg Prod.snd saved
    | panic => cases congrArg Prod.snd saved
  · cases ran

/-- The blocks that amend their parent: all but the first one and one of height 1. -/
theorem Succession.amendDue_iff (succession : Succession rt start (blocks ++ [block])) {chain : Chain}
    (starting : chain.startingBlock = start) :
    amendDue chain block.bh ↔ blocks ≠ [] ∧ ¬ (start = 0 ∧ blocks.length = 1) := by
  have height := succession.heights blocks.length block (by simp)
  have zero : start = 0 ↔ start.toNat = 0 := by rw [← UInt64.toNat_inj]; rfl
  have one : (1 : UInt64).toNat = 1 := rfl
  rw [amendDue, starting, UInt64.lt_iff_toNat_lt, UInt64.lt_iff_toNat_lt, height, zero, one, ← List.length_pos_iff]
  omega

theorem Succession.first_iff (succession : Succession rt start (blocks ++ [block])) :
    block.bh.height = start ↔ blocks = [] := by
  have height := succession.heights blocks.length block (by simp)
  rw [← UInt64.toNat_inj, height, ← List.length_eq_zero_iff]
  omega

/-- The records before the header of a block is saved. -/
private theorem saved_txs (succession : Succession rt start (blocks ++ [block])) {db : Db}
    (saved : SavedAs rt start blocks db) (ended : (saveTxs rt true block.txs db).2 = .next) :
    SavedAs rt start blocks (saveTxs rt true block.txs db).1 ∧
      ∀ tx ∈ block.txs, HeldTx rt (saveTxs rt true block.txs db).1 tx := by
  have last : block ∈ blocks ++ [block] := List.mem_append_right _ (List.mem_singleton_self _)
  have inputs := succession.inputs block last
  have held := @heldTx_saveTxs rt db saved.filed true (blocks.flatMap FullBlock.txs) block.txs block.typed inputs
    ?_ ?_ ended
  · refine ⟨⟨saved.filed.after_saveTxs block.typed, fun first isFirst => ?_, fun index old present => ?_,
      fun old member tx there => ?_⟩, fun tx member => ?_⟩
    · exact find_saveTxs_of_apart saved.filed true block.typed inputs (fun tx _ => tx.id_ne_keyBlockStart)
        (fun tx same => by simp [TxItr.json] at same) (saved.first first isFirst)
    · obtain ⟨nextblockhash, stored, nexts⟩ := saved.heads index old present
      refine ⟨nextblockhash, ?_, nexts⟩
      exact find_saveTxs_of_apart saved.filed true block.typed inputs
        (fun tx there => succession.apart old (List.mem_append_left _ (List.mem_of_getElem? present))
          block last tx there)
        (fun tx same => TxItr.json_ne_head tx _ same.symm) stored
    · exact held tx (List.mem_append_left _ (List.mem_flatMap.mpr ⟨old, member, there⟩))
    · exact held tx (List.mem_append_right _ member)
  · intro tx member tx' member' same
    rcases List.mem_append.mp member with member | member
    · obtain ⟨old, there, member⟩ := List.mem_flatMap.mp member
      exact succession.ids old (List.mem_append_left _ there) block last tx member tx' member' same
    · exact succession.ids block last block last tx member tx' member' same
  · intro tx member
    obtain ⟨old, there, member⟩ := List.mem_flatMap.mp member
    exact saved.txs old there tx member

/-- Saving the header of the next block, when the headers before it list what they are to list. -/
private theorem savedAs_saveHead (succession : Succession rt start (blocks ++ [block])) {db : Db} (filed : AllFiled db)
    (first : ∀ old, blocks.head? = some old → db.find Config.keyBlockStart = some (.raw old.bh.hash))
    (heads : ∀ index old, blocks[index]? = some old → ∃ nextblockhash?,
      Stored db old.bh.hash (old.bh.withNexts nextblockhash?) ∧
        (old.bh.withNexts nextblockhash?).nexts = recorded start (blocks ++ [block]) index)
    (txs : ∀ old ∈ blocks ++ [block], ∀ tx ∈ old.txs, HeldTx rt db tx) :
    SavedAs rt start (blocks ++ [block]) (Db.saveHead db block.bh (blocks = [])) := by
  have last : block ∈ blocks ++ [block] := List.mem_append_right _ (List.mem_singleton_self _)
  have atLast : (blocks ++ [block])[blocks.length]? = some block := by simp
  refine ⟨filed.after_saveHead block.bh _, fun other isFirst => ?_, fun index old present => ?_,
    fun old member tx there => ?_⟩
  · rw [find_saveHead]
    cases blocks with
    | nil =>
      cases isFirst
      rw [if_pos ⟨decide_eq_true rfl, rfl⟩]
    | cons head rest =>
      rw [if_neg (fun both => List.cons_ne_nil _ _ (of_decide_eq_true both.1)),
        if_neg (succession.reserved block last).symm]
      exact first other isFirst
  · have member : old ∈ blocks ++ [block] := List.mem_of_getElem? present
    have find (bh : BlockHead) : Stored (Db.saveHead db block.bh (blocks = [])) old.bh.hash bh ↔
        if old.bh.hash = block.bh.hash then some block.bh.json = some bh.json else Stored db old.bh.hash bh := by
      rw [Stored, find_saveHead, if_neg (fun both => succession.reserved old member both.2)]
      split <;> rfl
    by_cases isLast : index = blocks.length
    · subst isLast
      obtain rfl : block = old := Option.some.inj (atLast.symm.trans present)
      refine ⟨block.bh.nextblockhash?, (find _).mpr (by rw [if_pos rfl]; rfl), ?_⟩
      have none : (blocks ++ [block])[blocks.length + 1]? = none := by simp
      rw [recorded, none]
      exact (succession.bare block last).trans (by split <;> rfl)
    · have inside : blocks[index]? = some old := by
        have bound := (List.getElem?_eq_some_iff.mp present).1
        rw [List.length_append, List.length_singleton] at bound
        rwa [List.getElem?_append_left (by omega)] at present
      obtain ⟨nextblockhash, stored, nexts⟩ := heads index old inside
      refine ⟨nextblockhash, (find _).mpr ?_, nexts⟩
      rwa [if_neg (succession.hash_ne present atLast isLast)]
  · obtain ⟨stored, ⟨typed, present⟩, same⟩ := txs old member tx there
    refine ⟨stored, ⟨typed, ?_⟩, same⟩
    rw [find_saveHead, if_neg (fun both => tx.id_ne_keyBlockStart both.2),
      if_neg (succession.apart block last old member tx there), present]

/-- The parent of a block is the last header before it, which lists no successors yet. -/
private theorem SavedAs.parent (succession : Succession rt start (blocks ++ [block])) {db : Db}
    (saved : SavedAs rt start blocks db) (nonempty : blocks ≠ []) :
    ∃ before pre nextblockhash?, blocks = before ++ [pre] ∧ block.bh.previousblockhash = pre.bh.hash ∧
      Stored db pre.bh.hash (pre.bh.withNexts nextblockhash?) ∧ (pre.bh.withNexts nextblockhash?).nexts = [] := by
  obtain ⟨before, pre, split⟩ := (List.eq_nil_or_concat blocks).resolve_left nonempty
  rw [List.concat_eq_append] at split
  subst split
  obtain ⟨nextblockhash, stored, nexts⟩ := saved.heads before.length pre (by simp)
  exact ⟨before, pre, nextblockhash, rfl, succession.parents before.length pre block (by simp) (by simp), stored,
    nexts.trans (by simp [recorded])⟩

/-- A block of a succession whose transactions are saved is handed over. -/
theorem SavedAs.handed {node : Node} (succession : Succession rt start (blocks ++ [block]))
    (saved : SavedAs rt start blocks node.db) (starting : node.chain.startingBlock = start)
    (ended : (saveTxs rt true block.txs node.db).2 = .next) :
    ChainEvent.handed? rt node (.block (.save block.vo)) = some (block.bh, block.txs.map (·.buildHash rt)) := by
  rw [@handed?_save rt node block.vo block.bh rfl]
  by_cases due : amendDue node.chain block.bh
  · obtain ⟨before, pre, nextblockhash, -, parent, stored, -⟩ := SavedAs.parent succession
      (saved_txs succession saved ended).1 ((succession.amendDue_iff starting).mp due).1
    rw [@Event.savedWith_amended rt node (.save block.vo) block.bh _ block.txs _ rfl ended
      (show Stored _ block.bh.previousblockhash (pre.bh.withNexts nextblockhash) from parent ▸ stored)
      (BlockHead.parse_json rt _)]
    rfl
  · rw [@Event.savedWith_plain rt node (.save block.vo) block.bh block.txs rfl due ended]
    rfl

/-- One more block of a succession leaves its records beside those before. -/
theorem SavedAs.step {node next : Node} (succession : Succession rt start (blocks ++ [block]))
    (saved : SavedAs rt start blocks node.db) (starting : node.chain.startingBlock = start)
    (ran : saveNext rt wallet node block = some next) : SavedAs rt start (blocks ++ [block]) next.db := by
  obtain ⟨turn, ended⟩ := saveNext_eq_some ran
  obtain ⟨savedTxs, heldTxs⟩ := saved_txs succession saved ended
  have isFirst : decide (block.bh.height = node.chain.startingBlock) = decide (blocks = []) :=
    decide_eq_decide.mpr (by rw [starting]; exact succession.first_iff)
  have held : ∀ old ∈ blocks ++ [block], ∀ tx ∈ old.txs, HeldTx rt (saveTxs rt true block.txs node.db).1 tx := by
    intro old member
    rcases List.mem_append.mp member with member | member
    · exact savedTxs.txs old member
    · obtain rfl := List.mem_singleton.mp member
      exact heldTxs
  have db : next.db = (saveBlockHead rt wallet node block.vo).1.db := by rw [turn]
  have run : saveTxs rt true block.vo.txs node.db = ((saveTxs rt true block.txs node.db).1, .next) := Prod.ext rfl ended
  by_cases due : amendDue node.chain block.bh
  · obtain ⟨nonempty, notSecond⟩ := (succession.amendDue_iff starting).mp due
    obtain ⟨before, pre, nextblockhash, rfl, parent, stored, none⟩ := savedTxs.parent succession nonempty
    have member : pre ∈ before ++ [pre] ++ [block] := by simp
    have atPre : (before ++ [pre])[before.length]? = some pre := by simp
    have amended := @saveBlockHead_db_amended rt wallet node block.vo block.bh _ _ run rfl due
      (show Stored _ block.bh.previousblockhash (pre.bh.withNexts nextblockhash) from parent ▸ stored)
    rw [db, amended, isFirst, BlockHead.addNext_withNexts pre.bh none, BlockHead.hash_withNexts]
    have filed := Filed.head (pre.bh.withNexts (some [block.bh.hash?]))
    rw [BlockHead.hash_withNexts] at filed
    refine savedAs_saveHead succession (savedTxs.filed.save filed) (fun first isHead => ?_)
      (fun index old present => ?_) fun old there tx inside => ?_
    · exact (Db.find_save_ne _ _ (succession.reserved pre member).symm).trans (savedTxs.first first isHead)
    · by_cases atLast : index = before.length
      · subst atLast
        obtain rfl : pre = old := Option.some.inj (atPre.symm.trans present)
        refine ⟨some [block.bh.hash?], stored_save_head_iff.mpr (by rw [if_pos rfl]), ?_⟩
        rw [recorded, if_neg (fun both => notSecond ⟨both.1, by simp [both.2]⟩)]
        have next : (before ++ [pre] ++ [block])[before.length + 1]? = some block := by simp
        rw [next]
        rfl
      · obtain ⟨nextblockhash, stored, nexts⟩ := savedTxs.heads index old present
        have bound := (List.getElem?_eq_some_iff.mp present).1
        rw [List.length_append, List.length_singleton] at bound
        refine ⟨nextblockhash, stored_save_head_iff.mpr ?_, nexts.trans ?_⟩
        · rwa [if_neg (succession.left.hash_ne present atPre atLast)]
        · have inside : index + 1 < (before ++ [pre]).length := by
            rw [List.length_append, List.length_singleton]
            omega
          rw [recorded, recorded, List.getElem?_append_left inside]
    · obtain ⟨record, ⟨typed, found⟩, same⟩ := held old there tx inside
      refine ⟨record, ⟨typed, ?_⟩, same⟩
      exact (Db.find_save_ne _ _ (succession.apart pre member old there tx inside)).trans found
  · rw [db, saveBlockHead_db_plain run rfl due, isFirst]
    refine savedAs_saveHead succession savedTxs.filed savedTxs.first (fun index old present => ?_) held
    obtain ⟨nextblockhash, stored, nexts⟩ := savedTxs.heads index old present
    refine ⟨nextblockhash, stored, nexts.trans ?_⟩
    obtain ⟨zero, single⟩ : start = 0 ∧ blocks.length = 1 := by
      by_contra other
      exact due ((succession.amendDue_iff starting).mpr ⟨fun none => by simp [none] at present, other⟩)
    have only : index = 0 := by
      have bound := (List.getElem?_eq_some_iff.mp present).1
      omega
    rw [recorded, recorded, if_pos ⟨zero, only⟩, if_pos ⟨zero, only⟩]

/-- An empty node that begins at a height. -/
structure Begins (start : UInt64) (node : Node) : Prop where
  db : node.db = .empty
  chain : node.chain.Fresh
  startingBlock : node.chain.startingBlock = start
  balance : node.balanceM.balance = .empty

/-- The balances that the blocks amount to. -/
def balancesOf (rt : Runtime) (wallet : Wallet) (blocks : List FullBlock) : Balances :=
  SyncMap.replayEntries .empty (blocks.flatMap fun block => blockWrites rt wallet block.txs)

/-- What holds when the block saver has taken a succession of blocks. -/
structure Took (rt : Runtime) (wallet : Wallet) (start : UInt64) (blocks : List FullBlock) (node : Node) : Prop where
  saved : SavedAs rt start blocks node.db
  linked : node.chain.Linked
  startingBlock : node.chain.startingBlock = start
  balance : node.balanceM.balance = balancesOf rt wallet blocks
  runs : ∀ block ∈ blocks, wallet.coinbase.isSome ∧ DepositsFilled block.txs

theorem blockWrites_buildHash (txs : List TxItr) :
    blockWrites rt wallet (txs.map (·.buildHash rt)) = blockWrites rt wallet txs := by
  simp only [blockWrites, List.flatMap_map, TxItr.buildHash_buildHash]

theorem Took.step {node next : Node} (succession : Succession rt start (blocks ++ [block]))
    (took : Took rt wallet start blocks node) (ran : saveNext rt wallet node block = some next) :
    Took rt wallet start (blocks ++ [block]) next := by
  have saved := took.saved.step succession took.startingBlock ran
  obtain ⟨turn, ended⟩ := saveNext_eq_some ran
  have hands := @saveBlockHead_handed rt wallet node block.vo
  rw [took.saved.handed succession took.startingBlock ended, turn] at hands
  have startingBlock : next.chain.startingBlock = start := by
    have same := @handle_startingBlock rt wallet node (.save block.vo)
    rw [handle, turn] at same
    exact same.trans took.startingBlock
  cases hands with
  | nothing unhanded => cases unhanded
  | panicked before bh txs isHanded same ran later panics => cases panics
  | added before after bh txs added isHanded same ran later =>
    cases isHanded
    have adds := addBlock_eq_some_iff.mp ran
    have linked := same.linked took.linked
    obtain ⟨coinbase, filled⟩ := (addBlock_isSome_iff linked).mp (by rw [ran]; rfl)
    refine ⟨saved, later.linked (adds.linked linked), startingBlock, ?_, fun old member => ?_⟩
    · rw [later.balanceM, adds.balanceM, same.balanceM]
      change node.balanceM.balance.replayEntries (blockWrites rt wallet (block.txs.map (·.buildHash rt))) = _
      rw [blockWrites_buildHash, took.balance, balancesOf, balancesOf, ← SyncMap.replayEntries_append,
        List.flatMap_append, List.flatMap_singleton]
    · rcases List.mem_append.mp member with member | member
      · exact took.runs old member
      · obtain rfl := List.mem_singleton.mp member
        refine ⟨coinbase, fun tx member deposit => ?_⟩
        have built := filled (tx.buildHash rt) (List.mem_map_of_mem member) (by rwa [TxItr.txClass_buildHash])
        rwa [TxItr.getVin_buildHash, TxItr.getVout_buildHash] at built

/-- A run of the block saver over a succession of blocks. -/
theorem took_of_saveAll {first node : Node} (begins : Begins start first) (succession : Succession rt start blocks)
    (ran : saveAll rt wallet first blocks = some node) : Took rt wallet start blocks node := by
  induction blocks using List.reverseRecOn generalizing node with
  | nil =>
    cases ran
    refine ⟨⟨by rw [begins.db]; exact allFiled_empty, ?_, ?_, ?_⟩, begins.chain.linked, begins.startingBlock,
      begins.balance, ?_⟩ <;> simp
  | append_singleton before block ih =>
    rw [saveAll, List.foldlM_append] at ran
    obtain ⟨middle, earlier, last⟩ := Option.bind_eq_some_iff.mp ran
    rw [List.foldlM_cons] at last
    obtain ⟨next, one, same⟩ := Option.bind_eq_some_iff.mp last
    cases same
    exact (ih succession.left earlier).step succession one

/-- A succession of blocks without transactions is taken to its end. -/
theorem saveAll_bare {first : Node} (begins : Begins start first) (coinbase : wallet.coinbase.isSome)
    (succession : Succession rt start blocks) (bare : ∀ block ∈ blocks, block.txs = []) :
    ∃ node, saveAll rt wallet first blocks = some node := by
  induction blocks using List.reverseRecOn with
  | nil => exact ⟨first, rfl⟩
  | append_singleton before block ih =>
    obtain ⟨node, ran⟩ := ih succession.left fun old member => bare old (List.mem_append_left _ member)
    have took := took_of_saveAll begins succession.left ran
    have noTxs := bare block (List.mem_append_right _ (List.mem_singleton_self _))
    have hands := @saveBlockHead_handed rt wallet node block.vo
    rw [took.saved.handed succession took.startingBlock (by rw [noTxs]; rfl), noTxs] at hands
    have exit := (hands.effect_of_noDeposit took.linked coinbase (by simp)).1
    refine ⟨(saveBlockHead rt wallet node block.vo).1, ?_⟩
    have step : saveNext rt wallet node block = some (saveBlockHead rt wallet node block.vo).1 := by
      unfold saveNext
      split
      · next turn => rw [turn]
      · next other => exact (other _ (Prod.ext rfl exit)).elim
    rw [saveAll] at ran ⊢
    rw [List.foldlM_append, ran, Option.bind_eq_bind, Option.bind_some, List.foldlM_cons, step]
    rfl

end Step

end PolarCloud.Mining
