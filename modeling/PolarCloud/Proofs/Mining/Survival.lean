import PolarCloud.Model.Mining.Wire
import PolarCloud.Proofs.Mining.Handed
import PolarCloud.Proofs.Mining.ImportLog
import PolarCloud.Proofs.Mining.Successors

/-! # When a turn of the block saver comes to its end

Of a record the loop over the transactions sees little: whether it reads as a transaction, how many
outputs that has, and under which hash it is saved again. These outlines are followed through the
jobs of a block without its records, and decide whether the turn reaches the next message.
-/

namespace PolarCloud.Mining

open Keystore

/-- What the block saver sees of a record. -/
structure RecordOutline where
  /-- the outputs and the hash of the transaction it reads as -/
  tx : Option (ℕ × Bytes)
  /-- it reads as a header -/
  head : Bool
deriving DecidableEq, Repr

abbrev Outlines := SyncMap Bytes RecordOutline

section Outline

variable (rt : Runtime)

def outline (value : Value) : RecordOutline where
  tx := (parseTxBase rt value).map fun tx => (tx.getVout.length, tx.getHash)
  head := (parseBlockHead rt value).isSome

def outlines (db : Db) : Outlines := ⟨fun key => (db.load key).map (outline rt)⟩

/-- The outlines after a job. -/
def Job.outlined (records : Outlines) : Job → Outlines
  | save tx => records.store (tx.id rt) { tx := some (tx.getVout.length, tx.id rt), head := true }
  | mark _ two =>
      match (records.load two.txid).bind RecordOutline.tx with
      | none => records
      | some (outputs, hash) => records.store hash { tx := some (outputs, hash), head := true }

/-- The spent transaction is not stored, or it can be read and has the output. -/
def Job.Passes (records : Outlines) : Job → Prop
  | save _ => True
  | mark _ two => ∀ record, records.load two.txid = some record →
      ∃ found, record.tx = some found ∧ two.vout.toNat < found.1

instance (records : Outlines) : DecidablePred (Job.Passes records)
  | .save _ => .isTrue trivial
  | .mark _ two =>
      decidable_of_iff ((records.load two.txid).all fun record => record.tx.any fun found => two.vout.toNat < found.1)
        (by simp [Job.Passes, Option.all_eq_true, Option.any_eq_true])

/-- Each job passes with the outlines that the jobs before it leave. -/
def AllPass : List Job → Outlines → Prop
  | [], _ => True
  | job :: rest, records => job.Passes records ∧ AllPass rest (job.outlined rt records)

instance : (jobs : List Job) → (records : Outlines) → Decidable (AllPass rt jobs records)
  | [], _ => .isTrue trivial
  | job :: rest, records =>
      have := instDecidableAllPass rest (job.outlined rt records)
      inferInstanceAs (Decidable (_ ∧ _))

/-- The outlines after the transactions of a block. -/
def outlinesAfter (db : Db) (txs : List TxItr) : Outlines :=
  (txJobs rt txs).foldl (Job.outlined rt) (outlines rt db)

end Outline

section Follow

variable {rt : Runtime}

theorem load_outlines (db : Db) (key : Bytes) : (outlines rt db).load key = (db.find key).map (outline rt) := rfl

theorem outlines_save (db : Db) (key : Bytes) (value : Value) :
    outlines rt (db.save key value) = (outlines rt db).store key (outline rt value) := by
  apply SyncMap.ext
  funext other
  simp only [outlines, SyncMap.load_store]
  split <;> rfl

theorem outline_tx {tx : TxItr} (typed : tx.Typed) :
    outline rt tx.json = { tx := some (tx.getVout.length, tx.getHash), head := true } := by
  rw [outline, TxItr.parse_json rt typed, parseBlockHead_tx]
  rfl

theorem TxItr.length_getVout_marked (tx : TxItr) (index : UInt64) (txid : Bytes) :
    (tx.marked index txid).getVout.length = tx.getVout.length := by
  rw [getVout_marked, List.length_modify]

/-- What a job saves carries the class of its structure. -/
def Job.Typed : Job → Prop
  | save tx => tx.Typed
  | mark .. => True

theorem typed_txJobs {txs : List TxItr} (typed : ∀ tx ∈ txs, tx.Typed) : ∀ job ∈ txJobs rt txs, job.Typed := by
  intro job member
  obtain ⟨tx, inside, member⟩ := List.mem_flatMap.mp member
  rcases List.mem_cons.mp member with rfl | member
  · exact typed tx inside
  · split at member
    · obtain ⟨two, -, rfl⟩ := List.mem_map.mp member
      trivial
    · cases member

/-- A job goes on exactly when it passes, and then the outlines follow the database. -/
theorem Job.write_cases {job : Job} (typed : job.Typed) (db : Db) :
    (job.Passes (outlines rt db) ∧ ∃ written, job.write rt true db = .ok written ∧
      outlines rt (db.replay written) = job.outlined rt (outlines rt db)) ∨
    (¬ job.Passes (outlines rt db) ∧ ∃ exit, job.write rt true db = .error exit) := by
  cases job with
  | save tx =>
    refine .inl ⟨trivial, _, rfl, ?_⟩
    change outlines rt (db.save (tx.id rt) (tx.buildHash rt).json) = _
    rw [outlines_save, outline_tx (TxItr.Typed.buildHash typed), TxItr.getVout_buildHash, TxItr.getHash_buildHash]
    rfl
  | mark txid two =>
    simp only [write, Passes, outlined, load_outlines]
    cases present : db.find two.txid with
    | none => exact .inl ⟨fun record found => by simp at found, [], rfl, rfl⟩
    | some value =>
      simp only [Option.map_some, Option.some_inj, Option.bind_some, forall_eq', outline]
      cases read : parseTxBase rt value with
      | none =>
        refine .inr ⟨?_, .stop, rfl⟩
        rintro ⟨found, reads, -⟩
        cases reads
      | some spent =>
        simp only [Option.map_some, Option.some_inj, exists_eq_left']
        split
        · next inside =>
          refine .inl ⟨inside, _, rfl, ?_⟩
          change outlines rt (db.save spent.getHash (spent.marked two.vout txid).json) = _
          rw [outlines_save, outline_tx ((TxItr.typed_of_parse read).marked _ _), TxItr.length_getVout_marked,
            TxItr.getHash_marked]
        · next outside => exact .inr ⟨outside, .panic, rfl⟩

/-- The loop goes on to its end exactly when all jobs pass, and then the outlines follow. -/
theorem runJobs_next_iff {jobs : List Job} (typed : ∀ job ∈ jobs, job.Typed) (db : Db) :
    ((runJobs rt true jobs db).2 = .next ↔ AllPass rt jobs (outlines rt db)) ∧
      ((runJobs rt true jobs db).2 = .next →
        outlines rt (db.replay (runJobs rt true jobs db).1) = jobs.foldl (Job.outlined rt) (outlines rt db)) := by
  induction jobs generalizing db with
  | nil => exact ⟨by simp [runJobs, AllPass], fun _ => rfl⟩
  | cons job rest ih =>
    obtain ⟨here, later⟩ := List.forall_mem_cons.mp typed
    rcases @Job.write_cases rt job here db with ⟨passes, written, wrote, followed⟩ | ⟨fails, exit, wrote⟩
    · obtain ⟨goesOn, ended⟩ := ih later (db.replay written)
      rw [runJobs_ok wrote, AllPass, ← followed, SyncMap.replay_append, List.foldl_cons, ← followed]
      exact ⟨goesOn.trans (and_iff_right passes).symm, ended⟩
    · rw [runJobs_error wrote, AllPass]
      exact ⟨⟨fun ended => absurd ended (Job.exit_ne wrote), fun all => absurd all.1 fails⟩,
        fun ended => absurd ended (Job.exit_ne wrote)⟩

/-- The transactions are saved exactly when all their jobs pass. -/
theorem saveTxs_next_iff {txs : List TxItr} (typed : ∀ tx ∈ txs, tx.Typed) (db : Db) :
    ((saveTxs rt true txs db).2 = .next ↔ AllPass rt (txJobs rt txs) (outlines rt db)) ∧
      ((saveTxs rt true txs db).2 = .next → outlines rt (saveTxs rt true txs db).1 = outlinesAfter rt db txs) := by
  rw [saveTxs_eq]
  exact runJobs_next_iff (typed_txJobs typed) db

end Follow

/-! ## The turn -/

/-- The block that a message brings can be taken to the end of the turn. -/
structure Survivable (rt : Runtime) (wallet : Wallet) (node : Node) (bhvo : BlockHeadVO) : Prop where
  /-- every output that is spent is missing or can be marked -/
  inputs : AllPass rt (txJobs rt bhvo.txs) (outlines rt node.db)
  header : bhvo.bh.isSome
  /-- a parent that is due is missing or can be read -/
  parent : ∀ bh, bhvo.bh = some bh → amendDue node.chain bh → ∀ record,
    (outlinesAfter rt node.db bhvo.txs).load bh.previousblockhash = some record → record.head = true
  /-- a block that is handed over can be counted -/
  counted : ∀ bh, bhvo.bh = some bh →
    (amendDue node.chain bh → ((outlinesAfter rt node.db bhvo.txs).load bh.previousblockhash).isSome) →
      wallet.coinbase.isSome ∧ DepositsFilled bhvo.txs

section Turn

variable {rt : Runtime} {wallet : Wallet} {node : Node}

theorem depositsFilled_buildHash (txs : List TxItr) :
    DepositsFilled (txs.map (·.buildHash rt)) ↔ DepositsFilled txs := by
  simp [DepositsFilled]

/-- The last part of a turn panics exactly without a coinbase or with a deposit that is not filled. -/
theorem storeBlock_next_iff {bh : BlockHead} {txs : List TxItr} (linked : node.chain.Linked) :
    (storeBlock rt wallet node bh txs).2 = .next ↔ wallet.coinbase.isSome ∧ DepositsFilled txs := by
  have hands := @storeBlock_handed rt wallet node bh txs
  cases hands with
  | nothing unhanded => cases unhanded
  | panicked before bh' txs' isHanded same ran later panics =>
    cases isHanded
    rw [panics, ← @addBlock_isSome_iff rt wallet before bh txs (same.linked linked), ran]
    simp
  | added before after bh' txs' added isHanded same ran later goesOn =>
    cases isHanded
    rw [goesOn, ← @addBlock_isSome_iff rt wallet before bh txs (same.linked linked), ran]
    simp

/-- What remains to be asked once the transactions are saved. -/
theorem survivable_iff {bhvo : BlockHeadVO} {bh : BlockHead} (head : bhvo.bh = some bh)
    (pass : AllPass rt (txJobs rt bhvo.txs) (outlines rt node.db)) :
    Survivable rt wallet node bhvo ↔
      (amendDue node.chain bh → ∀ record,
        (outlinesAfter rt node.db bhvo.txs).load bh.previousblockhash = some record → record.head = true) ∧
      ((amendDue node.chain bh → ((outlinesAfter rt node.db bhvo.txs).load bh.previousblockhash).isSome) →
        wallet.coinbase.isSome ∧ DepositsFilled bhvo.txs) := by
  constructor
  · rintro ⟨-, -, parent, counted⟩
    exact ⟨parent bh head, counted bh head⟩
  · rintro ⟨parent, counted⟩
    refine ⟨pass, by rw [head]; rfl, ?_, ?_⟩
    · intro other same
      cases head.symm.trans same
      exact parent
    · intro other same
      cases head.symm.trans same
      exact counted

/-- A turn reaches the next message exactly when its block is survivable. -/
theorem saveBlockHead_next_iff (linked : node.chain.Linked) (bhvo : BlockHeadVO) :
    (saveBlockHead rt wallet node bhvo).2 = .next ↔ Survivable rt wallet node bhvo := by
  obtain ⟨all, followed⟩ := @saveTxs_next_iff rt bhvo.txs bhvo.typed node.db
  rcases ran : saveTxs rt true bhvo.txs node.db with ⟨db, exit⟩
  rw [ran] at all followed
  have ended (unfinished : exit ≠ .next) : ¬ Survivable rt wallet node bhvo :=
    fun survivable => unfinished (all.mpr survivable.inputs)
  have sameDb (db : Db) : Chain.Linked ({ node with db } : Node).chain := linked
  cases exit with
  | stop => simp [saveBlockHead, ran, ended]
  | panic => simp [saveBlockHead, ran, ended]
  | next =>
    have pass := all.mp rfl
    have after := followed rfl
    simp only [saveBlockHead, ran]
    cases head : bhvo.bh with
    | none =>
      constructor
      · intro panics
        cases panics
      · intro survivable
        have present := survivable.header
        rw [head] at present
        cases present
    | some bh =>
      have loaded : (outlinesAfter rt node.db bhvo.txs).load bh.previousblockhash =
          (Db.find db bh.previousblockhash).map (outline rt) := by rw [← after, load_outlines]
      rw [survivable_iff head pass, loaded]
      dsimp only
      by_cases due : amendDue node.chain bh
      · rw [if_pos due]
        cases present : Db.find db bh.previousblockhash with
        | none => simp [amendParent, present, due]
        | some value =>
          cases read : parseBlockHead rt value with
          | none => simp [amendParent, present, read, due, outline]
          | some parent =>
            simp only [amendParent, present, read, storeBlock_next_iff (sameDb _), depositsFilled_buildHash]
            simp [due, outline, read]
      · rw [if_neg due, storeBlock_next_iff (sameDb db), depositsFilled_buildHash]
        simp [due]

end Turn

/-! ## A message without a header -/

/-- The text of an empty object is a block, and the turn that takes it panics. -/
theorem empty_object_panics : ∃ (value : Value) (bhvo : BlockHeadVO),
    parseBlockHeadVO Sample.runtime value = some bhvo ∧
      (saveBlockHead Sample.runtime Sample.twoKeys {} bhvo).2 ≠ .next :=
  ⟨.text (.obj []), ⟨none, [], List.forall_mem_nil _⟩, rfl, by decide⟩

namespace Sample

/-- A payment that spends the reward, and a deposit that spends the output of the payment. -/
def remitted : TxItr := .pay
  { type := 3, vinTotal := 1, vin? := some [{ txid? := some ((reward 0).id runtime), puk? := some [2] }], voutTotal := 1,
    vout? := some [{ value := 4, address? := some coinbaseKey.hash }], gas := 1 }

def pledged : TxItr := .depositIn
  { type := Config.walletTxTypeDepositIn, vinTotal := 1, vin? := some [{ txid? := some (remitted.id runtime), puk? := some [1] }],
    voutTotal := 1, vout? := some [{ value := 4, address? := some [0, 1, 7] }] }

def pledging : BlockHeadVO := ⟨some second, [remitted, pledged], by decide⟩

/-- A node that holds the first block and the reward. -/
def atReward : Node :=
  { atGenesis with db := atGenesis.db.save ((reward 0).id runtime) ((reward 0).buildHash runtime).json }

end Sample

/-- The turn that takes a block with a payment and a deposit reaches the next message. -/
theorem deposit_block_survives :
    (saveBlockHead Sample.runtime Sample.twoKeys Sample.atReward Sample.pledging).2 = .next := by
  apply (saveBlockHead_next_iff (Chain.linked_empty 1 0 0) _).mpr
  have pass : AllPass Sample.runtime (txJobs Sample.runtime Sample.pledging.txs)
      (outlines Sample.runtime Sample.atReward.db) := by
    decide +kernel
  apply (@survivable_iff _ _ Sample.atReward Sample.pledging _ rfl pass).mpr
  have parent : ((outlinesAfter Sample.runtime Sample.atReward.db Sample.pledging.txs).load
      Sample.second.previousblockhash).all RecordOutline.head = true := by
    decide +kernel
  refine ⟨fun _ record found => ?_, fun _ => ⟨rfl, by decide +kernel⟩⟩
  rw [found] at parent
  exact parent

end PolarCloud.Mining
