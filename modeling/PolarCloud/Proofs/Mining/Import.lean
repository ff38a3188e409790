import PolarCloud.Proofs.Mining.AddBlock
import PolarCloud.Proofs.Mining.Records

/-! # The two import paths and the database

A broadcast and a synchronisation bring a message, a header with transactions. What becomes of
the database is stated once for both: the transactions are saved, and either the turn ends there,
or the header is saved, after its parent was amended where that is due.
-/

namespace PolarCloud.Mining

open Keystore

/-- A block arrives by broadcast, or is looked up and asked from a neighbour. -/
inductive Event where
  | save (bhvo : BlockHeadVO)
  | sync (neighbour : Neighbour) (bhash : Bytes)

/-- The header and the transactions that arrive. -/
structure Message where
  bh : Option BlockHead
  txs : List TxItr

namespace Event

/-- The message of an event; a synchronisation brings none for a block that is stored, or when the
neighbour's answers are no block. -/
def message? (rt : Runtime) (db : Db) : Event → Option Message
  | save bhvo => some { bh := bhvo.bh, txs := bhvo.txs }
  | sync neighbour bhash =>
      match (db.find bhash).bind (parseBlockHead rt), findBlockForNeighbor rt neighbour bhash with
      | none, .ok (bh, txs) => some { bh := some bh, txs }
      | _, _ => none

/-- Spent transactions that are missing are passed over. -/
def skip : Event → Bool
  | save _ => true
  | sync .. => false

/-- The parent of the block is to be amended. -/
def Amends (node : Node) (bh : BlockHead) : Event → Prop
  | save _ => amendDue node.chain bh
  | sync .. => 0 < node.chain.startingBlock

/-- The block is recorded as the first one. -/
def first (node : Node) (bh : BlockHead) : Event → Bool
  | save _ => bh.height = node.chain.startingBlock
  | sync .. => false

end Event

instance (event : Event) (node : Node) (bh : BlockHead) : Decidable (event.Amends node bh) := by
  cases event <;> (unfold Event.Amends; infer_instance)

/-- The key of the header that an event saves, with the ids of the transactions saved beside it. -/
def Event.savedWith (rt : Runtime) (node : Node) (event : Event) : Option (Bytes × List Bytes) :=
  match event.message? rt node.db with
  | some ⟨some bh, txs⟩ =>
      let (db, exit) := saveTxs rt event.skip txs node.db
      if exit = .next ∧ (event.Amends node bh →
          ((Db.find db bh.previousblockhash).bind (parseBlockHead rt)).isSome) then
        some (bh.hash, txs.map (·.id rt))
      else none
  | _ => none

/-- Take one event. -/
def handle (rt : Runtime) (wallet : Wallet) (node : Node) : Event → Node
  | .save bhvo => (saveBlockHead rt wallet node bhvo).1
  | .sync neighbour bhash => (syncBlockForDBAndNeighbor rt node neighbour bhash).1

/-- Save a header, and its hash where it is the first block. -/
def Db.saveHead (db : Db) (bh : BlockHead) (first : Bool) : Db :=
  let db := db.save bh.hash bh.json
  if first then db.save Config.keyBlockStart (.raw bh.hash) else db

theorem find_saveHead (db : Db) (bh : BlockHead) (first : Bool) (key : Bytes) :
    (Db.saveHead db bh first).find key = if first = true ∧ key = Config.keyBlockStart then some (.raw bh.hash)
      else if key = bh.hash then some bh.json else db.find key := by
  unfold Db.saveHead
  cases first with
  | false => simp [Db.find_save]
  | true => simp [Db.find_save]

/-- The database after an event that brought a message. -/
inductive Imported (rt : Runtime) (node : Node) (event : Event) (message : Message) : Db → Prop where
  /-- only transactions were saved -/
  | stopped (unsaved : event.message? rt node.db = some message → event.savedWith rt node = none) :
      Imported rt node event message (saveTxs rt event.skip message.txs node.db).1
  | plain (bh : BlockHead) (head : message.bh = some bh) (due : ¬ event.Amends node bh)
      (ran : (saveTxs rt event.skip message.txs node.db).2 = .next) :
      Imported rt node event message
        (Db.saveHead (saveTxs rt event.skip message.txs node.db).1 bh (event.first node bh))
  | amended (bh : BlockHead) (head : message.bh = some bh) (due : event.Amends node bh) (value : Value)
      (parent : BlockHead) (ran : (saveTxs rt event.skip message.txs node.db).2 = .next)
      (present : Db.find (saveTxs rt event.skip message.txs node.db).1 bh.previousblockhash = some value)
      (read : parseBlockHead rt value = some parent) :
      Imported rt node event message
        (Db.saveHead (Db.save (saveTxs rt event.skip message.txs node.db).1 parent.hash
          (parent.addNext bh.hash?).json) bh (event.first node bh))

section Handle

variable {rt : Runtime} {wallet : Wallet} {node : Node}

theorem addBlock_db {next : Node} {bh : BlockHead} {txs : List TxItr} {added : Bool}
    (ran : addBlock rt wallet node bh txs = some (next, added)) : next.db = node.db :=
  (addBlock_eq_some_iff.mp ran).db

theorem storeBlock_db (bh : BlockHead) (txs : List TxItr) :
    (storeBlock rt wallet node bh txs).1.db = Db.saveHead node.db bh (bh.height = node.chain.startingBlock) := by
  unfold storeBlock
  simp only [Db.saveHead, decide_eq_true_eq]
  split
  · rfl
  · next next added ran =>
    have same := addBlock_db ran
    split <;> exact same

/-- The two outcomes of amending a parent that matter to the database. -/
theorem amendParent_saved {db next : Db} {bh : BlockHead} (saved : amendParent rt db bh = .saved next) :
    ∃ value parent, db.find bh.previousblockhash = some value ∧ parseBlockHead rt value = some parent ∧
      next = db.save parent.hash (parent.addNext bh.hash?).json := by
  unfold amendParent at saved
  split at saved
  · cases saved
  · next value present =>
    split at saved
    · cases saved
    · next parent read =>
      cases saved
      exact ⟨value, parent, present, read, rfl⟩

/-- A header that arrives is saved when its transactions are and its parent, where due, is found. -/
theorem Event.savedWith_eq {event : Event} {bh : BlockHead} {txs : List TxItr}
    (brought : event.message? rt node.db = some ⟨some bh, txs⟩) :
    event.savedWith rt node =
      if (saveTxs rt event.skip txs node.db).2 = .next ∧ (event.Amends node bh →
          ((Db.find (saveTxs rt event.skip txs node.db).1 bh.previousblockhash).bind (parseBlockHead rt)).isSome) then
        some (bh.hash, txs.map (·.id rt))
      else none := by
  simp only [Event.savedWith, brought]

/-- A header that amends no parent is saved once its transactions are. -/
theorem Event.savedWith_plain {event : Event} {bh : BlockHead} {txs : List TxItr}
    (brought : event.message? rt node.db = some ⟨some bh, txs⟩) (due : ¬ event.Amends node bh)
    (ran : (saveTxs rt event.skip txs node.db).2 = .next) :
    event.savedWith rt node = some (bh.hash, txs.map (·.id rt)) := by
  rw [savedWith_eq brought, if_pos ⟨ran, fun amends => absurd amends due⟩]

/-- A header whose parent is read is saved once its transactions are. -/
theorem Event.savedWith_amended {event : Event} {bh parent : BlockHead} {txs : List TxItr} {value : Value}
    (brought : event.message? rt node.db = some ⟨some bh, txs⟩) (ran : (saveTxs rt event.skip txs node.db).2 = .next)
    (present : Db.find (saveTxs rt event.skip txs node.db).1 bh.previousblockhash = some value)
    (read : parseBlockHead rt value = some parent) :
    event.savedWith rt node = some (bh.hash, txs.map (·.id rt)) := by
  rw [savedWith_eq brought, if_pos ⟨ran, fun _ => by rw [present, Option.bind_some, read]; rfl⟩]

/-- The other outcomes of amending a parent: there is no header to be read. -/
theorem amendParent_failed {db : Db} {bh : BlockHead}
    (failed : amendParent rt db bh = .missing ∨ amendParent rt db bh = .unreadable) :
    ((db.find bh.previousblockhash).bind (parseBlockHead rt)).isSome = false := by
  unfold amendParent at failed
  split at failed
  · next absent => rw [absent]; rfl
  · next value present =>
    split at failed
    · next unreadable => rw [present, Option.bind_some, unreadable]; rfl
    · rcases failed with failed | failed <;> cases failed

/-- One turn of the block saver: it ends before the header is saved, or with the last part, on the
database in which the transactions are saved and a due parent is amended. -/
inductive SaveTurn (rt : Runtime) (wallet : Wallet) (node : Node) (bhvo : BlockHeadVO) : Prop where
  | stopped (unsaved : Event.savedWith rt node (.save bhvo) = none)
      (turn : (saveBlockHead rt wallet node bhvo).1 = { node with db := (saveTxs rt true bhvo.txs node.db).1 })
  | plain (bh : BlockHead) (head : bhvo.bh = some bh) (due : ¬ amendDue node.chain bh)
      (ran : (saveTxs rt true bhvo.txs node.db).2 = .next)
      (turn : saveBlockHead rt wallet node bhvo =
        storeBlock rt wallet { node with db := (saveTxs rt true bhvo.txs node.db).1 } bh
          (bhvo.txs.map (·.buildHash rt)))
  | amended (bh : BlockHead) (head : bhvo.bh = some bh) (due : amendDue node.chain bh) (value : Value)
      (parent : BlockHead) (ran : (saveTxs rt true bhvo.txs node.db).2 = .next)
      (present : Db.find (saveTxs rt true bhvo.txs node.db).1 bh.previousblockhash = some value)
      (read : parseBlockHead rt value = some parent)
      (turn : saveBlockHead rt wallet node bhvo = storeBlock rt wallet
        { node with db := Db.save (saveTxs rt true bhvo.txs node.db).1 parent.hash (parent.addNext bh.hash?).json } bh
          (bhvo.txs.map (·.buildHash rt)))

theorem saveBlockHead_turn (bhvo : BlockHeadVO) : SaveTurn rt wallet node bhvo := by
  have savedWith (bh : BlockHead) (head : bhvo.bh = some bh) :=
    @Event.savedWith_eq rt node (.save bhvo) bh bhvo.txs (by simp only [Event.message?, head])
  rcases ran : saveTxs rt true bhvo.txs node.db with ⟨db, exit⟩
  have saves : (saveTxs rt true bhvo.txs node.db).1 = db := by rw [ran]
  have exits : (saveTxs rt true bhvo.txs node.db).2 = exit := by rw [ran]
  have interrupted (ended : exit ≠ .next) : Event.savedWith rt node (.save bhvo) = none := by
    cases head : bhvo.bh with
    | none => simp only [Event.savedWith, Event.message?, head]
    | some bh =>
      rw [savedWith bh head, if_neg]
      exact fun both => ended (exits.symm.trans both.1)
  cases exit with
  | stop => exact .stopped (interrupted (by simp)) (by simp only [saveBlockHead, ran])
  | panic => exact .stopped (interrupted (by simp)) (by simp only [saveBlockHead, ran])
  | next =>
    cases head : bhvo.bh with
    | none =>
      exact .stopped (by simp only [Event.savedWith, Event.message?, head]) (by simp only [saveBlockHead, ran, head])
    | some bh =>
      by_cases due : amendDue node.chain bh
      · have failed (failed : amendParent rt db bh = .missing ∨ amendParent rt db bh = .unreadable) :
            Event.savedWith rt node (.save bhvo) = none := by
          rw [savedWith bh head, if_neg]
          rintro ⟨-, readable⟩
          have readable := readable due
          simp only [Event.skip, saves] at readable
          cases (amendParent_failed failed).symm.trans readable
        cases outcome : amendParent rt db bh with
        | missing =>
          exact .stopped (failed (.inl outcome)) (by simp only [saveBlockHead, ran, head, if_pos due, outcome])
        | unreadable =>
          exact .stopped (failed (.inr outcome)) (by simp only [saveBlockHead, ran, head, if_pos due, outcome])
        | saved next =>
          obtain ⟨value, parent, present, read, rfl⟩ := amendParent_saved outcome
          refine .amended bh head due value parent exits (by rw [saves]; exact present) read ?_
          simp only [saveBlockHead, ran, head, if_pos due, outcome]
      · exact .plain bh head due exits (by simp only [saveBlockHead, ran, head, if_neg due])

theorem saveBlockHead_imported (bhvo : BlockHeadVO) :
    Imported rt node (.save bhvo) ⟨bhvo.bh, bhvo.txs⟩ (saveBlockHead rt wallet node bhvo).1.db := by
  cases @saveBlockHead_turn rt wallet node bhvo with
  | stopped unsaved turn =>
    rw [turn]
    exact .stopped fun _ => unsaved
  | plain bh head due ran turn =>
    rw [turn, storeBlock_db]
    have due : ¬ Event.Amends node bh (.save bhvo) := due
    exact .plain bh head due ran
  | amended bh head due value parent ran present read turn =>
    rw [turn, storeBlock_db]
    have due : Event.Amends node bh (.save bhvo) := due
    exact .amended bh head due value parent ran present read

/-- The database after a broadcast block whose stored parent is amended. -/
theorem saveBlockHead_db_amended {bhvo : BlockHeadVO} {bh parent : BlockHead} {db : Db}
    (ran : saveTxs rt true bhvo.txs node.db = (db, .next)) (head : bhvo.bh = some bh)
    (due : amendDue node.chain bh) (stored : Stored db bh.previousblockhash parent) :
    (saveBlockHead rt wallet node bhvo).1.db =
      Db.saveHead (db.save parent.hash (parent.addNext bh.hash?).json) bh (bh.height = node.chain.startingBlock) := by
  have read : db.find bh.previousblockhash = some parent.json := stored
  simp only [saveBlockHead, ran, head, if_pos due, amendParent, read, BlockHead.parse_json, storeBlock_db,
    BlockHead.hash_addNext]

/-- The database after a broadcast block that amends no parent. -/
theorem saveBlockHead_db_plain {bhvo : BlockHeadVO} {bh : BlockHead} {db : Db}
    (ran : saveTxs rt true bhvo.txs node.db = (db, .next)) (head : bhvo.bh = some bh)
    (due : ¬ amendDue node.chain bh) :
    (saveBlockHead rt wallet node bhvo).1.db = Db.saveHead db bh (bh.height = node.chain.startingBlock) := by
  simp only [saveBlockHead, ran, head, if_neg due, storeBlock_db]

theorem importBlock_imported {neighbour : Neighbour} {bhash : Bytes} {bh : BlockHead} {txs : List TxItr}
    (brought : Event.message? rt node.db (.sync neighbour bhash) = some ⟨some bh, txs⟩) :
    Imported rt node (.sync neighbour bhash) ⟨some bh, txs⟩ (importBlock rt node bh txs).1.db := by
  have savedWith := Event.savedWith_eq brought
  have stopped (unsaved : Event.savedWith rt node (.sync neighbour bhash) = none) :
      Imported rt node (.sync neighbour bhash) ⟨some bh, txs⟩ (saveTxs rt false txs node.db).1 :=
    .stopped fun _ => unsaved
  have interrupted (ended : (saveTxs rt false txs node.db).2 ≠ .next) :
      Event.savedWith rt node (.sync neighbour bhash) = none := by
    rw [savedWith, if_neg]
    exact fun both => ended both.1
  unfold importBlock
  split
  · next db ran =>
    have same : (saveTxs rt false txs node.db).1 = db := by rw [ran]
    have ended : (saveTxs rt false txs node.db).2 = .next := by rw [ran]
    rw [same] at stopped
    dsimp only
    split
    · next due =>
      have due : Event.Amends node bh (.sync neighbour bhash) := due
      split
      · next saved amended =>
        obtain ⟨value, parent, present, read, rfl⟩ := amendParent_saved amended
        have amended : Imported rt node (.sync neighbour bhash) ⟨some bh, txs⟩ _ :=
          .amended bh rfl due value parent ended (same ▸ present) read
        simpa only [Event.skip, same, Db.saveHead, Event.first, Bool.false_eq_true, if_false] using amended
      · next failed =>
        refine stopped ?_
        rw [savedWith, if_neg]
        rintro ⟨-, readable⟩
        have readable := readable due
        simp only [Event.skip, same] at readable
        have failed : amendParent rt db bh = .missing ∨ amendParent rt db bh = .unreadable := by
          cases outcome : amendParent rt db bh with
          | missing => exact .inl rfl
          | unreadable => exact .inr rfl
          | saved next => exact (failed next outcome).elim
        cases (amendParent_failed failed).symm.trans readable
    · next due =>
      have plain : Imported rt node (.sync neighbour bhash) ⟨some bh, txs⟩ _ :=
        .plain bh rfl (show ¬ Event.Amends node bh (.sync neighbour bhash) from due) ended
      simpa only [Event.skip, same, Db.saveHead, Event.first, Bool.false_eq_true, if_false] using plain
  · next db ran =>
    have same : (saveTxs rt false txs node.db).1 = db := by rw [ran]
    rw [same] at stopped
    exact stopped (interrupted (by rw [ran]; simp))
  · next db ran =>
    have same : (saveTxs rt false txs node.db).1 = db := by rw [ran]
    rw [same] at stopped
    exact stopped (interrupted (by rw [ran]; simp))

/-- The database after any event. -/
theorem handle_db (event : Event) :
    (event.message? rt node.db = none ∧ (handle rt wallet node event).db = node.db) ∨
      ∃ message, event.message? rt node.db = some message ∧
        Imported rt node event message (handle rt wallet node event).db := by
  cases event with
  | save bhvo => exact .inr ⟨_, rfl, saveBlockHead_imported bhvo⟩
  | sync neighbour bhash =>
    simp only [handle, syncBlockForDBAndNeighbor]
    cases lookup : (node.db.find bhash).bind (parseBlockHead rt) with
    | some bh => exact .inl ⟨by simp only [Event.message?, lookup], rfl⟩
    | none =>
      cases answer : findBlockForNeighbor rt neighbour bhash with
      | ok block =>
        have brought : Event.message? rt node.db (.sync neighbour bhash) = some ⟨some block.1, block.2⟩ := by
          simp only [Event.message?, lookup, answer]
        exact .inr ⟨⟨some block.1, block.2⟩, brought, importBlock_imported brought⟩
      | error => exact .inl ⟨by simp only [Event.message?, lookup, answer], rfl⟩
      | panic => exact .inl ⟨by simp only [Event.message?, lookup, answer], rfl⟩

/-- The transactions of every message carry the class of their structure. -/
theorem Event.typed_of_message {event : Event} {db : Db} {message : Message}
    (brought : event.message? rt db = some message) : ∀ tx ∈ message.txs, tx.Typed := by
  have asked (neighbour : Neighbour) (request : ℕ) (txids : List Bytes) (txs : List TxItr)
      (found : findTxs rt neighbour request txids = .ok txs) : ∀ tx ∈ txs, tx.Typed := by
    induction txids generalizing request txs with
    | nil =>
      cases found
      simp
    | cons txid rest ih =>
      rw [findTxs] at found
      split at found
      · cases found
      · split at found
        · cases found
        · next first read =>
          split at found
          · next later answered =>
            cases found
            exact List.forall_mem_cons.mpr ⟨TxItr.typed_of_parse read, ih _ _ answered⟩
          · next failed => exact (failed _ found).elim
  cases event with
  | save bhvo =>
    cases brought
    exact bhvo.typed
  | sync neighbour bhash =>
    simp only [Event.message?] at brought
    split at brought
    · next bh txs absent answered =>
      cases brought
      simp only [findBlockForNeighbor] at answered
      split at answered
      · cases answered
      · split at answered
        · cases answered
        · split at answered
          · next later found =>
            cases answered
            exact asked neighbour 1 _ _ found
          · cases answered
          · cases answered
    · cases brought

/-- Saving a header files it, and the record of the first block. -/
theorem AllFiled.after_saveHead {db : Db} (filed : AllFiled db) (bh : BlockHead) (first : Bool) :
    AllFiled (Db.saveHead db bh first) := by
  unfold Db.saveHead
  dsimp only
  split
  · exact (filed.save (.head bh)).save (.start _)
  · exact filed.save (.head bh)

/-- Every event keeps the records filed. -/
theorem AllFiled.after_handle (filed : AllFiled node.db) (event : Event) :
    AllFiled (handle rt wallet node event).db := by
  rcases @handle_db rt wallet node event with ⟨-, same⟩ | ⟨message, brought, imported⟩
  · rw [same]
    exact filed
  · have saved : AllFiled (saveTxs rt event.skip message.txs node.db).1 :=
      filed.after_saveTxs (Event.typed_of_message brought)
    generalize (handle rt wallet node event).db = after at imported ⊢
    cases imported with
    | stopped => exact saved
    | plain bh => exact saved.after_saveHead bh _
    | amended bh _ _ value parent => exact (saved.save (.head (parent.addNext bh.hash?))).after_saveHead bh _

theorem linkBlock_startingBlock {chain next : Chain} {bh : BlockHead} {depositTx : List TxItr} {added : Bool}
    (ran : chain.linkBlock bh depositTx = some (next, added)) : next.startingBlock = chain.startingBlock := by
  unfold Chain.linkBlock at ran
  split at ran
  · cases ran
    rfl
  · simp only [Option.bind_eq_bind, Option.bind_eq_some_iff] at ran
    obtain ⟨_, -, _, -, _, -, _, -, _, -, ran⟩ := ran
    split at ran
    · cases ran
      rfl
    · split at ran <;> (cases ran; rfl)

theorem storeBlock_startingBlock (node : Node) (bh : BlockHead) (txs : List TxItr) :
    (storeBlock rt wallet node bh txs).1.chain.startingBlock = node.chain.startingBlock := by
  have current : (if node.chain.currentBlock + 1 = bh.height then { node.chain with currentBlock := bh.height }
      else node.chain).startingBlock = node.chain.startingBlock := by split <;> rfl
  unfold storeBlock
  dsimp only
  split
  · exact current
  · next next added ran =>
    obtain ⟨depositTx, -, link⟩ := (addBlock_eq_some_iff.mp ran).deposits
    have kept := (linkBlock_startingBlock link).trans current
    split <;> exact kept

/-- No event changes the height of the first block. -/
theorem handle_startingBlock (event : Event) :
    (handle rt wallet node event).chain.startingBlock = node.chain.startingBlock := by
  cases event with
  | save bhvo =>
    rw [handle]
    cases @saveBlockHead_turn rt wallet node bhvo with
    | stopped unsaved turn => rw [turn]
    | plain bh head due ran turn => rw [turn, storeBlock_startingBlock]
    | amended bh head due value parent ran present read turn => rw [turn, storeBlock_startingBlock]
  | sync neighbour bhash =>
    simp only [handle, syncBlockForDBAndNeighbor]
    split
    · rfl
    · split
      · rfl
      · rfl
      · unfold importBlock
        split
        · dsimp only
          split
          · split <;> rfl
          · rfl
        · rfl
        · rfl

end Handle

end PolarCloud.Mining
