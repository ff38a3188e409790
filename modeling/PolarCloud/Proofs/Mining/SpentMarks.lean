import PolarCloud.Proofs.Mining.Successors

/-! # Marks of spent outputs

A stored transaction carries a mark on each output that a saved payment or deposit spends. The
record is written again whenever the transaction arrives again, with the marks of the message, so
a mark stays only where the message carries it too.
-/

namespace PolarCloud.Mining

open Keystore

/-- The transaction carries a mark on an output. -/
def TxItr.Carries (tx : TxItr) (i : ℕ) : Prop := ∃ vout, tx.getVout[i]? = some vout ∧ vout.tx.isSome

/-- The stored record of a transaction carries a mark on an output. -/
def Marked (db : Db) (key : Bytes) (i : ℕ) : Prop := ∃ tx, StoredTx db key tx ∧ tx.Carries i

/-- A mark is there, arrives with one of the transactions, or is set by one of them. -/
def MayBeMarked (rt : Runtime) (db : Db) (txs : List TxItr) (key : Bytes) (i : ℕ) : Prop :=
  Marked db key i ∨ (∃ tx ∈ txs, tx.id rt = key ∧ tx.Carries i) ∨
    ∃ tx ∈ txs, tx.Spends ∧ ∃ vin ∈ tx.getVin, vin.txid = key ∧ vin.vout.toNat = i

/-- Each transaction arrives with every mark that its record may have by then, and no input names
the reserved key. -/
structure TxsCarry (rt : Runtime) (db : Db) (txs : List TxItr) : Prop where
  carries : ∀ before tx after, txs = before ++ tx :: after →
    ∀ i, MayBeMarked rt db before (tx.id rt) i → tx.Carries i
  reserved : ∀ tx ∈ txs, tx.Spends → ∀ vin ∈ tx.getVin, vin.txid ≠ Config.keyBlockStart

/-- The header, its parent and the record of the first block stand under no marked key. -/
structure HeadApart (rt : Runtime) (node : Node) (event : Event) (txs : List TxItr) (bh : BlockHead) : Prop where
  hash : ∀ i, ¬ MayBeMarked rt node.db txs bh.hash i
  parent : event.Amends node bh → bh.previousblockhash ≠ Config.keyBlockStart ∧
    ∀ i, ¬ MayBeMarked rt node.db txs bh.previousblockhash i
  first : event.first node bh = true → ∀ i, ¬ MayBeMarked rt node.db txs Config.keyBlockStart i

/-- The message that an event brings keeps every mark. -/
def MarkSafe (rt : Runtime) (node : Node) (event : Event) : Prop :=
  ∀ message, event.message? rt node.db = some message →
    TxsCarry rt node.db message.txs ∧ ∀ bh, message.bh = some bh → HeadApart rt node event message.txs bh

/-- One event whose message keeps every mark. -/
def MarkStep (rt : Runtime) (wallet : Wallet) (node next : Node) : Prop :=
  ∃ event, MarkSafe rt node event ∧ next = handle rt wallet node event

section Marks

variable {rt : Runtime} {wallet : Wallet} {node : Node}

/-- Setting a mark keeps the others. -/
theorem TxItr.Carries.marked {tx : TxItr} {i : ℕ} (carries : tx.Carries i) (index : UInt64) (txid : Bytes) :
    (tx.marked index txid).Carries i := by
  obtain ⟨vout, present, mark⟩ := carries
  rw [Carries, TxItr.getVout_marked, List.getElem?_modify, present]
  refine ⟨_, rfl, ?_⟩
  split
  · rfl
  · exact mark

/-- Setting a mark sets no other one. -/
theorem TxItr.carries_of_marked {tx : TxItr} {i : ℕ} {index : UInt64} {txid : Bytes}
    (carries : (tx.marked index txid).Carries i) : index.toNat = i ∨ tx.Carries i := by
  obtain ⟨vout, present, mark⟩ := carries
  rw [TxItr.getVout_marked, List.getElem?_modify] at present
  obtain ⟨old, here, rfl⟩ := Option.map_eq_some_iff.mp present
  split at mark
  · next same => exact .inl same
  · exact .inr ⟨old, here, mark⟩

theorem TxItr.carries_buildHash {tx : TxItr} {i : ℕ} : (tx.buildHash rt).Carries i ↔ tx.Carries i := by
  rw [Carries, Carries, TxItr.getVout_buildHash]

theorem MayBeMarked.mono {db : Db} {txs more : List TxItr} {key : Bytes} {i : ℕ}
    (may : MayBeMarked rt db txs key i) : MayBeMarked rt db (txs ++ more) key i := by
  rcases may with there | ⟨tx, member, carried⟩ | ⟨tx, member, spent⟩
  · exact .inl there
  · exact .inr (.inl ⟨tx, List.mem_append_left _ member, carried⟩)
  · exact .inr (.inr ⟨tx, List.mem_append_left _ member, spent⟩)

theorem marked_save_iff {db : Db} {key saved : Bytes} {value : Value} {i : ℕ} :
    Marked (db.save saved value) key i ↔
      if key = saved then ∃ tx : TxItr, tx.Typed ∧ value = tx.json ∧ tx.Carries i else Marked db key i := by
  simp only [Marked, StoredTx, Db.find_save]
  split
  · simp only [Option.some.injEq, and_assoc]
  · rfl

/-- A save of a transaction decides the marks under its key. -/
theorem marked_save_tx_iff {db : Db} {key saved : Bytes} {new : TxItr} (typed : new.Typed) {i : ℕ} :
    Marked (db.save saved new.json) key i ↔ if key = saved then new.Carries i else Marked db key i := by
  rw [marked_save_iff]
  split
  · exact ⟨fun ⟨tx, typed', same, carries⟩ => TxItr.json_inj typed typed' same ▸ carries,
      fun carries => ⟨new, typed, rfl, carries⟩⟩
  · rfl

/-- A save of a header clears the marks under its key and no others. -/
theorem marked_save_head_iff {db : Db} {key saved : Bytes} {bh : BlockHead} {i : ℕ} :
    Marked (db.save saved bh.json) key i ↔ key ≠ saved ∧ Marked db key i := by
  rw [marked_save_iff]
  split
  · next same =>
    simp only [same, ne_eq, not_true_eq_false, false_and, iff_false]
    rintro ⟨tx, -, clash, -⟩
    exact TxItr.json_ne_head tx bh clash.symm
  · next other => simp [other]

theorem marked_save_raw_iff {db : Db} {key saved hash : Bytes} {i : ℕ} :
    Marked (db.save saved (.raw hash)) key i ↔ key ≠ saved ∧ Marked db key i := by
  rw [marked_save_iff]
  split
  · next same => simp [same, TxItr.json]
  · next other => simp [other]

/-- What holds while the transactions of a block are saved: no mark is lost, and none appears that
was not there, brought or set. -/
private structure Keeps (rt : Runtime) (db : Db) (done : List TxItr) (now : Db) : Prop where
  filed : AllFiled now
  kept : ∀ key i, Marked db key i → Marked now key i
  known : ∀ key i, Marked now key i → MayBeMarked rt db done key i

private theorem saveTxs_marks {db : Db} (filed : AllFiled db) (skip : Bool) {txs : List TxItr}
    (typed : ∀ tx ∈ txs, tx.Typed) (carry : TxsCarry rt db txs) :
    ∃ before after, txs = before ++ after ∧ Keeps rt db before (saveTxs rt skip txs db).1 ∧
      ((saveTxs rt skip txs db).2 = .next → after = []) := by
  apply saveTxs_rule skip txs (P := Keeps rt db) _ _ ⟨filed, fun _ _ marked => marked, fun _ _ => .inl⟩
  · rintro before tx after now cut ⟨filed, kept, known⟩
    have member : tx ∈ txs := by rw [cut]; simp
    have typedTx : (tx.buildHash rt).Typed := (typed tx member).buildHash
    have new := Filed.tx (tx.buildHash rt) typedTx
    rw [TxItr.getHash_buildHash] at new
    refine ⟨filed.save new, fun key i marked => ?_, fun key i marked => ?_⟩
    · rw [marked_save_tx_iff typedTx]
      split
      · next same =>
        rw [TxItr.carries_buildHash]
        exact carry.carries before tx after cut i (same ▸ known key i (kept key i marked))
      · exact kept key i marked
    · rw [marked_save_tx_iff typedTx] at marked
      split at marked
      · next same =>
        exact .inr (.inl ⟨tx, by simp, same.symm, TxItr.carries_buildHash.mp marked⟩)
      · exact (known key i marked).mono
  · rintro before tx after now cut spends two input value spent ⟨filed, kept, known⟩ present read inside
    have member : tx ∈ txs := by rw [cut]; simp
    have outputs : spent.getVout ≠ [] := List.length_pos_iff.mp (by omega)
    obtain ⟨typedSpent, rfl, own⟩ | reserved := (filed _ _ present).read_tx read outputs
    · have typedMarked := typedSpent.marked two.vout (tx.id rt)
      have new := Filed.tx (spent.marked two.vout (tx.id rt)) typedMarked
      rw [TxItr.getHash_marked] at new
      refine ⟨filed.save new, fun key i marked => ?_, fun key i marked => ?_⟩
      · rw [marked_save_tx_iff typedMarked]
        split
        · next same =>
          obtain ⟨stored, ⟨typedStored, here⟩, carries⟩ := kept key i marked
          rw [same, own] at here
          obtain rfl := TxItr.json_inj typedSpent typedStored (Option.some.inj (present.symm.trans here))
          exact carries.marked _ _
        · exact kept key i marked
      · rw [marked_save_tx_iff typedMarked] at marked
        split at marked
        · next same =>
          rcases TxItr.carries_of_marked marked with here | carries
          · exact .inr (.inr ⟨tx, by simp, spends, two, input, own.symm.trans same.symm, here⟩)
          · exact known key i ⟨spent, ⟨typedSpent, by rw [same, own]; exact present⟩, carries⟩
        · exact known key i marked
    · exact absurd reserved (carry.reserved tx member spends two input)

/-- Saving the rest of a list goes on where the first part ended, unless it ended the turn. -/
theorem saveTxs_append (skip : Bool) (before after : List TxItr) (db : Db) :
    saveTxs rt skip (before ++ after) db =
      if (saveTxs rt skip before db).2 = .next then saveTxs rt skip after (saveTxs rt skip before db).1
      else saveTxs rt skip before db := by
  induction before generalizing db with
  | nil => rfl
  | cons tx rest ih =>
    simp only [List.cons_append, saveTxs]
    split
    · exact ih _
    · split
      · exact ih _
      · next ended => rw [if_neg]; exact fun same => ended _ (Prod.ext rfl same)

/-- What may be marked after a part of a block was saved may be marked with that part counted in. -/
private theorem Keeps.mayBe {db now : Db} {done more : List TxItr} (keeps : Keeps rt db done now) {key : Bytes} {i : ℕ}
    (may : MayBeMarked rt now more key i) : MayBeMarked rt db (done ++ more) key i := by
  rcases may with there | ⟨tx, member, carried⟩ | ⟨tx, member, spent⟩
  · exact (keeps.known key i there).mono
  · exact .inr (.inl ⟨tx, List.mem_append_right _ member, carried⟩)
  · exact .inr (.inr ⟨tx, List.mem_append_right _ member, spent⟩)

/-- No mark is lost between two points of the loop over a block. -/
private theorem saveTxs_between {db : Db} (filed : AllFiled db) (skip : Bool) {txs before after : List TxItr}
    (typed : ∀ tx ∈ txs, tx.Typed) (carry : TxsCarry rt db txs) (cut : txs = before ++ after) {key : Bytes} {i : ℕ}
    (marked : Marked (saveTxs rt skip before db).1 key i) : Marked (saveTxs rt skip txs db).1 key i := by
  subst cut
  rw [saveTxs_append]
  split
  · next ended =>
    have typedBefore : ∀ tx ∈ before, tx.Typed := fun tx member => typed tx (List.mem_append_left _ member)
    have carryBefore : TxsCarry rt db before :=
      ⟨fun first tx rest cut => carry.carries first tx (rest ++ after) (by rw [cut]; simp),
        fun tx member => carry.reserved tx (List.mem_append_left _ member)⟩
    obtain ⟨done, rest, whole, keeps, finished⟩ := saveTxs_marks filed skip typedBefore carryBefore
    rw [finished ended, List.append_nil] at whole
    subst whole
    have carryAfter : TxsCarry rt (saveTxs rt skip before db).1 after :=
      ⟨fun first tx rest cut i may => carry.carries (before ++ first) tx rest (by rw [cut]; simp) i (keeps.mayBe may),
        fun tx member => carry.reserved tx (List.mem_append_right _ member)⟩
    obtain ⟨_, _, -, later, -⟩ := saveTxs_marks keeps.filed skip
      (fun tx member => typed tx (List.mem_append_right _ member)) carryAfter
    exact later.kept key i marked
  · exact marked

/-- No mark is lost from any point of the loop over a block to the end of the event. -/
theorem marked_handle (filed : AllFiled node.db) {event : Event} (safe : MarkSafe rt node event) {message : Message}
    (brought : event.message? rt node.db = some message) {before after : List TxItr}
    (cut : message.txs = before ++ after) {key : Bytes} {i : ℕ}
    (marked : Marked (saveTxs rt event.skip before node.db).1 key i) :
    Marked (handle rt wallet node event).db key i := by
  obtain ⟨carry, apart⟩ := safe message brought
  have typed := Event.typed_of_message brought
  have saved := saveTxs_between filed event.skip typed carry cut marked
  obtain ⟨done, rest, whole, keeps, -⟩ := saveTxs_marks filed event.skip typed carry
  have may : MayBeMarked rt node.db message.txs key i := by
    rw [whole]
    exact (keeps.known key i saved).mono
  have keptHead {db : Db} {bh : BlockHead} (head : message.bh = some bh) (marked : Marked db key i) :
      Marked (Db.saveHead db bh (event.first node bh)) key i := by
    have apart := apart bh head
    have other : key ≠ bh.hash := fun same => apart.hash i (same ▸ may)
    unfold Db.saveHead
    dsimp only
    split
    · next first =>
      rw [marked_save_raw_iff, marked_save_head_iff]
      exact ⟨fun same => apart.first first i (same ▸ may), other, marked⟩
    · exact marked_save_head_iff.mpr ⟨other, marked⟩
  rcases @handle_db rt wallet node event with ⟨none, -⟩ | ⟨message', brought', imported⟩
  · cases none.symm.trans brought
  · obtain rfl : message = message' := Option.some.inj (brought.symm.trans brought')
    generalize (handle rt wallet node event).db = next at imported ⊢
    cases imported with
    | stopped => exact saved
    | plain bh head due ran => exact keptHead head saved
    | amended bh head due value parent ran present read =>
      obtain ⟨reserved, apartParent⟩ := (apart bh head).parent due
      have own : parent.hash = bh.previousblockhash := by
        rcases (keeps.filed _ _ present).read_head read with ⟨-, own⟩ | ⟨tx, -, -, -, only⟩ | clash
        · exact own
        · exact only.2
        · exact absurd clash reserved
      refine keptHead head (marked_save_head_iff.mpr ⟨fun same => ?_, saved⟩)
      exact apartParent i ((same.trans own) ▸ may)

/-- An event that keeps every mark loses none. -/
theorem marked_step (filed : AllFiled node.db) {event : Event} (safe : MarkSafe rt node event) {key : Bytes} {i : ℕ}
    (marked : Marked node.db key i) : Marked (handle rt wallet node event).db key i := by
  rcases @handle_db rt wallet node event with ⟨-, same⟩ | ⟨message, brought, -⟩
  · rwa [same]
  · have start : (saveTxs rt event.skip [] node.db).1 = node.db := rfl
    exact marked_handle filed safe brought (List.nil_append _).symm (start ▸ marked)

theorem allFiled_of_marks {start node : Node} (filed : AllFiled start.db)
    (reached : Relation.ReflTransGen (MarkStep rt wallet) start node) : AllFiled node.db := by
  induction reached with
  | refl => exact filed
  | tail _ step ih =>
    obtain ⟨event, -, rfl⟩ := step
    exact ih.after_handle event

end Marks

/-- In every run of imports whose messages keep the marks, a mark that the stored record of a
transaction carries in some state is carried in every later state, and so is a mark set between
two transactions of a block. -/
theorem marks_permanent {rt : Runtime} {wallet : Wallet} {start node : Node} (filed : AllFiled start.db)
    (reached : Relation.ReflTransGen (MarkStep rt wallet) start node) :
    (∀ later, Relation.ReflTransGen (MarkStep rt wallet) node later →
      ∀ key i, Marked node.db key i → Marked later.db key i) ∧
    ∀ event message before after, MarkSafe rt node event → event.message? rt node.db = some message →
      message.txs = before ++ after → ∀ key i, Marked (saveTxs rt event.skip before node.db).1 key i →
        Marked (handle rt wallet node event).db key i := by
  have filedNode := allFiled_of_marks filed reached
  refine ⟨fun later rest key i marked => ?_, fun event message before after safe brought cut key i =>
    marked_handle filedNode safe brought cut⟩
  induction rest with
  | refl => exact marked
  | tail before step ih =>
    obtain ⟨event, safe, rfl⟩ := step
    exact marked_step (allFiled_of_marks filedNode before) safe ih

/-! ## A source transaction delivered again -/

/-- Saving one spender whose source is stored. -/
theorem saveTxs_spender {rt : Runtime} {db : Db} {skip : Bool} {tx spent : TxItr} {vin : Vin} (spends : tx.Spends)
    (inputs : tx.getVin = [vin]) (stored : StoredTx (db.save (tx.id rt) (tx.buildHash rt).json) vin.txid spent)
    (inside : vin.vout.toNat < spent.getVout.length) :
    saveTxs rt skip [tx] db = ((db.save (tx.id rt) (tx.buildHash rt).json).save spent.getHash
      (spent.marked vin.vout (tx.id rt)).json, .next) := by
  obtain ⟨typed, present⟩ := stored
  have counts : ¬ (tx.txClass ≠ Config.walletTxTypeDepositIn ∧ tx.txClass ≠ Config.walletTxTypePay) := by
    unfold TxItr.Spends at spends
    tauto
  simp only [saveTxs, TxItr.txClass_buildHash, if_neg counts, TxItr.getHash_buildHash, TxItr.getVin_buildHash, inputs,
    markSpent, present, TxItr.parse_json rt typed, TxItr.setTxid, if_pos inside]
  rfl

namespace Sample

/-- A payment that spends the reward. -/
def spender : TxItr := .pay { type := 3, vinTotal := 1, vin? := some [{ txid? := some ((reward 0).id runtime) }] }

def spending : BlockHead := { hash? := some [5], height := 3, groupHeight := 1, previousblockhash? := some [2] }

/-- The block with the reward, and the block that spends it. -/
def rewarding : BlockHeadVO := ⟨some second, [reward 0], by decide⟩

def spent : BlockHeadVO := ⟨some spending, [spender], by decide⟩

theorem head_id_reward (rt : Runtime) (createTime : Int64) : ((reward createTime).id rt).head? = some 0 := rfl

theorem head_id_spender (rt : Runtime) : (spender.id rt).head? = some 3 := rfl

theorem id_reward_ne {rt : Runtime} {createTime : Int64} {key : Bytes} (other : key.head? ≠ some 0) :
    (reward createTime).id rt ≠ key := fun same => other (same ▸ head_id_reward rt createTime)

def sourceId : Bytes := (reward 0).id runtime

/-- The reward as it is stored, and as it is once its output is spent. -/
def sourceTx : TxItr := (reward 0).buildHash runtime

def spentSource : TxItr := sourceTx.marked 0 (spender.id runtime)

theorem id_source_ne {key : Bytes} (other : key.head? ≠ some 0) : sourceId ≠ key := id_reward_ne other

theorem id_spender_ne {key : Bytes} (other : key.head? ≠ some 3) : spender.id runtime ≠ key :=
  fun same => other (same ▸ head_id_spender runtime)

/-- The payment is saved, and then the reward with its mark. -/
theorem saveTxs_sourceTx {db : Db} (stored : db.find sourceId = some sourceTx.json) :
    saveTxs runtime true [spender] db =
      ((db.save (spender.id runtime) (spender.buildHash runtime).json).save sourceId spentSource.json, .next) := by
  have typed : sourceTx.Typed := TxItr.Typed.buildHash (show (reward 0).Typed by decide)
  have own : sourceTx.getHash = sourceId := TxItr.getHash_buildHash ..
  have present : (db.save (spender.id runtime) (spender.buildHash runtime).json).find sourceId = some sourceTx.json := by
    rw [Db.find_save_ne _ _ (id_source_ne (show (spender.id runtime).head? ≠ some 0 by decide)), stored]
  have ran := @saveTxs_spender runtime db true spender sourceTx { txid? := some sourceId } (.inr rfl) rfl ⟨typed, present⟩
    Nat.one_pos
  rw [own] at ran
  exact ran

/-- The block with the reward arrives, and then the one with the payment that marks it. -/
structure Marking (one two : Node) : Prop where
  first : one = handle runtime twoKeys atGenesis (.save rewarding)
  second : two = handle runtime twoKeys one (.save spent)
  starting : one.chain.startingBlock = 1 ∧ two.chain.startingBlock = 1
  dbFirst : one.db = ((atGenesis.db.save (sourceId) sourceTx.json).save [1]
    (genesis.addNext (some [2])).json).save [2] Sample.second.json
  dbSecond : two.db = (((one.db.save (spender.id runtime) (spender.buildHash runtime).json).save (sourceId)
    spentSource.json).save [2] (Sample.second.addNext (some [5])).json).save [5] spending.json

theorem marking : ∃ one two, Marking one two := by
  obtain ⟨one, isOne, startOne, dbOne⟩ := @saved_amended runtime twoKeys atGenesis
    (atGenesis.db.save (sourceId) sourceTx.json) rewarding second genesis rfl rfl (by decide) rfl
    ((Db.find_save_ne _ _ (id_source_ne (by decide)).symm).trans rfl)
  rw [Db.saveHead, if_neg Bool.false_ne_true] at dbOne
  have storedSource : one.db.find (sourceId) = some sourceTx.json := by
    rw [dbOne, Db.find_save_ne _ _ (id_source_ne (by decide)), Db.find_save_ne _ _ (id_source_ne (by decide)),
      Db.find_save_self]
  have ran := saveTxs_sourceTx storedSource
  have storedSecond : one.db.find [2] = some second.json := by
    rw [dbOne]
    exact Db.find_save_self _ _ _
  obtain ⟨two, isTwo, startTwo, dbTwo⟩ := @saved_amended runtime twoKeys one _ spent spending second startOne rfl
    (by decide) ran (by
      rw [Stored, Db.find_save_ne _ _ (id_source_ne (by decide)).symm, Db.find_save_ne _ _ (id_spender_ne (by decide)).symm]
      exact storedSecond)
  rw [Db.saveHead, if_neg Bool.false_ne_true] at dbTwo
  exact ⟨one, two, isOne, isTwo, ⟨startOne, startTwo⟩, dbOne, dbTwo⟩

namespace Marking

variable {one two : Node} (marking : Marking one two) {key : Bytes} {i : ℕ}

include marking

/-- Nothing is marked while the reward is not spent. -/
theorem not_marked : ¬ Marked one.db key i := by
  rw [marking.dbFirst, marked_save_head_iff, marked_save_head_iff, marked_save_tx_iff (by decide)]
  rintro ⟨-, -, marked⟩
  split at marked
  · obtain ⟨vout, present, mark⟩ := marked
    match i, present with
    | 0, present =>
      cases present
      cases mark
  · rw [atGenesis, genesisDb, Db.saveHead, if_pos rfl, marked_save_raw_iff, marked_save_head_iff] at marked
    obtain ⟨-, -, tx, ⟨-, present⟩, -⟩ := marked
    cases present

/-- The payment marks the output that it spends, and nothing else. -/
theorem marked_iff : Marked two.db key i ↔ key = sourceId ∧ i = 0 := by
  rw [marking.dbSecond, marked_save_head_iff, marked_save_head_iff, marked_save_tx_iff (by decide)]
  constructor
  · rintro ⟨-, -, marked⟩
    split at marked
    · next same =>
      refine ⟨same, ?_⟩
      obtain ⟨vout, present, -⟩ := marked
      have inside : i < 1 := (List.getElem?_eq_some_iff.mp present).1
      omega
    · rw [marked_save_tx_iff (by decide)] at marked
      split at marked
      · obtain ⟨vout, present, -⟩ := marked
        cases present
      · exact absurd marked marking.not_marked
  · rintro ⟨rfl, rfl⟩
    rw [if_pos rfl]
    exact ⟨id_source_ne (by decide), id_source_ne (by decide), _, rfl, rfl⟩

/-- The record of the first block is still there. -/
theorem find_genesis : two.db.find [1] = some (genesis.addNext (some [2])).json := by
  rw [marking.dbSecond, Db.find_save_ne _ _ (by decide), Db.find_save_ne _ _ (by decide),
    Db.find_save_ne _ _ (id_source_ne (by decide)).symm, Db.find_save_ne _ _ (id_spender_ne (by decide)).symm,
    marking.dbFirst, Db.find_save_ne _ _ (by decide)]
  exact Db.find_save_self _ _ _

end Marking

end Sample

/-- A block that arrives again clears the mark on the output it pays. -/
theorem marks_cleared : ∃ (start node later : Node) (key : Bytes) (i : ℕ),
    start.db = genesisDb Sample.genesis ∧ Relation.ReflTransGen (ImportStep Sample.runtime Sample.twoKeys) start node ∧
      Relation.ReflTransGen (ImportStep Sample.runtime Sample.twoKeys) node later ∧
        Marked node.db key i ∧ ¬ Marked later.db key i := by
  obtain ⟨one, two, marking⟩ := Sample.marking
  obtain ⟨three, isThree, -, dbThree⟩ := @Sample.saved_amended Sample.runtime Sample.twoKeys two
    (two.db.save (Sample.sourceId) Sample.sourceTx.json) Sample.rewarding Sample.second
    (Sample.genesis.addNext (some [2])) marking.starting.2 rfl (by decide) rfl
    ((Db.find_save_ne _ _ (Sample.id_source_ne (by decide)).symm).trans marking.find_genesis)
  rw [Db.saveHead, if_neg Bool.false_ne_true] at dbThree
  refine ⟨Sample.atGenesis, two, three, Sample.sourceId, 0, rfl,
    (Relation.ReflTransGen.single ⟨_, marking.first⟩).tail ⟨_, marking.second⟩, .single ⟨_, isThree⟩,
    marking.marked_iff.mpr ⟨rfl, rfl⟩, ?_⟩
  rw [dbThree, marked_save_head_iff, marked_save_head_iff, marked_save_tx_iff (by decide), if_pos rfl]
  rintro ⟨-, -, vout, present, mark⟩
  cases present
  cases mark

namespace Sample

/-- A message with one transaction, which carries the marks that its record has. -/
theorem markSafe_single {node : Node} {bh : BlockHead} {tx : TxItr} (typed : ∀ one ∈ [tx], one.Typed)
    (carries : ∀ i, Marked node.db (tx.id runtime) i → tx.Carries i)
    (reserved : tx.Spends → ∀ vin ∈ tx.getVin, vin.txid ≠ Config.keyBlockStart)
    (later : bh.height ≠ node.chain.startingBlock) (parent : bh.previousblockhash ≠ Config.keyBlockStart)
    (apart : ∀ key, key = bh.hash ∨ key = bh.previousblockhash → ∀ i, ¬ MayBeMarked runtime node.db [tx] key i) :
    MarkSafe runtime node (.save ⟨some bh, [tx], typed⟩) := by
  rintro message brought
  cases brought
  refine ⟨⟨fun before one after cut i may => ?_, List.forall_mem_singleton.mpr reserved⟩, fun other head => ?_⟩
  · cases before with
    | nil =>
      cases cut
      rcases may with marked | ⟨_, member, -⟩ | ⟨_, member, -⟩
      · exact carries i marked
      · cases member
      · cases member
    | cons first rest => exact absurd (congrArg List.length cut) (by simp)
  · cases head
    refine ⟨apart _ (.inl rfl), fun _ => ⟨parent, apart _ (.inr rfl)⟩, fun first => ?_⟩
    exact absurd (of_decide_eq_true first) later

/-- The reward with its mark, as a block that is read from a database brings it. -/
def rewardingAgain : BlockHeadVO := ⟨some second, [spentSource], by decide⟩

end Sample

/-- A payment marks the output that it spends, and the mark stays when the reward arrives again with it. -/
theorem marks_permanent_again : ∃ one two three : Node,
    Relation.ReflTransGen (MarkStep Sample.runtime Sample.twoKeys) Sample.atGenesis one ∧
      MarkStep Sample.runtime Sample.twoKeys one two ∧ MarkStep Sample.runtime Sample.twoKeys two three ∧
        ¬ Marked one.db Sample.sourceId 0 ∧ Marked two.db Sample.sourceId 0 ∧ Marked three.db Sample.sourceId 0 := by
  obtain ⟨one, two, marking⟩ := Sample.marking
  have unmarked (key : Bytes) (i : ℕ) : ¬ Marked Sample.atGenesis.db key i := by
    rw [Sample.atGenesis, genesisDb, Db.saveHead, if_pos rfl, marked_save_raw_iff, marked_save_head_iff]
    rintro ⟨-, -, tx, ⟨-, present⟩, -⟩
    cases present
  have noSpend : ¬ (Sample.reward 0).Spends := by unfold TxItr.Spends; decide
  have noSpend' : ¬ Sample.spentSource.Spends := by unfold TxItr.Spends; decide
  have again : Sample.spentSource.id Sample.runtime = Sample.sourceId := by
    rw [Sample.spentSource, TxItr.id_marked, Sample.sourceTx, TxItr.id_buildHash]
    rfl
  have stepOne : MarkStep Sample.runtime Sample.twoKeys Sample.atGenesis one := by
    refine ⟨.save Sample.rewarding, Sample.markSafe_single _ (fun i marked => absurd marked (unmarked _ i))
      (fun spends => absurd spends noSpend) (by decide) (by decide) ?_, marking.first⟩
    rintro key isKey i (marked | ⟨tx, member, same, -⟩ | ⟨tx, member, spends, -⟩)
    · exact unmarked key i marked
    · obtain rfl := List.mem_singleton.mp member
      rcases isKey with rfl | rfl
      · exact Sample.id_source_ne (by decide) same
      · exact Sample.id_source_ne (by decide) same
    · exact noSpend (List.mem_singleton.mp member ▸ spends)
  have stepTwo : MarkStep Sample.runtime Sample.twoKeys one two := by
    refine ⟨.save Sample.spent, Sample.markSafe_single _ (fun i marked => absurd marked marking.not_marked)
      (fun _ => List.forall_mem_singleton.mpr (Sample.id_source_ne (by decide)))
      (by rw [marking.starting.1]; decide) (by decide) ?_, marking.second⟩
    rintro key isKey i (marked | ⟨tx, member, -, vout, present, -⟩ | ⟨tx, member, -, vin, input, same, -⟩)
    · exact marking.not_marked marked
    · obtain rfl := List.mem_singleton.mp member
      cases present
    · obtain rfl := List.mem_singleton.mp member
      obtain rfl := List.mem_singleton.mp input
      rcases isKey with rfl | rfl
      · exact Sample.id_source_ne (by decide) same
      · exact Sample.id_source_ne (by decide) same
  have stepThree : MarkStep Sample.runtime Sample.twoKeys two
      (handle Sample.runtime Sample.twoKeys two (.save Sample.rewardingAgain)) := by
    refine ⟨.save Sample.rewardingAgain, Sample.markSafe_single _ (fun i marked => ?_)
      (fun spends => absurd spends noSpend') (by rw [marking.starting.2]; decide) (by decide) ?_, rfl⟩
    · obtain ⟨-, rfl⟩ := marking.marked_iff.mp marked
      exact ⟨_, rfl, rfl⟩
    · rintro key isKey i (marked | ⟨tx, member, same, -⟩ | ⟨tx, member, spends, -⟩)
      · have other := (marking.marked_iff.mp marked).1
        rcases isKey with rfl | rfl
        · exact Sample.id_source_ne (by decide) other.symm
        · exact Sample.id_source_ne (by decide) other.symm
      · obtain rfl := List.mem_singleton.mp member
        rw [again] at same
        rcases isKey with rfl | rfl
        · exact Sample.id_source_ne (by decide) same
        · exact Sample.id_source_ne (by decide) same
      · exact noSpend' (List.mem_singleton.mp member ▸ spends)
  have filed : AllFiled Sample.atGenesis.db := allFiled_empty.after_saveHead Sample.genesis true
  have marked : Marked two.db Sample.sourceId 0 := marking.marked_iff.mpr ⟨rfl, rfl⟩
  exact ⟨one, two, _, .single stepOne, stepTwo, stepThree, marking.not_marked, marked,
    (marks_permanent filed ((Relation.ReflTransGen.single stepOne).tail stepTwo)).1 _ (.single stepThree) _ _ marked⟩

end PolarCloud.Mining
