import PolarCloud.Proofs.Mining.SpentMarks

/-! # Content addressing of the block store

The key of a header, the hash it carries, its list of transaction ids and the transactions beside
it all come from the message. They agree in every state as long as each message makes them agree
and no header is amended under the key of another kind of record.
-/

namespace PolarCloud.Mining

open Keystore

/-- An import, or the refresh of the last block from a neighbour. -/
inductive PeerEvent where
  | block (event : Event)
  | refresh (start : Option Bytes) (neighbour : Neighbour)

/-- The key of each header saved, with the ids of the transactions saved with it. -/
abbrev SaveLog := List (Bytes × List Bytes)

/-- The header that a refresh saves: the answer, where it lists successors. -/
def refreshed? (rt : Runtime) (node : Node) (start : Option Bytes) (neighbour : Neighbour) :
    Option (Bytes × BlockHead) := do
  let bhash ← refreshKey node start
  let bs ← neighbour 0 bhash
  let bh ← parseBlockHead rt bs
  if bh.nextblockhash = none then none else some (bhash, bh)

/-- The node after an event, with the log of the headers it saved. A refresh saves no transactions,
so a header that it saves under a new key has none beside it. -/
def handlePeer (rt : Runtime) (wallet : Wallet) (state : Node × SaveLog) : PeerEvent → Node × SaveLog
  | .block event => (handle rt wallet state.1 event, state.2 ++ (event.savedWith rt state.1).toList)
  | .refresh start neighbour =>
      ((overwriteLast rt state.1 start neighbour).1,
        state.2 ++ match refreshed? rt state.1 start neighbour with
          | some (bhash, _) => if (state.1.db.find bhash).isNone then [(bhash, [])] else []
          | none => [])

/-- Every header stands under the hash of its content, and lists the transactions that were last
saved with it. -/
def ContentAddressed (rt : Runtime) (db : Db) (log : SaveLog) : Prop :=
  ∀ key bh, Stored db key bh → key = bh.contentHash rt ∧ lastWrite log key = some bh.tx

/-- The message's header carries the hash of its content and lists the transactions beside it, and
its parent is not the record of a transaction or of the first block. -/
structure HeadHonest (rt : Runtime) (node : Node) (event : Event) (txs : List TxItr) (bh : BlockHead) : Prop where
  check : bh.check rt = true
  tx : bh.tx = txs.map (·.id rt)
  parent : event.Amends node bh → bh.previousblockhash ≠ Config.keyBlockStart ∧
    (∀ tx, ¬ StoredTx node.db bh.previousblockhash tx) ∧
      (∀ tx ∈ txs, tx.id rt ≠ bh.previousblockhash) ∧
        ∀ tx ∈ txs, tx.Spends → ∀ vin ∈ tx.getVin, vin.txid ≠ Config.keyBlockStart

/-- A refresh saves the header of the block it asked for, with the transactions it is stored with. -/
structure RefreshHonest (rt : Runtime) (db : Db) (bhash : Bytes) (bh : BlockHead) : Prop where
  check : bh.check rt = true
  asked : bh.hash = bhash
  known : ∀ value, db.find bhash = some value → ∃ old : BlockHead, value = old.json ∧ bh.tx = old.tx
  new : db.find bhash = none → bh.tx = []

/-- The messages of an event tie key, content and transactions together. -/
def Honest (rt : Runtime) (node : Node) : PeerEvent → Prop
  | .block event => ∀ bh txs, event.message? rt node.db = some ⟨some bh, txs⟩ → HeadHonest rt node event txs bh
  | .refresh start neighbour => ∀ bhash bh, refreshed? rt node start neighbour = some (bhash, bh) →
      RefreshHonest rt node.db bhash bh

/-- One event, whatever it brings. -/
def PeerStep (rt : Runtime) (wallet : Wallet) (state next : Node × SaveLog) : Prop :=
  ∃ event, next = handlePeer rt wallet state event

/-- One event whose messages are honest. -/
def HonestStep (rt : Runtime) (wallet : Wallet) (state next : Node × SaveLog) : Prop :=
  ∃ event, Honest rt state.1 event ∧ next = handlePeer rt wallet state event

section Step

variable {rt : Runtime} {wallet : Wallet} {node : Node}

theorem overwriteLast_db (start : Option Bytes) (neighbour : Neighbour) :
    (overwriteLast rt node start neighbour).1.db =
      match refreshed? rt node start neighbour with
      | some (bhash, bh) => node.db.save bhash bh.json
      | none => node.db := by
  unfold overwriteLast
  cases asked : refreshKey node start with
  | none => simp [refreshed?, asked]
  | some bhash =>
    cases answer : neighbour 0 bhash with
    | none => simp [refreshed?, asked, answer]
    | some bs =>
      cases read : parseBlockHead rt bs with
      | none => simp [refreshed?, asked, answer, read]
      | some bh => cases nexts : bh.nextblockhash <;> simp [refreshed?, asked, answer, read, nexts]

theorem handlePeer_save_db (state : Node × SaveLog) (bhvo : BlockHeadVO) :
    (handlePeer rt wallet state (.block (.save bhvo))).1.db = (saveBlockHead rt wallet state.1 bhvo).1.db := rfl

/-- Saving transactions leaves no header that was not there. -/
theorem stored_of_saveTxs {db : Db} {skip : Bool} {txs : List TxItr} {key : Bytes} {bh : BlockHead}
    (stored : Stored (saveTxs rt skip txs db).1 key bh) : Stored db key bh := by
  have kept := @saveTxs_keeps rt skip txs (fun now => ∀ bh, Stored now key bh → Stored db key bh)
    (fun tx _ now kept bh stored => kept bh (stored_save_tx_iff.mp stored).2)
    (fun tx _ _ two _ now value spent kept _ _ _ bh stored => kept bh (stored_save_tx_iff.mp stored).2)
    db (fun _ stored => stored)
  exact kept bh stored

/-- What holds in every state that is reached. -/
structure Addressed (rt : Runtime) (state : Node × SaveLog) : Prop where
  filed : AllFiled state.1.db
  content : ContentAddressed rt state.1.db state.2

/-- A header saved under the hash of its content, with its transactions. -/
private theorem ContentAddressed.saveHead {db : Db} {log : SaveLog} {bh : BlockHead} {first : Bool}
    (content : ∀ key other, key ≠ bh.hash → Stored db key other →
      key = other.contentHash rt ∧ lastWrite log key = some other.tx)
    (check : bh.check rt = true) :
    ContentAddressed rt (Db.saveHead db bh first) (log ++ [(bh.hash, bh.tx)]) := by
  have own : bh.hash = bh.contentHash rt := BlockHead.check_iff.mp check
  have saved (key : Bytes) (other : BlockHead) (stored : Stored (db.save bh.hash bh.json) key other) :
      key = other.contentHash rt ∧ lastWrite (log ++ [(bh.hash, bh.tx)]) key = some other.tx := by
    rw [stored_save_head_iff] at stored
    rw [lastWrite_append]
    split at stored
    · next same =>
      subst same stored
      exact ⟨own, by simp [lastWrite]⟩
    · next other' =>
      obtain ⟨address, written⟩ := content key other other' stored
      exact ⟨address, by simp [lastWrite, other', written]⟩
  intro key other stored
  unfold Db.saveHead at stored
  dsimp only at stored
  split at stored
  · exact saved key other (stored_save_raw_iff.mp stored).2
  · exact saved key other stored

/-- The parent that an honest message amends is a stored header. -/
private theorem parent_of_honest (filed : AllFiled node.db) {event : Event} {bh : BlockHead} {txs : List TxItr}
    (typed : ∀ tx ∈ txs, tx.Typed) (honest : HeadHonest rt node event txs bh) (due : event.Amends node bh)
    {value : Value} {parent : BlockHead}
    (present : Db.find (saveTxs rt event.skip txs node.db).1 bh.previousblockhash = some value)
    (read : parseBlockHead rt value = some parent) :
    parent.hash = bh.previousblockhash ∧ Stored node.db bh.previousblockhash parent := by
  obtain ⟨reserved, noTx, apart, inputs⟩ := honest.parent due
  have kept := @saveTxs_keeps rt event.skip txs
    (fun now => AllFiled now ∧ ∀ tx, ¬ StoredTx now bh.previousblockhash tx) ?_ ?_ node.db ⟨filed, noTx⟩
  · rcases (kept.1 _ _ present).read_head read with ⟨rfl, own⟩ | ⟨tx, typedTx, rfl, -, -⟩ | clash
    · exact ⟨own, stored_of_saveTxs present⟩
    · exact absurd ⟨typedTx, present⟩ (kept.2 tx)
    · exact absurd clash reserved
  · rintro tx member now ⟨filed, noTx⟩
    have new := Filed.tx (tx.buildHash rt) ((typed tx member).buildHash)
    rw [TxItr.getHash_buildHash] at new
    refine ⟨filed.save new, fun other stored => noTx other ⟨stored.1, ?_⟩⟩
    rw [← stored.2, Db.find_save_ne _ _ (apart tx member).symm]
  · rintro tx member spends two input now value spent ⟨filed, noTx⟩ present read inside
    have outputs : spent.getVout ≠ [] := List.length_pos_iff.mp (by omega)
    obtain ⟨typedSpent, rfl, own⟩ | clash := (filed _ _ present).read_tx read outputs
    · have new := Filed.tx (spent.marked two.vout (tx.id rt)) (typedSpent.marked _ _)
      rw [TxItr.getHash_marked] at new
      refine ⟨filed.save new, fun other stored => noTx other ⟨stored.1, ?_⟩⟩
      have other' : bh.previousblockhash ≠ spent.getHash := by
        intro same
        rw [own] at same
        exact noTx spent ⟨typedSpent, same ▸ present⟩
      rw [← stored.2, Db.find_save_ne _ _ other']
    · exact absurd clash (inputs tx member spends two input)

/-- An honest import keeps the store addressed by content. -/
private theorem Addressed.block {log : SaveLog} (kept : Addressed rt (node, log)) {event : Event}
    (honest : Honest rt node (.block event)) : Addressed rt (handlePeer rt wallet (node, log) (.block event)) := by
  refine ⟨kept.filed.after_handle event, ?_⟩
  simp only [handlePeer]
  rcases @handle_db rt wallet node event with ⟨none, same⟩ | ⟨⟨head, txs⟩, brought, imported⟩
  · have unsaved : event.savedWith rt node = Option.none := by simp only [Event.savedWith, none]
    rw [same, unsaved, Option.toList_none, List.append_nil]
    exact kept.content
  · have before (key : Bytes) (bh : BlockHead) (stored : Stored (saveTxs rt event.skip txs node.db).1 key bh) :=
      kept.content key bh (stored_of_saveTxs stored)
    generalize (handle rt wallet node event).db = next at imported ⊢
    cases imported with
    | stopped unsaved =>
      rw [unsaved brought, Option.toList_none, List.append_nil]
      exact before
    | plain bh head due ran =>
      subst head
      have honest := honest bh txs brought
      rw [Event.savedWith_plain brought due ran, Option.toList_some, ← honest.tx]
      exact ContentAddressed.saveHead (fun key other _ => before key other) honest.check
    | amended bh head due value parent ran present read =>
      subst head
      have honest := honest bh txs brought
      obtain ⟨own, storedParent⟩ :=
        parent_of_honest kept.filed (Event.typed_of_message brought) honest due present read
      rw [Event.savedWith_amended brought ran present read, Option.toList_some, ← honest.tx]
      refine ContentAddressed.saveHead (fun key other _ stored => ?_) honest.check
      rw [stored_save_head_iff] at stored
      split at stored
      · next same =>
        subst same stored
        rw [BlockHead.contentHash_addNext, BlockHead.tx_addNext, own]
        exact kept.content _ parent storedParent
      · exact before key other stored

/-- An honest refresh keeps the store addressed by content. -/
private theorem Addressed.refresh {log : SaveLog} (kept : Addressed rt (node, log)) {start : Option Bytes}
    {neighbour : Neighbour} (honest : Honest rt node (.refresh start neighbour)) :
    Addressed rt (handlePeer rt wallet (node, log) (.refresh start neighbour)) := by
  simp only [handlePeer]
  cases answer : refreshed? rt node start neighbour with
  | none =>
    have same := @overwriteLast_db rt node start neighbour
    rw [answer] at same
    exact ⟨by rw [same]; exact kept.filed, by simpa only [same, List.append_nil] using kept.content⟩
  | some saved =>
    obtain ⟨bhash, bh⟩ := saved
    obtain ⟨check, rfl, known, new⟩ := honest bhash bh answer
    have own : bh.hash = bh.contentHash rt := BlockHead.check_iff.mp check
    have same := @overwriteLast_db rt node start neighbour
    rw [answer] at same
    refine ⟨by rw [same]; exact kept.filed.save (.head bh), ?_⟩
    rw [same]
    intro key other stored
    rw [stored_save_head_iff] at stored
    cases present : node.db.find bh.hash with
    | none =>
      simp only [present, Option.isNone_none, if_true, lastWrite_append]
      split at stored
      · next atKey =>
        subst atKey stored
        exact ⟨own, by simp [lastWrite, new present]⟩
      · next elsewhere =>
        obtain ⟨address, written⟩ := kept.content key other stored
        exact ⟨address, by simp [lastWrite, elsewhere, written]⟩
    | some value =>
      simp only [present, Option.isNone_some, Bool.false_eq_true, if_false, List.append_nil]
      split at stored
      · next atKey =>
        subst atKey stored
        obtain ⟨old, rfl, sameTx⟩ := known value present
        exact ⟨own, by rw [sameTx]; exact (kept.content _ old present).2⟩
      · exact kept.content key other stored

end Step

/-- In every run whose messages are honest, from a store that is addressed by content, every state
is: key, content and transactions of each header agree. -/
theorem contentAddressed_of_honest {rt : Runtime} {wallet : Wallet} {start state : Node × SaveLog}
    (filed : AllFiled start.1.db) (content : ContentAddressed rt start.1.db start.2)
    (reached : Relation.ReflTransGen (HonestStep rt wallet) start state) :
    ContentAddressed rt state.1.db state.2 := by
  suffices kept : Addressed rt state from kept.content
  induction reached with
  | refl => exact ⟨filed, content⟩
  | tail _ step ih =>
    obtain ⟨event, honest, rfl⟩ := step
    cases event with
    | block event => exact ih.block honest
    | refresh start neighbour => exact ih.refresh honest

/-! ## A header under a key of the sender's choice -/

namespace Sample

/-- A header whose hash has nothing to do with its content. -/
def forged : BlockHead := { hash? := some [9, 9] }

/-- A first block with a reward, as the program builds its headers. -/
def founding : BlockHead := BlockHead.buildHash runtime
  { height := 1, groupHeight := 1, nTx := 1, merkleRoot? := some [], tx? := some [some ((reward 0).id runtime)],
    witness? := some [1] }

/-- A block on top of it, with the payment that spends the reward. -/
def paying : BlockHead := BlockHead.buildHash runtime
  { height := 2, groupHeight := 1, previousblockhash? := founding.hash?, nTx := 1, merkleRoot? := some [],
    tx? := some [some (spender.id runtime)], witness? := some [1] }

def foundingVO : BlockHeadVO := ⟨some founding, [reward 0], rewarding.typed⟩

def payingVO : BlockHeadVO := ⟨some paying, [spender], spent.typed⟩

end Sample

/-- A header is filed under the hash that its sender wrote into it. -/
theorem contentAddressed_broken : ∃ (start state : Node × SaveLog), start.1.db = .empty ∧ start.2 = [] ∧
    Relation.ReflTransGen (PeerStep Sample.runtime Sample.twoKeys) start state ∧
      ¬ ContentAddressed Sample.runtime state.1.db state.2 := by
  refine ⟨({}, []), _, rfl, rfl, .single ⟨.block (.save (Sample.bare Sample.forged)), rfl⟩, fun content => ?_⟩
  have saved := @saveBlockHead_db_plain Sample.runtime Sample.twoKeys {} (Sample.bare Sample.forged) Sample.forged _ rfl
    rfl (by decide)
  have stored : Stored (handle Sample.runtime Sample.twoKeys {} (.save (Sample.bare Sample.forged))).db [9, 9]
      Sample.forged := by
    change Db.find (saveBlockHead Sample.runtime Sample.twoKeys {} (Sample.bare Sample.forged)).1.db [9, 9] = _
    rw [saved]
    rfl
  have oneByte : (Sample.forged.contentHash Sample.runtime).length = 1 := rfl
  rw [← (content [9, 9] Sample.forged stored).1] at oneByte
  exact absurd oneByte (by decide)

/-- A first block with a reward, and a block that amends it and spends the reward. -/
theorem contentAddressed_of_honest_twice : ∃ state : Node × SaveLog,
    Relation.ReflTransGen (HonestStep Sample.runtime Sample.twoKeys) ({ chain := { startingBlock := 1 } }, []) state ∧
      Stored state.1.db Sample.founding.hash (Sample.founding.addNext Sample.paying.hash?) ∧
        state.2 = [(Sample.founding.hash, [(Sample.reward 0).id Sample.runtime]),
          (Sample.paying.hash, [Sample.spender.id Sample.runtime])] ∧
          ContentAddressed Sample.runtime state.1.db state.2 := by
  let start : Node × SaveLog := ({ chain := { startingBlock := 1 } }, [])
  let founds : PeerEvent := .block (.save Sample.foundingVO)
  let pays : PeerEvent := .block (.save Sample.payingVO)
  let one := handlePeer Sample.runtime Sample.twoKeys start founds
  let two := handlePeer Sample.runtime Sample.twoKeys one pays
  have oneByte : Sample.founding.hash.length = 1 := rfl
  have reserved : Sample.founding.hash ≠ Config.keyBlockStart := fun same => absurd (same ▸ oneByte) (by decide)
  have starting : one.1.chain.startingBlock = 1 := handle_startingBlock _
  -- the first block: nothing is amended
  have plain : ¬ amendDue start.1.chain Sample.founding := by unfold amendDue; decide
  have dbOne : one.1.db = Db.saveHead (Db.save .empty ((Sample.reward 0).id Sample.runtime)
      ((Sample.reward 0).buildHash Sample.runtime).json) Sample.founding true :=
    @saveBlockHead_db_plain Sample.runtime Sample.twoKeys start.1 Sample.foundingVO Sample.founding _ rfl rfl plain
  have logOne : one.2 = [(Sample.founding.hash, [(Sample.reward 0).id Sample.runtime])] := by
    change [] ++ (Event.savedWith Sample.runtime start.1 (.save Sample.foundingVO)).toList = _
    rw [@Event.savedWith_plain Sample.runtime start.1 (.save Sample.foundingVO) Sample.founding [Sample.reward 0] rfl
      plain rfl]
    rfl
  have storedOne : Stored one.1.db Sample.founding.hash Sample.founding := by
    rw [dbOne, Db.saveHead, if_pos rfl, stored_save_raw_iff]
    exact ⟨reserved, Db.find_save_self _ _ _⟩
  have honestOne : Honest Sample.runtime start.1 founds := by
    rintro bh txs brought
    cases brought
    exact ⟨BlockHead.check_buildHash _ _, rfl, fun due => absurd due plain⟩
  -- the second one amends the first and spends its reward
  have honestTwo : Honest Sample.runtime one.1 pays := by
    rintro bh txs brought
    cases brought
    refine ⟨BlockHead.check_buildHash _ _, rfl, fun _ => ⟨reserved, ?_, ?_, ?_⟩⟩
    · rintro tx ⟨-, present⟩
      exact TxItr.json_ne_head tx Sample.founding (Option.some.inj (present.symm.trans storedOne))
    · exact fun tx _ => Sample.id_ne_of_length oneByte tx
    · exact List.forall_mem_singleton.mpr fun _ => List.forall_mem_singleton.mpr (Sample.id_reward_ne (by decide))
  have storedReward : one.1.db.find ((Sample.reward 0).id Sample.runtime) =
      some ((Sample.reward 0).buildHash Sample.runtime).json := by
    rw [dbOne, Db.saveHead, if_pos rfl, Db.find_save_ne _ _ (Sample.id_reward_ne (by decide)),
      Db.find_save_ne _ _ (Sample.id_ne_of_length oneByte _)]
    exact Db.find_save_self _ _ _
  have ran := @saveTxs_spender Sample.runtime one.1.db true Sample.spender ((Sample.reward 0).buildHash Sample.runtime) _
    (.inr rfl) rfl ⟨by decide, (Db.find_save_ne _ _ (Sample.id_spender_ne (by decide)).symm).trans storedReward⟩
    (by decide)
  have due : amendDue one.1.chain Sample.paying := by
    rw [amendDue, starting]
    decide
  have parent : Stored (((one.1.db.save (Sample.spender.id Sample.runtime)
      (Sample.spender.buildHash Sample.runtime).json).save ((Sample.reward 0).buildHash Sample.runtime).getHash
        (((Sample.reward 0).buildHash Sample.runtime).marked 0 (Sample.spender.id Sample.runtime)).json))
      Sample.paying.previousblockhash Sample.founding := by
    rw [stored_save_tx_iff, stored_save_tx_iff, TxItr.getHash_buildHash]
    exact ⟨(Sample.id_ne_of_length oneByte _).symm, (Sample.id_ne_of_length oneByte _).symm, storedOne⟩
  have dbTwo := @saveBlockHead_db_amended Sample.runtime Sample.twoKeys one.1 Sample.payingVO Sample.paying
    Sample.founding _ ran rfl due parent
  have logTwo : two.2 = one.2 ++ [(Sample.paying.hash, [Sample.spender.id Sample.runtime])] := by
    have ended : (saveTxs Sample.runtime (Event.skip (.save Sample.payingVO)) [Sample.spender] one.1.db).2 = .next :=
      congrArg Prod.snd ran
    have present : Db.find (saveTxs Sample.runtime (Event.skip (.save Sample.payingVO)) [Sample.spender] one.1.db).1
        Sample.paying.previousblockhash = some Sample.founding.json := by
      rw [Event.skip, ran]
      exact parent
    have saved := @Event.savedWith_amended Sample.runtime one.1 (.save Sample.payingVO) Sample.paying Sample.founding
      [Sample.spender] _ rfl ended present (BlockHead.parse_json _ _)
    exact congrArg (fun entry => one.2 ++ entry.toList) saved
  have run : Relation.ReflTransGen (HonestStep Sample.runtime Sample.twoKeys) start two :=
    (Relation.ReflTransGen.single ⟨founds, honestOne, rfl⟩).tail ⟨pays, honestTwo, rfl⟩
  have empty : ContentAddressed Sample.runtime start.1.db start.2 := fun key bh stored => by cases stored
  refine ⟨two, run, ?_, by rw [logTwo, logOne]; rfl, contentAddressed_of_honest allFiled_empty empty run⟩
  have isTwo : two.1.db = (saveBlockHead Sample.runtime Sample.twoKeys one.1 Sample.payingVO).1.db :=
    handlePeer_save_db one Sample.payingVO
  have notFirst : decide (Sample.paying.height = one.1.chain.startingBlock) = false := by
    rw [starting]
    decide
  have other : Sample.founding.hash ≠ Sample.paying.hash := by decide +kernel
  rw [isTwo, dbTwo, notFirst, Db.saveHead, if_neg Bool.false_ne_true, stored_save_head_iff, if_neg other,
    stored_save_head_iff, if_pos rfl]

end PolarCloud.Mining
