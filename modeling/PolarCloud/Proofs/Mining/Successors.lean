import PolarCloud.Proofs.Mining.Import

/-! # Parents and successors mirror each other

A header names its parent, and the parent's record lists it as a successor. The two agree in
every state reached by imports of new blocks; a block that is imported again, or that already
lists successors, breaks them apart.
-/

namespace PolarCloud.Mining

open Keystore

/-- The database that holds nothing but a first block. -/
def genesisDb (genesis : BlockHead) : Db := Db.saveHead .empty genesis true

/-- A block is listed by a record exactly when it is stored with that parent, and it is then
listed once; for blocks above the first height. -/
def LinksMirror (start : UInt64) (db : Db) : Prop :=
  ∀ h h', (∀ bh', Stored db h' bh' → start < bh'.height) →
    ((∃ bh, Stored db h bh ∧ h' ∈ bh.nexts) ↔ ∃ bh', Stored db h' bh' ∧ bh'.previousblockhash = h) ∧
      ∀ bh, Stored db h bh → h' ∈ bh.nexts → bh.nexts.count h' = 1

/-- A stored header stays stored and keeps its parent, its height and the successors it lists. -/
def KeepsHeads (db next : Db) : Prop :=
  ∀ h bh, Stored db h bh → ∃ bh', Stored next h bh' ∧ bh'.previousblockhash = bh.previousblockhash ∧
    bh'.height = bh.height ∧ bh.nexts <+: bh'.nexts

theorem KeepsHeads.refl (db : Db) : KeepsHeads db db :=
  fun _ bh stored => ⟨bh, stored, rfl, rfl, List.prefix_rfl⟩

/-- No transaction is filed under the key of a header, and no input names the reserved key. -/
structure TxsClear (rt : Runtime) (db : Db) (txs : List TxItr) : Prop where
  fresh : ∀ tx ∈ txs, ∀ bh, ¬ Stored db (tx.id rt) bh
  reserved : ∀ tx ∈ txs, tx.Spends → ∀ vin ∈ tx.getVin, vin.txid ≠ Config.keyBlockStart

/-- The header is new and lists no successors, or it is stored as it is and amends no parent. -/
structure HeadClear (node : Node) (event : Event) (bh : BlockHead) : Prop where
  reserved : bh.hash ≠ Config.keyBlockStart
  parent : event.Amends node bh → bh.previousblockhash ≠ Config.keyBlockStart ∧ bh.previousblockhash ≠ bh.hash
  fresh : ((∀ old, ¬ Stored node.db bh.hash old) ∧ bh.nexts = []) ∨
    (¬ event.Amends node bh ∧ Stored node.db bh.hash bh)

/-- The message that an event brings, if it brings one, is clear of the records that are there. -/
def Clear (rt : Runtime) (node : Node) (event : Event) : Prop :=
  ∀ message, event.message? rt node.db = some message →
    TxsClear rt node.db message.txs ∧ ∀ bh, message.bh = some bh → HeadClear node event bh

/-- A new header above a height amends its parent. -/
def AmendsAbove (rt : Runtime) (height : UInt64) (node : Node) (event : Event) : Prop :=
  ∀ message, event.message? rt node.db = some message → ∀ bh, message.bh = some bh →
    height < bh.height → event.Amends node bh ∨ Stored node.db bh.hash bh

/-- What holds of the headers in every state that is reached. -/
structure Successors (start : UInt64) (db : Db) : Prop where
  filed : AllFiled db
  free : ∀ bh, ¬ Stored db Config.keyBlockStart bh
  forward : ∀ h bh h', Stored db h bh → h' ∈ bh.nexts → ∃ bh', Stored db h' bh' ∧ bh'.previousblockhash = h
  backward : ∀ h' bh', Stored db h' bh' → start < bh'.height →
    ∃ bh, Stored db bh'.previousblockhash bh ∧ h' ∈ bh.nexts
  once : ∀ h bh, Stored db h bh → bh.nexts.Nodup

theorem Successors.linksMirror {start : UInt64} {db : Db} (kept : Successors start db) : LinksMirror start db := by
  intro h h' above
  refine ⟨⟨?_, ?_⟩, ?_⟩
  · rintro ⟨bh, stored, listed⟩
    exact kept.forward h bh h' stored listed
  · rintro ⟨bh', stored, rfl⟩
    exact kept.backward h' bh' stored (above bh' stored)
  · intro bh stored listed
    exact List.count_eq_one_of_mem (kept.once h bh stored) listed

section Step

variable {rt : Runtime} {wallet : Wallet} {node : Node} {start : UInt64}

/-- Saving clear transactions touches no header. -/
theorem stored_saveTxs {db : Db} (filed : AllFiled db) (skip : Bool) {txs : List TxItr}
    (typed : ∀ tx ∈ txs, tx.Typed) (clear : TxsClear rt db txs) (h : Bytes) (bh : BlockHead) :
    Stored (saveTxs rt skip txs db).1 h bh ↔ Stored db h bh := by
  have kept := @saveTxs_keeps rt skip txs
    (fun after => AllFiled after ∧ ∀ h bh, Stored after h bh ↔ Stored db h bh) ?_ ?_ db ⟨filed, fun _ _ => Iff.rfl⟩
  · exact kept.2 h bh
  · rintro tx member after ⟨filed, same⟩
    have new := Filed.tx (tx.buildHash rt) ((typed tx member).buildHash)
    rw [TxItr.getHash_buildHash] at new
    refine ⟨filed.save new, fun h bh => ?_⟩
    rw [stored_save_tx_iff, same]
    exact and_iff_right_of_imp fun stored clash => clear.fresh tx member bh (clash ▸ stored)
  · rintro tx member spends two input after value spent ⟨filed, same⟩ present read inside
    have outputs : spent.getVout ≠ [] := List.length_pos_iff.mp (by omega)
    obtain ⟨typed, rfl, own⟩ | reserved := (filed _ _ present).read_tx read outputs
    · have new := Filed.tx (spent.marked two.vout (tx.id rt)) (typed.marked _ _)
      rw [TxItr.getHash_marked] at new
      refine ⟨filed.save new, fun h bh => ?_⟩
      rw [stored_save_tx_iff, same]
      refine and_iff_right_of_imp fun stored clash => ?_
      have here := (same h bh).mpr stored
      rw [clash, own, Stored, present] at here
      exact TxItr.json_ne_head _ _ (Option.some.inj here)
    · exact absurd reserved (clear.reserved tx member spends two input)

/-- The headers after one header was saved. -/
theorem stored_saveHead_iff {db : Db} {bh : BlockHead} (first : Bool) (reserved : bh.hash ≠ Config.keyBlockStart)
    (free : ∀ bh, ¬ Stored db Config.keyBlockStart bh) (h : Bytes) (other : BlockHead) :
    Stored (Db.saveHead db bh first) h other ↔ if h = bh.hash then other = bh else Stored db h other := by
  unfold Db.saveHead
  cases first with
  | false => exact stored_save_head_iff
  | true =>
    rw [if_pos rfl, stored_save_raw_iff, stored_save_head_iff]
    refine and_iff_right_of_imp fun stored clash => ?_
    subst clash
    rw [if_neg reserved.symm] at stored
    exact free other stored

/-- The headers after a parent was amended. -/
private theorem stored_amend_iff {db : Db} (filed : AllFiled db) {bh parent : BlockHead} {value : Value}
    (present : db.find bh.previousblockhash = some value) (read : parseBlockHead rt value = some parent)
    (reserved : bh.previousblockhash ≠ Config.keyBlockStart) :
    (Stored db bh.previousblockhash parent ∨
        (parent.OnlyHash bh.previousblockhash ∧ ∀ old, ¬ Stored db bh.previousblockhash old)) ∧
      ∀ h other, Stored (db.save parent.hash (parent.addNext bh.hash?).json) h other ↔
        if h = bh.previousblockhash then other = parent.addNext bh.hash? else Stored db h other := by
  rcases (filed _ _ present).read_head read with ⟨rfl, own⟩ | ⟨tx, -, rfl, own, only⟩ | clash
  · refine ⟨.inl present, fun h other => ?_⟩
    rw [own]
    exact stored_save_head_iff
  · refine ⟨.inr ⟨only, fun old stored => ?_⟩, fun h other => ?_⟩
    · exact TxItr.json_ne_head _ _ (Option.some.inj (present.symm.trans stored))
    · rw [only.2]
      exact stored_save_head_iff
  · exact absurd clash reserved

/-- A successor that was listed still has its header, with the same parent. -/
private theorem Successors.forward_kept {db next : Db} {h h' : Bytes} {bh : BlockHead} (kept : Successors start db)
    (keeps : KeepsHeads db next) (stored : Stored db h bh) (listed : h' ∈ bh.nexts) :
    ∃ bh', Stored next h' bh' ∧ bh'.previousblockhash = h := by
  obtain ⟨bh', stored', same⟩ := kept.forward h bh h' stored listed
  obtain ⟨later, storedLater, sameParent, -⟩ := keeps h' bh' stored'
  exact ⟨later, storedLater, sameParent.trans same⟩

/-- A parent that listed a header still does. -/
private theorem Successors.backward_kept {db next : Db} {h : Bytes} {bh : BlockHead} (kept : Successors start db)
    (keeps : KeepsHeads db next) (stored : Stored db h bh) (above : start < bh.height) :
    ∃ parent, Stored next bh.previousblockhash parent ∧ h ∈ parent.nexts := by
  obtain ⟨parent, storedParent, listed⟩ := kept.backward h bh stored above
  obtain ⟨later, storedLater, -, -, grown⟩ := keeps _ parent storedParent
  exact ⟨later, storedLater, grown.subset listed⟩

/-- A new header without successors that amends no parent. -/
private theorem Successors.insert {db next : Db} {bh : BlockHead} (kept : Successors start db)
    (filed : AllFiled next) (fresh : ∀ old, ¬ Stored db bh.hash old) (noNexts : bh.nexts = [])
    (reserved : bh.hash ≠ Config.keyBlockStart) (low : ¬ start < bh.height)
    (stored : ∀ h other, Stored next h other ↔ if h = bh.hash then other = bh else Stored db h other) :
    Successors start next ∧ KeepsHeads db next := by
  have keeps : KeepsHeads db next := by
    intro h old here
    have other : h ≠ bh.hash := fun same => fresh old (same ▸ here)
    exact ⟨old, (stored h old).mpr (by rwa [if_neg other]), rfl, rfl, List.prefix_rfl⟩
  refine ⟨⟨filed, ?_, ?_, ?_, ?_⟩, keeps⟩
  · intro other here
    rw [stored, if_neg reserved.symm] at here
    exact kept.free other here
  · intro h other h' here listed
    rw [stored] at here
    split at here
    · rw [here, noNexts] at listed
      cases listed
    · exact kept.forward_kept keeps here listed
  · intro h' bh' here above
    rw [stored] at here
    split at here
    · exact absurd (here ▸ above) low
    · exact kept.backward_kept keeps here above
  · intro h other here
    rw [stored] at here
    split at here
    · rw [here, noNexts]
      exact List.nodup_nil
    · exact kept.once h other here

section Attach

variable {db next : Db} {bh parent : BlockHead}

private theorem keepsHeads_attach (fresh : ∀ old, ¬ Stored db bh.hash old)
    (known : Stored db bh.previousblockhash parent ∨
      (parent.OnlyHash bh.previousblockhash ∧ ∀ old, ¬ Stored db bh.previousblockhash old))
    (stored : ∀ h other, Stored next h other ↔ if h = bh.hash then other = bh else
      if h = bh.previousblockhash then other = parent.addNext bh.hash? else Stored db h other) : KeepsHeads db next := by
  intro h old here
  have other : h ≠ bh.hash := fun same => fresh old (same ▸ here)
  by_cases atParent : h = bh.previousblockhash
  · subst atParent
    rcases known with here' | ⟨-, absent⟩
    · obtain rfl := here.unique here'
      exact ⟨old.addNext bh.hash?, (stored _ _).mpr (by rw [if_neg other, if_pos rfl]), rfl, rfl,
        by simp⟩
    · exact absurd here (absent old)
  · exact ⟨old, (stored h old).mpr (by rwa [if_neg other, if_neg atParent]), rfl, rfl, List.prefix_rfl⟩

/-- An amended parent lists no successor twice: the new one has no header yet. -/
private theorem Successors.once_addNext (kept : Successors start db) (fresh : ∀ old, ¬ Stored db bh.hash old)
    (known : Stored db bh.previousblockhash parent ∨
      (parent.OnlyHash bh.previousblockhash ∧ ∀ old, ¬ Stored db bh.previousblockhash old)) :
    (parent.addNext bh.hash?).nexts.Nodup := by
  rw [BlockHead.nexts_addNext]
  rcases known with here | ⟨only, -⟩
  · refine List.Nodup.append (kept.once _ parent here) (List.nodup_singleton _) ?_
    rw [List.disjoint_singleton]
    intro listed
    obtain ⟨bh', stored', -⟩ := kept.forward _ parent _ here listed
    exact fresh bh' stored'
  · rw [only.nexts]
    exact List.nodup_singleton _

/-- A new header without successors, listed by its amended parent. -/
private theorem Successors.attach (kept : Successors start db)
    (filed : AllFiled next) (fresh : ∀ old, ¬ Stored db bh.hash old) (noNexts : bh.nexts = [])
    (reserved : bh.hash ≠ Config.keyBlockStart) (ne : bh.previousblockhash ≠ bh.hash)
    (reservedParent : bh.previousblockhash ≠ Config.keyBlockStart)
    (known : Stored db bh.previousblockhash parent ∨
      (parent.OnlyHash bh.previousblockhash ∧ ∀ old, ¬ Stored db bh.previousblockhash old))
    (stored : ∀ h other, Stored next h other ↔ if h = bh.hash then other = bh else
      if h = bh.previousblockhash then other = parent.addNext bh.hash? else Stored db h other) :
    Successors start next ∧ KeepsHeads db next := by
  have keeps : KeepsHeads db next := keepsHeads_attach fresh known stored
  have isNew : Stored next bh.hash bh := (stored _ _).mpr (by rw [if_pos rfl])
  have isParent : Stored next bh.previousblockhash (parent.addNext bh.hash?) :=
    (stored _ _).mpr (by rw [if_neg ne, if_pos rfl])
  refine ⟨⟨filed, ?_, ?_, ?_, ?_⟩, keeps⟩
  · intro other here
    rw [stored, if_neg reserved.symm, if_neg reservedParent.symm] at here
    exact kept.free other here
  · intro h other h' here listed
    rw [stored] at here
    split at here
    · rw [here, noNexts] at listed
      cases listed
    · split at here
      · next atParent =>
        subst here atParent
        rw [BlockHead.nexts_addNext, List.mem_append, List.mem_singleton] at listed
        rcases listed with listed | rfl
        · rcases known with here | ⟨only, -⟩
          · exact kept.forward_kept keeps here listed
          · rw [only.nexts] at listed
            cases listed
        · exact ⟨bh, isNew, rfl⟩
      · exact kept.forward_kept keeps here listed
  · intro h' bh' here above
    rw [stored] at here
    split at here
    · next atNew =>
      subst here atNew
      exact ⟨_, isParent, by simp⟩
    · split at here
      · next atParent =>
        subst here atParent
        rcases known with here | ⟨only, -⟩
        · have above : start < parent.height := above
          have listed := kept.backward_kept keeps here above
          exact listed
        · exact absurd above (by simp [only.height])
      · exact kept.backward_kept keeps here above
  · intro h other here
    rw [stored] at here
    split at here
    · rw [here, noNexts]
      exact List.nodup_nil
    · split at here
      · exact here ▸ kept.once_addNext fresh known
      · exact kept.once h other here

end Attach

/-- The headers after a clear event: the same ones, or one new header that amends no parent, or
one new header that its parent now lists. -/
inductive HeadsAfter (rt : Runtime) (node : Node) (event : Event) (next : Db) : Prop where
  | same (stored : ∀ h bh, Stored next h bh ↔ Stored node.db h bh)
  | inserted (bh : BlockHead) (brought : ∃ txs, event.message? rt node.db = some ⟨some bh, txs⟩)
      (clear : HeadClear node event bh) (fresh : ∀ old, ¬ Stored node.db bh.hash old) (noNexts : bh.nexts = [])
      (due : ¬ event.Amends node bh)
      (stored : ∀ h other, Stored next h other ↔ if h = bh.hash then other = bh else Stored node.db h other)
  | attached (bh parent : BlockHead) (brought : ∃ txs, event.message? rt node.db = some ⟨some bh, txs⟩)
      (clear : HeadClear node event bh) (fresh : ∀ old, ¬ Stored node.db bh.hash old) (noNexts : bh.nexts = [])
      (due : event.Amends node bh)
      (known : Stored node.db bh.previousblockhash parent ∨
        (parent.OnlyHash bh.previousblockhash ∧ ∀ old, ¬ Stored node.db bh.previousblockhash old))
      (stored : ∀ h other, Stored next h other ↔ if h = bh.hash then other = bh else
        if h = bh.previousblockhash then other = parent.addNext bh.hash? else Stored node.db h other)

/-- What a clear event does to the headers. -/
theorem heads_after (filed : AllFiled node.db) (free : ∀ bh, ¬ Stored node.db Config.keyBlockStart bh)
    {event : Event} (clear : Clear rt node event) :
    HeadsAfter rt node event (handle rt wallet node event).db := by
  rcases @handle_db rt wallet node event with ⟨-, same⟩ | ⟨message, brought, imported⟩
  · rw [same]
    exact .same fun _ _ => Iff.rfl
  · obtain ⟨clearTxs, clearHead⟩ := clear message brought
    have typed := Event.typed_of_message brought
    have filedTxs : AllFiled (saveTxs rt event.skip message.txs node.db).1 := filed.after_saveTxs typed
    have sameHeads := stored_saveTxs filed event.skip typed clearTxs
    have freeTxs (bh : BlockHead) : ¬ Stored (saveTxs rt event.skip message.txs node.db).1 Config.keyBlockStart bh :=
      fun stored => free bh ((sameHeads _ _).mp stored)
    have arrived (bh : BlockHead) (head : message.bh = some bh) :
        ∃ txs, event.message? rt node.db = some ⟨some bh, txs⟩ := ⟨message.txs, by rw [brought, ← head]⟩
    generalize (handle rt wallet node event).db = after at imported ⊢
    cases imported with
    | stopped => exact .same sameHeads
    | plain bh head due ran =>
      have clear := clearHead bh head
      have stored := stored_saveHead_iff (event.first node bh) clear.reserved freeTxs
      simp only [sameHeads] at stored
      rcases clear.fresh with ⟨fresh, noNexts⟩ | ⟨-, there⟩
      · exact .inserted bh (arrived bh head) clear fresh noNexts due stored
      · refine .same fun h other => ?_
        rw [stored]
        split
        · next same =>
          subst same
          exact ⟨fun same => same ▸ there, fun stored => stored.unique there⟩
        · rfl
    | amended bh head due value parent ran present read =>
      have clear := clearHead bh head
      obtain ⟨reservedParent, -⟩ := clear.parent due
      obtain ⟨known, amendedHeads⟩ := stored_amend_iff filedTxs present read reservedParent
      have free (other : BlockHead) : ¬ Stored (Db.save (saveTxs rt event.skip message.txs node.db).1 parent.hash
          (parent.addNext bh.hash?).json) Config.keyBlockStart other := by
        rw [amendedHeads, if_neg reservedParent.symm]
        exact freeTxs other
      have stored := stored_saveHead_iff (event.first node bh) clear.reserved free
      simp only [amendedHeads, sameHeads] at stored known
      rcases clear.fresh with ⟨fresh, noNexts⟩ | ⟨notDue, -⟩
      · exact .attached bh parent (arrived bh head) clear fresh noNexts due known stored
      · exact absurd due notDue

/-- A clear event keeps the headers linked both ways and loses nothing. -/
theorem Successors.step (kept : Successors start node.db) {event : Event} (clear : Clear rt node event)
    (above : AmendsAbove rt start node event) :
    Successors start (handle rt wallet node event).db ∧ KeepsHeads node.db (handle rt wallet node event).db := by
  have filed := @AllFiled.after_handle rt wallet node kept.filed event
  have after := @heads_after rt wallet node kept.filed kept.free event clear
  generalize (handle rt wallet node event).db = next at filed after ⊢
  cases after with
  | same stored =>
    refine ⟨⟨filed, ?_, ?_, ?_, ?_⟩, fun h bh here => ⟨bh, (stored h bh).mpr here, rfl, rfl, List.prefix_rfl⟩⟩
    · simpa only [stored] using kept.free
    · simpa only [stored] using kept.forward
    · simpa only [stored] using kept.backward
    · simpa only [stored] using kept.once
  | inserted bh brought clear fresh noNexts due stored =>
    refine kept.insert filed fresh noNexts clear.reserved (fun high => ?_) stored
    obtain ⟨txs, brought⟩ := brought
    exact (above _ brought bh rfl high).elim due (fresh bh)
  | attached bh parent brought clear fresh noNexts due known stored =>
    obtain ⟨reservedParent, ne⟩ := clear.parent due
    exact kept.attach filed fresh noNexts clear.reserved ne reservedParent known stored

/-- One event whose message is clear and amends the parent of a block above the first height. -/
def ClearStep (rt : Runtime) (wallet : Wallet) (node next : Node) : Prop :=
  ∃ event, Clear rt node event ∧ AmendsAbove rt node.chain.startingBlock node event ∧
    next = handle rt wallet node event

/-- The only header of such a database is the first block. -/
theorem genesisDb_only {genesis bh : BlockHead} {h : Bytes} (stored : Stored (genesisDb genesis) h bh) :
    h ≠ Config.keyBlockStart ∧ bh = genesis := by
  rw [genesisDb, Db.saveHead, if_pos rfl, stored_save_raw_iff, stored_save_head_iff] at stored
  refine ⟨stored.1, ?_⟩
  have here := stored.2
  split at here
  · exact here
  · cases here

/-- A database with nothing but a first block that lists no successors. -/
theorem Successors.genesis {genesis : BlockHead} (bare : genesis.nexts = []) (low : genesis.height ≤ start) :
    Successors start (genesisDb genesis) := by
  refine ⟨allFiled_empty.after_saveHead genesis true, fun bh stored => (genesisDb_only stored).1 rfl, ?_, ?_, ?_⟩
  · intro h bh h' stored listed
    rw [(genesisDb_only stored).2, bare] at listed
    cases listed
  · intro h' bh' stored above
    rw [(genesisDb_only stored).2] at above
    exact absurd low (UInt64.not_le.mpr above)
  · intro h bh stored
    rw [(genesisDb_only stored).2, bare]
    exact List.nodup_nil

end Step

/-- In every run of clear imports from a first block, parents and successors mirror each other in
every state, and no step loses a stored header or a successor it lists. -/
theorem linksMirror_of_clear {rt : Runtime} {wallet : Wallet} {genesis : BlockHead} {start node : Node}
    (bare : genesis.nexts = []) (low : genesis.height ≤ start.chain.startingBlock)
    (onlyGenesis : start.db = genesisDb genesis)
    (reached : Relation.ReflTransGen (ClearStep rt wallet) start node) :
    LinksMirror start.chain.startingBlock node.db ∧
      ∀ next, ClearStep rt wallet node next → KeepsHeads node.db next.db := by
  have kept : Successors start.chain.startingBlock node.db ∧
      node.chain.startingBlock = start.chain.startingBlock := by
    induction reached with
    | refl => exact ⟨onlyGenesis ▸ .genesis bare low, rfl⟩
    | tail _ step ih =>
      obtain ⟨event, clear, above, rfl⟩ := step
      rw [handle_startingBlock]
      exact ⟨(ih.1.step clear (ih.2 ▸ above)).1, ih.2⟩
  refine ⟨kept.1.linksMirror, ?_⟩
  rintro next ⟨event, clear, above, rfl⟩
  exact (kept.1.step clear (kept.2 ▸ above)).2

/-! ## A block delivered twice -/

/-- One event, whatever it brings. -/
def ImportStep (rt : Runtime) (wallet : Wallet) (node next : Node) : Prop :=
  ∃ event, next = handle rt wallet node event

namespace Sample

def genesis : BlockHead := { hash? := some [1], height := 1, groupHeight := 1 }

def second : BlockHead := { hash? := some [2], height := 2, groupHeight := 1, previousblockhash? := some [1] }

/-- An id is longer than a hash of one byte. -/
theorem id_ne_of_length {hash : Bytes} (oneByte : hash.length = 1) (tx : TxItr) : tx.id runtime ≠ hash := by
  intro same
  have lengths := congrArg List.length same
  rw [oneByte] at lengths
  cases tx <;> (simp [TxItr.id, TxItr.idPrefix] at lengths; omega)

/-- A message without transactions. -/
def bare (bh : BlockHead) : BlockHeadVO := ⟨some bh, [], by simp⟩

/-- A broadcast block above the first height whose stored parent is amended. -/
theorem saved_amended {rt : Runtime} (wallet : Wallet) {node : Node} {db : Db} {bhvo : BlockHeadVO}
    {bh parent : BlockHead} (starting : node.chain.startingBlock = 1) (head : bhvo.bh = some bh) (high : 1 < bh.height)
    (ran : saveTxs rt true bhvo.txs node.db = (db, .next)) (held : Stored db bh.previousblockhash parent) :
    ∃ next, next = handle rt wallet node (.save bhvo) ∧ next.chain.startingBlock = 1 ∧
      next.db = Db.saveHead (db.save parent.hash (parent.addNext bh.hash?).json) bh false := by
  have due : amendDue node.chain bh := ⟨starting ▸ high, high⟩
  have notFirst : decide (bh.height = node.chain.startingBlock) = false := by
    rw [starting, decide_eq_false_iff_not]
    exact fun same => absurd (same ▸ high) (by decide)
  have saved := @saveBlockHead_db_amended rt wallet node bhvo bh parent db ran head due held
  rw [notFirst] at saved
  exact ⟨_, rfl, (handle_startingBlock _).trans starting, saved⟩

/-- A new header without transactions is clear. -/
theorem clear_bare {rt : Runtime} {node : Node} {bh : BlockHead} (absent : node.db.find bh.hash = none)
    (noNexts : bh.nexts = []) (reserved : bh.hash ≠ Config.keyBlockStart)
    (parent : bh.previousblockhash ≠ Config.keyBlockStart ∧ bh.previousblockhash ≠ bh.hash) :
    Clear rt node (.save (bare bh)) := by
  rintro message brought
  cases brought
  constructor
  · constructor <;> simp [bare]
  · rintro other head
    cases head
    refine ⟨reserved, fun _ => parent, .inl ⟨fun old stored => ?_, noNexts⟩⟩
    cases absent.symm.trans stored

/-- A node that holds the first block and nothing else. -/
def atGenesis : Node := { db := genesisDb genesis, chain := { startingBlock := 1 } }

end Sample

/-- A block that is delivered twice is listed twice by its parent. -/
theorem linksMirror_broken : ∃ (start node : Node) (genesis : BlockHead),
    genesis.nexts = [] ∧ genesis.height ≤ start.chain.startingBlock ∧ start.db = genesisDb genesis ∧
      Relation.ReflTransGen (ImportStep Sample.runtime Sample.twoKeys) start node ∧
        ¬ LinksMirror start.chain.startingBlock node.db := by
  let event : Event := .save (Sample.bare Sample.second)
  let once := handle Sample.runtime Sample.twoKeys Sample.atGenesis event
  let twice := handle Sample.runtime Sample.twoKeys once event
  have startOnce : once.chain.startingBlock = 1 := handle_startingBlock event
  have dbOnce : once.db = Db.saveHead (Db.save (genesisDb Sample.genesis) [1] (Sample.genesis.addNext (some [2])).json)
      Sample.second false :=
    @saveBlockHead_db_amended _ _ Sample.atGenesis (Sample.bare Sample.second) Sample.second Sample.genesis
      _ rfl rfl (by decide) rfl
  have dbTwice : twice.db = Db.saveHead (Db.save once.db [1] ((Sample.genesis.addNext (some [2])).addNext (some [2])).json)
      Sample.second (Sample.second.height = once.chain.startingBlock) :=
    @saveBlockHead_db_amended _ _ once (Sample.bare Sample.second) Sample.second (Sample.genesis.addNext (some [2]))
      _ rfl rfl (by simp only [amendDue, startOnce]; decide) (by rw [dbOnce]; rfl)
  refine ⟨Sample.atGenesis, twice, Sample.genesis, rfl, by decide, rfl, .tail (.single ⟨event, rfl⟩) ⟨event, rfl⟩, ?_⟩
  intro mirror
  have parent : Stored twice.db [1] ((Sample.genesis.addNext (some [2])).addNext (some [2])) := by
    rw [dbTwice, startOnce]
    rfl
  have child : Stored twice.db [2] Sample.second := by
    rw [dbTwice, startOnce]
    rfl
  obtain ⟨-, counted⟩ := mirror [1] [2] fun bh' stored => by
    rw [stored.unique child]
    decide
  exact absurd (counted _ parent (by decide)) (by decide)

/-- A clear run: one new block above the first one. -/
theorem linksMirror_of_clear_once :
    LinksMirror 1 (handle Sample.runtime Sample.twoKeys Sample.atGenesis (.save (Sample.bare Sample.second))).db := by
  have clear : Clear Sample.runtime Sample.atGenesis (.save (Sample.bare Sample.second)) :=
    Sample.clear_bare rfl rfl (by decide) (by decide)
  have above : AmendsAbove Sample.runtime 1 Sample.atGenesis (.save (Sample.bare Sample.second)) := by
    rintro message brought bh head high
    cases brought
    cases head
    have due : amendDue Sample.atGenesis.chain Sample.second := by decide
    exact .inl due
  have low : Sample.genesis.height ≤ Sample.atGenesis.chain.startingBlock := by decide
  exact (linksMirror_of_clear rfl low rfl (.single ⟨_, clear, above, rfl⟩)).1

end PolarCloud.Mining
