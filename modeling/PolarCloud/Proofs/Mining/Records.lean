import PolarCloud.Model.Mining.Sync

/-! # Records of the database

Every record is filed under its own key: a transaction under its id, a header under its hash, and
the hash of the first block under the reserved key. The loop that saves transactions is reasoned
about through one rule, which says what each of its two kinds of write must keep.
-/

namespace PolarCloud.Mining

variable {rt : Runtime}

/-- The database holds a header under a key. -/
def Stored (db : Db) (key : Bytes) (bh : BlockHead) : Prop := db.find key = some bh.json

/-- The database holds a transaction under a key. -/
def StoredTx (db : Db) (key : Bytes) (tx : TxItr) : Prop := tx.Typed ∧ db.find key = some tx.json

/-- A record that may stand under a key. -/
inductive Filed : Bytes → Value → Prop where
  | tx (tx : TxItr) (typed : tx.Typed) : Filed tx.getHash tx.json
  | head (bh : BlockHead) : Filed bh.hash bh.json
  | start (hash : Bytes) : Filed Config.keyBlockStart (.raw hash)

/-- Every record stands under its own key. -/
def AllFiled (db : Db) : Prop := ∀ key value, db.find key = some value → Filed key value

theorem allFiled_empty : AllFiled .empty := fun key value present => by cases present

theorem AllFiled.save {db : Db} (filed : AllFiled db) {key : Bytes} {value : Value} (new : Filed key value) :
    AllFiled (db.save key value) := by
  intro other record present
  rw [Db.find_save] at present
  split at present
  · next same =>
    cases present
    exact same ▸ new
  · exact filed other record present

theorem Stored.unique {db : Db} {key : Bytes} {first second : BlockHead} (one : Stored db key first)
    (two : Stored db key second) : first = second :=
  BlockHead.json_injective (Option.some.inj (one.symm.trans two))

/-- A header is stored after a save when it was saved, or was there under another key. -/
theorem stored_save_iff {db : Db} {key saved : Bytes} {value : Value} {bh : BlockHead} :
    Stored (db.save saved value) key bh ↔ if key = saved then value = bh.json else Stored db key bh := by
  rw [Stored, Db.find_save]
  split
  · exact Option.some_inj
  · rfl

theorem stored_save_tx_iff {db : Db} {key : Bytes} {tx : TxItr} {bh : BlockHead} {saved : Bytes} :
    Stored (db.save saved tx.json) key bh ↔ key ≠ saved ∧ Stored db key bh := by
  rw [stored_save_iff]
  split
  · next same => simp [same, TxItr.json_ne_head]
  · next other => simp [other]

theorem stored_save_head_iff {db : Db} {key saved : Bytes} {new bh : BlockHead} :
    Stored (db.save saved new.json) key bh ↔ if key = saved then bh = new else Stored db key bh := by
  rw [stored_save_iff]
  split
  · exact ⟨fun same => (BlockHead.json_injective same).symm, fun same => same ▸ rfl⟩
  · rfl

theorem stored_save_raw_iff {db : Db} {key saved hash : Bytes} {bh : BlockHead} :
    Stored (db.save saved (.raw hash)) key bh ↔ key ≠ saved ∧ Stored db key bh := by
  rw [stored_save_iff]
  split
  · next same => simp [same, BlockHead.json]
  · next other => simp [other]

theorem TxItr.json_inj {first second : TxItr} (typed : first.Typed) (typed' : second.Typed)
    (same : first.json = second.json) : first = second := by
  have parsed := parse_json { sha3 := fun _ => [], hash160 := fun _ => [], unmarshal := fun _ => none } typed
  rw [same, parse_json _ typed'] at parsed
  exact (Option.some.inj parsed).symm

/-! ## Reading a filed record -/

/-- A record read as a transaction with outputs is that transaction, or the record of the first
block. -/
theorem Filed.read_tx {key : Bytes} {value : Value} (filed : Filed key value) {spent : TxItr}
    (read : parseTxBase rt value = some spent) (outputs : spent.getVout ≠ []) :
    (spent.Typed ∧ value = spent.json ∧ spent.getHash = key) ∨ key = Config.keyBlockStart := by
  cases filed with
  | tx tx typed =>
    rw [TxItr.parse_json rt typed] at read
    cases read
    exact .inl ⟨typed, rfl, rfl⟩
  | head bh =>
    rw [parseTxBase_head] at read
    cases read
    exact absurd rfl outputs
  | start hash => exact .inr rfl

/-- A header with this hash and nothing else. -/
def BlockHead.OnlyHash (bh : BlockHead) (hash : Bytes) : Prop := bh = { hash? := bh.hash? } ∧ bh.hash = hash

theorem BlockHead.OnlyHash.nexts {bh : BlockHead} {hash : Bytes} (only : bh.OnlyHash hash) : bh.nexts = [] := by
  rw [only.1]
  rfl

theorem BlockHead.OnlyHash.height {bh : BlockHead} {hash : Bytes} (only : bh.OnlyHash hash) : bh.height = 0 := by
  rw [only.1]

/-- A stored header stands under its own hash. -/
theorem Filed.own {key : Bytes} {bh : BlockHead} (filed : Filed key bh.json) : bh.hash = key := by
  generalize same : bh.json = value at filed
  cases filed with
  | tx tx _ => exact absurd same.symm (TxItr.json_ne_head tx bh)
  | head other => exact congrArg BlockHead.hash (BlockHead.json_injective same)
  | start hash => cases same

/-- A record read as a header is that header, or a transaction whose id becomes the hash, or the
record of the first block. -/
theorem Filed.read_head {key : Bytes} {value : Value} (filed : Filed key value) {parent : BlockHead}
    (read : parseBlockHead rt value = some parent) :
    (value = parent.json ∧ parent.hash = key) ∨
      (∃ tx : TxItr, tx.Typed ∧ value = tx.json ∧ tx.getHash = key ∧ parent.OnlyHash key) ∨
        key = Config.keyBlockStart := by
  cases filed with
  | tx tx typed =>
    rw [parseBlockHead_tx] at read
    cases read
    exact .inr (.inl ⟨tx, typed, rfl, rfl, rfl, rfl⟩)
  | head bh =>
    rw [BlockHead.parse_json] at read
    cases read
    exact .inl ⟨rfl, rfl⟩
  | start hash => exact .inr (.inr rfl)

/-! ## The loop over the transactions -/

/-- A payment or a deposit marks the outputs it spends. -/
def TxItr.Spends (tx : TxItr) : Prop :=
  tx.txClass = Config.walletTxTypeDepositIn ∨ tx.txClass = Config.walletTxTypePay

/-- A transaction with the mark of one output set. -/
def TxItr.marked (tx : TxItr) (index : UInt64) (txid : Bytes) : TxItr := tx.mapBase fun base => base.mark index txid

@[simp] theorem TxItr.getHash_marked (tx : TxItr) (index : UInt64) (txid : Bytes) :
    (tx.marked index txid).getHash = tx.getHash := by cases tx <;> rfl

theorem TxItr.getVout_marked (tx : TxItr) (index : UInt64) (txid : Bytes) :
    (tx.marked index txid).getVout = tx.getVout.modify index.toNat fun vout => { vout with tx := some txid } := by
  cases tx <;> exact TxBase.vout_setMark ..

@[simp] theorem TxItr.erase_buildHash (tx : TxItr) : (tx.buildHash rt).erase = tx.erase := by
  cases tx <;> rfl

@[simp] theorem TxItr.erase_marked (tx : TxItr) (index : UInt64) (txid : Bytes) :
    (tx.marked index txid).erase = tx.erase := by
  cases tx <;> simp only [TxItr.marked, TxItr.mapBase, TxItr.erase, TxBase.mark, TxBase.erase_setMark]

@[simp] theorem TxItr.id_buildHash (tx : TxItr) : (tx.buildHash rt).id rt = tx.id rt := by
  rw [← TxItr.id_erase, TxItr.erase_buildHash, TxItr.id_erase]

theorem TxItr.buildHash_buildHash (tx : TxItr) : (tx.buildHash rt).buildHash rt = tx.buildHash rt := by
  rw [TxItr.buildHash, TxItr.id_buildHash]
  cases tx <;> rfl

/-- A mark does not change the id. -/
theorem TxItr.id_marked (tx : TxItr) (index : UInt64) (txid : Bytes) :
    (tx.marked index txid).id rt = tx.id rt := by
  rw [← TxItr.id_erase, TxItr.erase_marked, TxItr.id_erase]

theorem TxItr.Typed.marked {tx : TxItr} (typed : tx.Typed) (index : UInt64) (txid : Bytes) :
    (tx.marked index txid).Typed := by cases tx <;> exact typed

@[simp] theorem TxItr.getHash_buildHash (tx : TxItr) : (tx.buildHash rt).getHash = tx.id rt := by
  cases tx <;> rfl

@[simp] theorem TxItr.getVin_buildHash (tx : TxItr) : (tx.buildHash rt).getVin = tx.getVin := by
  cases tx <;> rfl

@[simp] theorem TxItr.getVout_buildHash (tx : TxItr) : (tx.buildHash rt).getVout = tx.getVout := by
  cases tx <;> rfl

theorem TxItr.Typed.buildHash {tx : TxItr} (typed : tx.Typed) : (tx.buildHash rt).Typed := by
  cases tx <;> exact typed

/-- What marking keeps: a property kept by every mark of one of the inputs. -/
theorem markSpent_rule (skip : Bool) {txid : Bytes} {vins : List Vin} {P : Db → Prop}
    (mark : ∀ db, ∀ two ∈ vins, ∀ value spent, P db → db.find two.txid = some value →
      parseTxBase rt value = some spent → two.vout.toNat < spent.getVout.length →
        P (db.save spent.getHash (spent.marked two.vout txid).json))
    {db : Db} (start : P db) : P (markSpent rt skip txid vins db).1 := by
  induction vins generalizing db with
  | nil => exact start
  | cons two rest ih =>
    have later := fun db two member => mark db two (List.mem_cons_of_mem _ member)
    rw [markSpent]
    split
    · split
      · exact ih later start
      · exact start
    · next value present =>
      split
      · exact start
      · next spent read =>
        split
        · exact start
        · next next set =>
          simp only [TxItr.setTxid] at set
          split at set
          · next inside =>
            cases set
            exact ih later (mark db two (List.mem_cons_self ..) value spent start present read inside)
          · cases set

/-- What saving keeps: a property of the transactions done and the database, kept when the next
transaction is saved and when one of its inputs is marked. -/
theorem saveTxs_rule (skip : Bool) (txs : List TxItr) {P : List TxItr → Db → Prop}
    (save : ∀ before tx after db, txs = before ++ tx :: after → P before db →
      P (before ++ [tx]) (db.save (tx.id rt) (tx.buildHash rt).json))
    (mark : ∀ before tx after db, txs = before ++ tx :: after → tx.Spends → ∀ two ∈ tx.getVin,
      ∀ value spent, P (before ++ [tx]) db → db.find two.txid = some value →
        parseTxBase rt value = some spent → two.vout.toNat < spent.getVout.length →
          P (before ++ [tx]) (db.save spent.getHash (spent.marked two.vout (tx.id rt)).json))
    {db : Db} (start : P [] db) :
    ∃ before after, txs = before ++ after ∧ P before (saveTxs rt skip txs db).1 ∧
      ((saveTxs rt skip txs db).2 = .next → after = []) := by
  suffices general : ∀ before rest db, txs = before ++ rest → P before db →
      ∃ done after, txs = done ++ after ∧ P done (saveTxs rt skip rest db).1 ∧
        ((saveTxs rt skip rest db).2 = .next → after = []) from general [] txs db rfl start
  intro before rest
  induction rest generalizing before with
  | nil => exact fun db split kept => ⟨before, [], split, kept, fun _ => rfl⟩
  | cons tx rest ih =>
    intro db cut kept
    have cut' : txs = (before ++ [tx]) ++ rest := by rw [cut, List.append_assoc, List.singleton_append]
    have saved := save before tx rest db cut kept
    simp only [saveTxs, TxItr.getHash_buildHash, TxItr.txClass_buildHash, TxItr.getVin_buildHash]
    split
    · exact ih (before ++ [tx]) _ cut' saved
    · next spends =>
      have spends : tx.Spends := by
        unfold TxItr.Spends
        tauto
      have marked := markSpent_rule skip (mark before tx rest · cut spends) saved
      split
      · next db' ran =>
        rw [ran] at marked
        exact ih (before ++ [tx]) db' cut' marked
      · next stopped blocked =>
        refine ⟨before ++ [tx], rest, cut', marked, fun ended => ?_⟩
        exact (blocked _ (Prod.ext rfl ended)).elim

/-- The rule for a property of the database alone. -/
theorem saveTxs_keeps (skip : Bool) (txs : List TxItr) {P : Db → Prop}
    (save : ∀ tx ∈ txs, ∀ db, P db → P (db.save (tx.id rt) (tx.buildHash rt).json))
    (mark : ∀ tx ∈ txs, tx.Spends → ∀ two ∈ tx.getVin, ∀ db value spent, P db → db.find two.txid = some value →
      parseTxBase rt value = some spent → two.vout.toNat < spent.getVout.length →
        P (db.save spent.getHash (spent.marked two.vout (tx.id rt)).json))
    {db : Db} (start : P db) : P (saveTxs rt skip txs db).1 := by
  obtain ⟨before, after, -, kept, -⟩ := saveTxs_rule skip txs (P := fun _ db => P db)
    (fun before tx after db cut => save tx (by rw [cut]; simp) db)
    (fun before tx after db cut spends two member value spent =>
      mark tx (by rw [cut]; simp) spends two member db value spent) start
  exact kept

/-- Saving transactions files every record. -/
theorem AllFiled.after_saveTxs {skip : Bool} {txs : List TxItr} (typed : ∀ tx ∈ txs, tx.Typed) {db : Db}
    (filed : AllFiled db) : AllFiled (saveTxs rt skip txs db).1 := by
  apply saveTxs_keeps skip txs (P := AllFiled) _ _ filed
  · intro tx member db filed
    have new := Filed.tx (tx.buildHash rt) ((typed tx member).buildHash)
    rw [TxItr.getHash_buildHash] at new
    exact filed.save new
  · intro tx member spends two input db value spent filed present read inside
    have new := Filed.tx (spent.marked two.vout (tx.id rt)) ((TxItr.typed_of_parse read).marked _ _)
    rw [TxItr.getHash_marked] at new
    exact filed.save new

end PolarCloud.Mining
