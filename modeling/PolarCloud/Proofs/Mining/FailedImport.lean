import PolarCloud.Proofs.Mining.ImportLog
import PolarCloud.Proofs.Mining.SpentMarks

/-! # Imports that fail

Transactions are saved and outputs are marked before the import knows whether the block itself can
be saved, and no exit takes the work back. A failed import leaves the database alone only when the
work it had done repeats what is stored.
-/

namespace PolarCloud.Mining

open Keystore

namespace Event

/-- The block does not come into the database: the turn of the block saver ends before the header is
saved, or the synchronisation returns an error. -/
def Fails (rt : Runtime) (node : Node) : Event → Prop
  | save bhvo => (save bhvo).savedWith rt node = none
  | sync neighbour bhash => (syncBlockForDBAndNeighbor rt node neighbour bhash).2 = .error

/-- Every record of the arriving transactions and of the outputs they spend, as it is written last up
to the job that ends the loop, is in the database already. -/
def RepeatsStored (rt : Runtime) (db : Db) (event : Event) : Prop :=
  ∀ message, event.message? rt db = some message → ∀ key value,
    lastWrite (runJobs rt event.skip (txJobs rt message.txs) db).1 key = some value → db.load key = value

end Event

section Failed

variable {rt : Runtime} {wallet : Wallet} {node : Node}

/-- A synchronised block whose header is saved is returned. -/
theorem importBlock_of_savedWith {neighbour : Neighbour} {bhash : Bytes} {bh : BlockHead} {txs : List TxItr}
    {saved : Bytes × List Bytes}
    (brought : Event.message? rt node.db (.sync neighbour bhash) = some ⟨some bh, txs⟩)
    (stored : Event.savedWith rt node (.sync neighbour bhash) = some saved) :
    (importBlock rt node bh txs).2 = .ok bh := by
  rw [Event.savedWith_eq brought] at stored
  split at stored
  · next both =>
    obtain ⟨ended, readable⟩ := both
    have ran : saveTxs rt false txs node.db = ((saveTxs rt false txs node.db).1, .next) := Prod.ext rfl ended
    rw [importBlock, ran]
    dsimp only
    split
    · next due =>
      obtain ⟨parent, found⟩ := Option.isSome_iff_exists.mp (readable due)
      obtain ⟨value, present, read⟩ := Option.bind_eq_some_iff.mp found
      have present : Db.find (saveTxs rt false txs node.db).1 bh.previousblockhash = some value := present
      simp only [amendParent, present, read]
    · rfl
  · cases stored

/-- A failed import saves no header. -/
theorem Event.Fails.savedWith {event : Event} (failed : event.Fails rt node) : event.savedWith rt node = none := by
  cases event with
  | save bhvo => exact failed
  | sync neighbour bhash =>
    cases stored : Event.savedWith rt node (.sync neighbour bhash) with
    | none => rfl
    | some saved =>
      have failed : (syncBlockForDBAndNeighbor rt node neighbour bhash).2 = .error := failed
      rw [syncBlockForDBAndNeighbor] at failed
      cases lookup : (node.db.find bhash).bind (parseBlockHead rt) with
      | some bh =>
        rw [lookup] at failed
        cases failed
      | none =>
        cases answer : findBlockForNeighbor rt neighbour bhash with
        | ok block =>
          have brought : Event.message? rt node.db (.sync neighbour bhash) = some ⟨some block.1, block.2⟩ := by
            simp only [Event.message?, lookup, answer]
          rw [lookup, answer] at failed
          cases (importBlock_of_savedWith brought stored).symm.trans failed
        | error =>
          simp only [Event.savedWith, Event.message?, lookup, answer] at stored
          cases stored
        | panic =>
          simp only [Event.savedWith, Event.message?, lookup, answer] at stored
          cases stored

/-- The database after a failed import: the transactions up to the one that ended the loop. -/
theorem Event.Fails.db {event : Event} (failed : event.Fails rt node) :
    (event.message? rt node.db = none ∧ (handle rt wallet node event).db = node.db) ∨
      ∃ message, event.message? rt node.db = some message ∧
        (handle rt wallet node event).db = (saveTxs rt event.skip message.txs node.db).1 := by
  rcases @handle_db rt wallet node event with ⟨nothing, same⟩ | ⟨message, brought, imported⟩
  · exact .inl ⟨nothing, same⟩
  · refine .inr ⟨message, brought, ?_⟩
    have unsaved := failed.savedWith
    obtain ⟨head, txs⟩ := message
    generalize (handle rt wallet node event).db = after at imported
    cases imported with
    | stopped => rfl
    | plain bh found due ran =>
      cases found
      cases unsaved.symm.trans (Event.savedWith_plain brought due ran)
    | amended bh found due value parent ran present read =>
      cases found
      cases unsaved.symm.trans (Event.savedWith_amended brought ran present read)

/-- A failed import leaves the database alone exactly when it had only repeated what is stored. -/
theorem failed_unchanged_iff {event : Event} (failed : event.Fails rt node) :
    (handle rt wallet node event).db = node.db ↔ event.RepeatsStored rt node.db := by
  rcases @Event.Fails.db rt wallet node event failed with ⟨nothing, same⟩ | ⟨message, brought, ran⟩
  · refine ⟨fun _ message brought => ?_, fun _ => same⟩
    cases nothing.symm.trans brought
  · rw [ran, saveTxs_eq, SyncMap.replay_eq_self_iff]
    constructor
    · rintro repeated other found
      cases brought.symm.trans found
      exact repeated
    · exact fun repeated => repeated message brought

end Failed

/-! ## When a failed import repeats what is stored -/

/-- A message without transactions has nothing to repeat. -/
theorem repeatsStored_of_no_txs {rt : Runtime} {db : Db} {event : Event}
    (empty : ∀ message, event.message? rt db = some message → message.txs = []) : event.RepeatsStored rt db := by
  intro message brought key value last
  rw [empty message brought] at last
  cases last

/-- Nothing is deleted by the jobs. -/
theorem isSome_of_mem_runJobs {rt : Runtime} {skip : Bool} {jobs : List Job} {db : Db} {record : Record}
    (member : record ∈ (runJobs rt skip jobs db).1) : record.2.isSome := by
  induction jobs generalizing db with
  | nil => cases member
  | cons job rest ih =>
    cases wrote : job.write rt skip db with
    | error exit =>
      rw [runJobs_error wrote] at member
      cases member
    | ok written =>
      rw [runJobs_ok wrote] at member
      rcases List.mem_append.mp member with here | later
      · exact Job.isSome_of_write wrote here
      · exact ih later

/-- The first transaction of a failed import that changes nothing was stored before. -/
theorem Event.RepeatsStored.first {rt : Runtime} {db : Db} {event : Event} {head : Option BlockHead} {tx : TxItr}
    {rest : List TxItr} (repeated : event.RepeatsStored rt db)
    (brought : event.message? rt db = some ⟨head, tx :: rest⟩) : (db.find (tx.id rt)).isSome := by
  have repeated := repeated _ brought (tx.id rt)
  have written : (tx.id rt, some (tx.buildHash rt).json) ∈ (runJobs rt event.skip (txJobs rt (tx :: rest)) db).1 := by
    rw [txJobs, List.flatMap_cons, List.cons_append, runJobs_ok rfl]
    exact List.mem_append_left _ (List.mem_singleton_self _)
  cases last : lastWrite (runJobs rt event.skip (txJobs rt (tx :: rest)) db).1 (tx.id rt) with
  | none => exact absurd rfl (lastWrite_eq_none_iff.mp last _ written)
  | some value =>
    have present : (tx.id rt, value) ∈ (runJobs rt event.skip (txJobs rt (tx :: rest)) db).1 := mem_of_lastWrite last
    rw [Db.find, repeated value last]
    exact isSome_of_mem_runJobs present

/-! ## A block that is not saved -/

/-- The parent of a block is missing, and the reward of the block stays in the database. -/
theorem failed_import_saves : ∃ (node : Node) (event : Event), event.Fails Sample.runtime node ∧
    (handle Sample.runtime Sample.twoKeys node event).db ≠ node.db := by
  have failed : Event.Fails Sample.runtime {} (.save Sample.rewarding) := rfl
  refine ⟨{}, .save Sample.rewarding, failed, fun same => ?_⟩
  rcases @Event.Fails.db _ Sample.twoKeys _ _ failed with ⟨nothing, -⟩ | ⟨message, brought, ran⟩
  · cases nothing
  · cases brought
    have saved : saveTxs Sample.runtime true [Sample.reward 0] SyncMap.empty =
        (Db.save .empty ((Sample.reward 0).id Sample.runtime) ((Sample.reward 0).buildHash Sample.runtime).json,
          .next) :=
      rfl
    have found : Db.find (saveTxs Sample.runtime true [Sample.reward 0] SyncMap.empty).1
        ((Sample.reward 0).id Sample.runtime) = none :=
      congrArg (Db.find · ((Sample.reward 0).id Sample.runtime)) (ran.symm.trans same)
    rw [saved, Db.find_save_self] at found
    cases found

namespace Sample

/-- A node that has the payment and the reward with its mark, and no block. -/
def atPayment : Node :=
  { db := Db.save (Db.save .empty (spender.id runtime) (spender.buildHash runtime).json) sourceId spentSource.json }

/-- The payment is saved and its input marked. -/
theorem runJobs_spender : (runJobs runtime true (txJobs runtime [spender]) atPayment.db).1 =
    [(spender.id runtime, some (spender.buildHash runtime).json), (sourceId, some spentSource.json)] := by
  have jobs : txJobs runtime [spender] = [.save spender, .mark (spender.id runtime) { txid? := some sourceId }] := rfl
  have present : Db.find (atPayment.db.save (spender.id runtime) (spender.buildHash runtime).json) sourceId =
      some spentSource.json := by
    rw [Db.find_save_ne _ _ (id_spender_ne (by decide)).symm, atPayment, Db.find_save_self]
  have marks : Job.write runtime true (atPayment.db.save (spender.id runtime) (spender.buildHash runtime).json)
      (.mark (spender.id runtime) { txid? := some sourceId }) = .ok [(sourceId, some spentSource.json)] := by
    have read : parseTxBase runtime spentSource.json = some spentSource := TxItr.parse_json runtime (by decide)
    simp only [Job.write, show Vin.txid { txid? := some sourceId } = sourceId from rfl, present, read]
    rfl
  rw [jobs, runJobs_ok rfl]
  change _ :: (runJobs runtime true _ (atPayment.db.save _ _)).1 = _
  rw [runJobs_ok marks]
  rfl

end Sample

/-- A block without a stored parent, whose payment is stored and has its input marked, leaves the database alone. -/
theorem failed_import_repeated :
    (handle Sample.runtime Sample.twoKeys Sample.atPayment (.save Sample.spent)).db = Sample.atPayment.db := by
  have jobs : (runJobs Sample.runtime true (txJobs Sample.runtime Sample.spent.txs) Sample.atPayment.db).1 = _ :=
    Sample.runJobs_spender
  have failed : Event.Fails Sample.runtime Sample.atPayment (.save Sample.spent) := by
    have parent : Db.find (saveTxs Sample.runtime true Sample.spent.txs Sample.atPayment.db).1
        Sample.spending.previousblockhash = none := by
      rw [saveTxs_eq, jobs]
      rfl
    rw [Event.Fails, @Event.savedWith_eq _ Sample.atPayment (.save Sample.spent) Sample.spending _ rfl, if_neg]
    rintro ⟨-, readable⟩
    have readable := readable (by decide)
    rw [show Event.skip (.save Sample.spent) = true from rfl, parent] at readable
    cases readable
  apply (failed_unchanged_iff failed).mpr
  intro message brought key value last
  cases brought
  rw [show Event.skip (.save Sample.spent) = true from rfl, jobs] at last
  rcases List.mem_cons.mp (mem_of_lastWrite last) with payment | marked
  · cases payment
    exact (Db.find_save_ne _ _ (Sample.id_spender_ne (by decide))).trans (Db.find_save_self _ _ _)
  · cases List.mem_singleton.mp marked
    exact Db.find_save_self _ _ _

end PolarCloud.Mining
