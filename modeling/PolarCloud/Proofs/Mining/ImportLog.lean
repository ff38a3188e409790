import PolarCloud.Proofs.Mining.Records

/-! # The loop over the transactions as a log of writes

Saving the transactions of a block and marking what they spend is one sequence of jobs. Each job
looks at the database as the jobs before it have left it, and writes one record, passes, or ends the
loop. The database after the loop is the replay of what was written.
-/

namespace PolarCloud.Mining

/-- Save a transaction, or mark the output that an input of a transaction spends. -/
inductive Job where
  | save (tx : TxItr)
  | mark (txid : Bytes) (two : Vin)

/-- One write to the database. -/
abbrev Record := Bytes × Option Value

section Log

variable (rt : Runtime) (skip : Bool)

/-- What a job writes, or how it ends the loop. -/
def Job.write (db : Db) : Job → Except Exit (List Record)
  | save tx => .ok [(tx.id rt, some (tx.buildHash rt).json)]
  | mark txid two =>
      match db.find two.txid with
      | none => if skip then .ok [] else .error .stop
      | some txbs =>
          match parseTxBase rt txbs with
          | none => .error .stop
          | some txItr =>
              if two.vout.toNat < txItr.getVout.length then
                .ok [(txItr.getHash, some (txItr.marked two.vout txid).json)]
              else .error .panic

/-- The jobs for one input after the other. -/
def markJobs (txid : Bytes) (vins : List Vin) : List Job := vins.map (.mark txid)

instance (tx : TxItr) : Decidable tx.Spends := by
  unfold TxItr.Spends
  infer_instance

/-- The jobs for the transactions of a block. -/
def txJobs (txs : List TxItr) : List Job :=
  txs.flatMap fun tx => .save tx :: if tx.Spends then markJobs (tx.id rt) tx.getVin else []

/-- What the jobs write until one ends the loop, and how it ends. -/
def runJobs : List Job → Db → List Record × Exit
  | [], _ => ([], .next)
  | job :: rest, db =>
      match job.write rt skip db with
      | .error exit => ([], exit)
      | .ok written =>
          let (later, exit) := runJobs rest (db.replay written)
          (written ++ later, exit)

end Log

section Run

variable {rt : Runtime} {skip : Bool}

theorem runJobs_ok {job : Job} {rest : List Job} {db : Db} {written : List Record}
    (wrote : job.write rt skip db = .ok written) : runJobs rt skip (job :: rest) db =
      (written ++ (runJobs rt skip rest (db.replay written)).1, (runJobs rt skip rest (db.replay written)).2) := by
  simp only [runJobs, wrote]

theorem runJobs_error {job : Job} {rest : List Job} {db : Db} {exit : Exit}
    (ended : job.write rt skip db = .error exit) : runJobs rt skip (job :: rest) db = ([], exit) := by
  simp only [runJobs, ended]

/-- A job that ends the loop does not end it with the next message. -/
theorem Job.exit_ne {job : Job} {db : Db} {exit : Exit} (ended : job.write rt skip db = .error exit) :
    exit ≠ .next := by
  rintro rfl
  cases job with
  | save tx => cases ended
  | mark txid two =>
    simp only [write] at ended
    split at ended
    · split at ended <;> cases ended
    · split at ended
      · cases ended
      · split at ended <;> cases ended

/-- A job writes values and deletes nothing. -/
theorem Job.isSome_of_write {job : Job} {db : Db} {written : List Record} {record : Record}
    (wrote : job.write rt skip db = .ok written) (member : record ∈ written) : record.2.isSome := by
  cases job with
  | save tx =>
    cases wrote
    cases List.mem_singleton.mp member
    rfl
  | mark txid two =>
    simp only [write] at wrote
    split at wrote
    · split at wrote
      · cases wrote
        cases member
      · cases wrote
    · split at wrote
      · cases wrote
      · split at wrote
        · cases wrote
          cases List.mem_singleton.mp member
          rfl
        · cases wrote

theorem runJobs_append (first second : List Job) (db : Db) :
    runJobs rt skip (first ++ second) db =
      if (runJobs rt skip first db).2 = .next then
        ((runJobs rt skip first db).1 ++ (runJobs rt skip second (db.replay (runJobs rt skip first db).1)).1,
          (runJobs rt skip second (db.replay (runJobs rt skip first db).1)).2)
      else runJobs rt skip first db := by
  induction first generalizing db with
  | nil => rfl
  | cons job rest ih =>
    rw [List.cons_append]
    cases wrote : job.write rt skip db with
    | error exit => rw [runJobs_error wrote, runJobs_error wrote, if_neg (Job.exit_ne wrote)]
    | ok written =>
      rw [runJobs_ok wrote, runJobs_ok wrote, ih]
      dsimp only
      split
      · rw [SyncMap.replay_append, List.append_assoc]
      · rfl

/-- Marking is running the jobs of the inputs. -/
theorem markSpent_eq (txid : Bytes) (vins : List Vin) (db : Db) :
    markSpent rt skip txid vins db =
      (db.replay (runJobs rt skip (markJobs txid vins) db).1, (runJobs rt skip (markJobs txid vins) db).2) := by
  induction vins generalizing db with
  | nil => rfl
  | cons two rest ih =>
    rw [markSpent, markJobs, List.map_cons, ← markJobs]
    cases present : db.find two.txid with
    | none =>
      cases skip with
      | true =>
        rw [runJobs_ok (show (Job.mark txid two).write rt true db = .ok [] by simp only [Job.write, present]; rfl)]
        exact ih db
      | false =>
        rw [runJobs_error (show (Job.mark txid two).write rt false db = .error .stop by
          simp only [Job.write, present]; rfl)]
        rfl
    | some txbs =>
      dsimp only
      cases read : parseTxBase rt txbs with
      | none =>
        rw [runJobs_error (show (Job.mark txid two).write rt skip db = .error .stop by
          simp only [Job.write, present, read])]
        rfl
      | some spent =>
        by_cases inside : two.vout.toNat < spent.getVout.length
        · rw [runJobs_ok (show (Job.mark txid two).write rt skip db =
            .ok [(spent.getHash, some (spent.marked two.vout txid).json)] by
              simp only [Job.write, present, read, if_pos inside])]
          simp only [TxItr.setTxid, if_pos inside]
          exact ih _
        · rw [runJobs_error (show (Job.mark txid two).write rt skip db = .error .panic by
            simp only [Job.write, present, read, if_neg inside])]
          simp only [TxItr.setTxid, if_neg inside]
          rfl

/-- Saving the transactions is running their jobs. -/
theorem saveTxs_eq (txs : List TxItr) (db : Db) :
    saveTxs rt skip txs db = (db.replay (runJobs rt skip (txJobs rt txs) db).1,
      (runJobs rt skip (txJobs rt txs) db).2) := by
  induction txs generalizing db with
  | nil => rfl
  | cons tx rest ih =>
    rw [saveTxs, txJobs, List.flatMap_cons, ← txJobs, List.cons_append,
      runJobs_ok (show (Job.save tx).write rt skip db = .ok [(tx.id rt, some (tx.buildHash rt).json)] from rfl)]
    have saved : db.replay [(tx.id rt, some (tx.buildHash rt).json)] = db.save (tx.id rt) (tx.buildHash rt).json := rfl
    simp only [TxItr.getHash_buildHash, TxItr.txClass_buildHash, TxItr.getVin_buildHash, SyncMap.replay_append, saved]
    by_cases spends : tx.Spends
    · rw [if_pos spends, if_neg (by unfold TxItr.Spends at spends; tauto), runJobs_append, markSpent_eq]
      generalize runJobs rt skip (markJobs (tx.id rt) tx.getVin) (db.save (tx.id rt) (tx.buildHash rt).json) = marked
      obtain ⟨log, exit⟩ := marked
      cases exit with
      | next => simp only [ih, if_true, SyncMap.replay_append]
      | stop => rfl
      | panic => rfl
    · rw [if_neg spends, if_pos (by unfold TxItr.Spends at spends; tauto), ih]
      rfl

end Run

end PolarCloud.Mining
