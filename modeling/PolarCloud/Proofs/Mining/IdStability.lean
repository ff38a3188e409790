import PolarCloud.Model.Mining.Transaction

/-! # Ids that stay

Neither hash, block hash nor marks are hashed into an id, and a record reads back as the transaction
it was written for, slices that are nil and slices that are empty included. So no sequence of these
operations changes the id.
-/

namespace PolarCloud.Mining

inductive Operation where
  | setTxid (index : UInt64) (txid : Option Bytes)
  | setHash (hash? : Option Bytes)
  | setBlockHash (blockHash? : Option Bytes)
  /-- `Json`, and `ParseTxBase` of what it gives -/
  | reload
deriving DecidableEq, Repr

/-- An operation marks outputs that are there. -/
def Operation.Valid (tx : TxItr) : Operation → Prop
  | .setTxid index _ => index.toNat < tx.getVout.length
  | _ => True

namespace TxItr

/-- One operation; nothing is left after a panic or a record that cannot be read. -/
def step (rt : Runtime) (tx : TxItr) : Operation → Option TxItr
  | .setTxid index txid =>
      if index.toNat < tx.getVout.length then some (tx.mapBase fun base => base.setMark index txid) else none
  | .setHash hash? => some (tx.mapBase fun base => { base with hash? })
  | .setBlockHash blockHash? => some (tx.mapBase fun base => { base with blockHash? })
  | .reload => parseTxBase rt tx.json

variable {rt : Runtime} {tx next : TxItr}

/-- Changes of hash, block hash and marks keep what the id covers. -/
theorem erase_mapBase {f : TxBase → TxBase} (kept : ∀ base, (f base).erase = base.erase) :
    (tx.mapBase f).erase = tx.erase := by
  cases tx <;> simp only [erase, mapBase, kept]

theorem typed_mapBase {f : TxBase → TxBase} (kept : ∀ base, (f base).erase = base.erase) (typed : tx.Typed) :
    (tx.mapBase f).Typed := by
  have same (base : TxBase) : (f base).erase.type = base.erase.type := congrArg TxBase.type (kept base)
  cases tx <;> exact (same _).trans typed

theorem length_getVout_mapBase {f : TxBase → TxBase} (kept : ∀ base, (f base).erase = base.erase) :
    (tx.mapBase f).getVout.length = tx.getVout.length := by
  have same (base : TxBase) : (f base).vout.length = base.vout.length := by
    have outputs := congrArg (fun base => base.vout.length) (kept base)
    simpa [TxBase.erase, TxBase.vout] using outputs
  cases tx <;> exact same _

/-- What every operation keeps. -/
structure Kept (rt : Runtime) (tx next : TxItr) : Prop where
  id : next.id rt = tx.id rt
  typed : next.Typed
  outputs : next.getVout.length = tx.getVout.length

/-- One operation. -/
theorem step_kept (typed : tx.Typed) {operation : Operation} (valid : Operation.Valid tx operation) :
    ∃ next, tx.step rt operation = some next ∧ Kept rt tx next := by
  have changed {f : TxBase → TxBase} (kept : ∀ base, (f base).erase = base.erase) : Kept rt tx (tx.mapBase f) :=
    ⟨id_congr rt (erase_mapBase kept), typed_mapBase kept typed, length_getVout_mapBase kept⟩
  cases operation with
  | setTxid index txid => exact ⟨_, if_pos valid, changed fun base => base.erase_setMark index txid⟩
  | setHash hash? => exact ⟨_, rfl, changed fun _ => rfl⟩
  | setBlockHash blockHash? => exact ⟨_, rfl, changed fun _ => rfl⟩
  | reload => exact ⟨tx, parse_json rt typed, rfl, typed, rfl⟩

/-- The id of a transaction is the same after any sequence of operations that mark outputs which are there. -/
theorem id_stable (typed : tx.Typed) (operations : List Operation)
    (valid : ∀ operation ∈ operations, Operation.Valid tx operation) :
    ∃ next, operations.foldlM (step rt) tx = some next ∧ next.id rt = tx.id rt := by
  suffices general : ∀ now, Kept rt tx now → ∃ next, operations.foldlM (step rt) now = some next ∧ Kept rt tx next by
    obtain ⟨next, ran, kept⟩ := general tx ⟨rfl, typed, rfl⟩
    exact ⟨next, ran, kept.id⟩
  induction operations with
  | nil => exact fun now kept => ⟨now, rfl, kept⟩
  | cons operation rest ih =>
    intro now kept
    obtain ⟨here, later⟩ := List.forall_mem_cons.mp valid
    have valid' : Operation.Valid now operation := by
      cases operation with
      | setTxid index txid => exact lt_of_lt_of_eq here kept.outputs.symm
      | _ => trivial
    obtain ⟨next, stepped, after⟩ := @step_kept rt now kept.typed operation valid'
    obtain ⟨final, ran, kept'⟩ := ih later next
      ⟨after.id.trans kept.id, after.typed, after.outputs.trans kept.outputs⟩
    refine ⟨final, ?_, kept'⟩
    rw [List.foldlM_cons, stepped]
    exact ran

/-- A reward of two outputs, with an empty list of inputs and a nil address. -/
def sampleReward : TxItr :=
  .reward { voutTotal := 2, vin? := some [], vout? := some [{ value := 5, address? := some [1] }, { value := 6 }] } 7

/-- Its outputs are marked, its hashes are set, and it is saved and read in between. -/
def sampleOperations : List Operation :=
  [.setTxid 0 (some []), .setHash none, .reload, .setBlockHash (some [1]), .setTxid 1 (some [2]), .reload]

/-- The hash is the text itself. -/
theorem id_stable_sample : ∃ next,
    sampleOperations.foldlM (step ⟨fun text => text, fun key => key, fun _ => none⟩) sampleReward = some next ∧
      next.id ⟨fun text => text, fun key => key, fun _ => none⟩ =
        sampleReward.id ⟨fun text => text, fun key => key, fun _ => none⟩ := by
  refine @id_stable _ sampleReward rfl sampleOperations ?_
  simp [sampleOperations, Operation.Valid, sampleReward, getVout, base, TxBase.vout]

end TxItr

end PolarCloud.Mining
