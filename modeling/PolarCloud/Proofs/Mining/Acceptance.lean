import PolarCloud.Model.Mining.Payment
import PolarCloud.Proofs.Mining.AddBlock
import PolarCloud.Proofs.Mining.Records

/-! # Transactions that peers send

The documented contract of a check: every input names an output of a stored transaction, and what
goes in is what comes out. Every class passes every transaction, so what is accepted does not depend
on the database, and only a transaction that moves nothing meets the contract wherever it arrives.
-/

namespace PolarCloud.Mining

/-- The exact sum of the values of some outputs. -/
def worth (vouts : List Vout) : ℕ := (vouts.map fun vout => vout.value.toNat).sum

/-- The output of a stored transaction that an input names. -/
def namedOutput (rt : Runtime) (db : Db) (vin : Vin) : Option Vout := do
  let value ← db.find vin.txid
  let tx ← parseTxBase rt value
  tx.getVout[vin.vout.toNat]?

/-- What a class has to do with the outputs it spends: a payment pays its outputs and its gas from
them, a deposit its outputs, and the other classes create nothing beyond them. -/
def TxItr.Balances (tx : TxItr) (spent : List Vout) : Prop :=
  match tx with
  | .pay base => worth spent = worth base.vout + base.gas.toNat
  | .depositIn base => worth spent = worth base.vout
  | .reward base _ => worth base.vout ≤ worth spent
  | .depositOut base _ => worth base.vout ≤ worth spent

/-- The contract that a check documents. -/
def CheckContract (rt : Runtime) (db : Db) (tx : TxItr) : Prop :=
  ∃ spent, tx.getVin.mapM (namedOutput rt db) = some spent ∧ tx.Balances spent

/-- A broadcast that becomes pending has established the contract. -/
def AcceptsBalanced (rt : Runtime) (node : Node) (content : Value) : Prop :=
  ∀ tx, parseTxBase rt content = some tx →
    (multicastTransactionRecv rt node content).unpacked.load (tx.id rt) = some (tx.buildHash rt) →
      CheckContract rt node.db (tx.buildHash rt)

/-- Nothing goes in and nothing comes out. -/
structure TxItr.Worthless (tx : TxItr) : Prop where
  inputs : tx.getVin = []
  outputs : ∀ vout ∈ tx.getVout, vout.value = 0
  gas : tx.kind = Config.walletTxTypePay → tx.base.gas = 0

section Accept

variable {rt : Runtime}

/-- Whatever can be read becomes pending, whatever the database holds. -/
theorem multicastTransactionRecv_unpacked (node : Node) {content : Value} {tx : TxItr}
    (read : parseTxBase rt content = some tx) :
    (multicastTransactionRecv rt node content).unpacked.load (tx.id rt) = some (tx.buildHash rt) := by
  simp only [multicastTransactionRecv, read, TxItr.check, Bool.not_true, Bool.false_eq_true, if_false,
    TxItr.getHash_buildHash]
  exact SyncMap.load_store_self _ _ _

theorem toNat_eq_zero_iff (value : UInt64) : value.toNat = 0 ↔ value = 0 := by
  rw [← UInt64.toNat_inj]
  rfl

theorem worth_eq_zero_iff {vouts : List Vout} : worth vouts = 0 ↔ ∀ vout ∈ vouts, vout.value = 0 := by
  induction vouts with
  | nil => simp [worth]
  | cons vout rest ih =>
    have sum : worth (vout :: rest) = vout.value.toNat + worth rest := List.sum_cons
    rw [sum, Nat.add_eq_zero_iff, toNat_eq_zero_iff, ih, List.forall_mem_cons]

/-- Without inputs a transaction balances exactly when it is worthless. -/
theorem TxItr.balances_nil_iff {tx : TxItr} (noInputs : tx.getVin = []) :
    (tx.buildHash rt).Balances [] ↔ tx.Worthless := by
  have none : worth [] = 0 := rfl
  constructor
  · intro balances
    cases tx with
    | reward base createTime =>
      simp only [buildHash, mapBase, Balances, none, Nat.le_zero, worth_eq_zero_iff] at balances
      exact ⟨noInputs, balances, fun pays => by cases pays⟩
    | depositIn base =>
      simp only [buildHash, mapBase, Balances, none] at balances
      exact ⟨noInputs, worth_eq_zero_iff.mp balances.symm, fun pays => by cases pays⟩
    | depositOut base createTime =>
      simp only [buildHash, mapBase, Balances, none, Nat.le_zero, worth_eq_zero_iff] at balances
      exact ⟨noInputs, balances, fun pays => by cases pays⟩
    | pay base =>
      simp only [buildHash, mapBase, Balances, none] at balances
      have parts := Nat.add_eq_zero_iff.mp balances.symm
      exact ⟨noInputs, worth_eq_zero_iff.mp parts.1, fun _ => (toNat_eq_zero_iff _).mp parts.2⟩
  · rintro ⟨-, outputs, gas⟩
    have paid := worth_eq_zero_iff.mpr outputs
    cases tx with
    | reward base createTime => exact paid.le
    | depositIn base => exact paid.symm
    | depositOut base createTime => exact paid.le
    | pay base =>
      have free : base.gas.toNat = 0 := (toNat_eq_zero_iff _).mpr (gas rfl)
      simp only [buildHash, mapBase, Balances, none]
      exact (Nat.add_eq_zero_iff.mpr ⟨paid, free⟩).symm

/-- A broadcast is balanced wherever it is accepted exactly when it cannot be read or moves nothing. -/
theorem acceptsBalanced_iff (content : Value) :
    (∀ node, AcceptsBalanced rt node content) ↔ ∀ tx, parseTxBase rt content = some tx → tx.Worthless := by
  constructor
  · intro balanced tx read
    obtain ⟨spent, named, balances⟩ := balanced {} tx read (multicastTransactionRecv_unpacked {} read)
    rw [TxItr.getVin_buildHash] at named
    cases inputs : tx.getVin with
    | nil =>
      rw [inputs] at named
      cases named
      exact (TxItr.balances_nil_iff inputs).mp balances
    | cons vin rest =>
      rw [inputs, List.mapM_cons] at named
      cases named
  · intro worthless node tx read _
    have moved := worthless tx read
    refine ⟨[], ?_, (TxItr.balances_nil_iff moved.inputs).mpr moved⟩
    rw [TxItr.getVin_buildHash, moved.inputs]
    rfl

end Accept

/-! ## A reward from a peer -/

/-- A reward that a peer sends becomes pending, and it has no input for the value it creates. -/
theorem peer_reward_accepted : ∃ (node : Node) (content : Value), ¬ AcceptsBalanced Sample.runtime node content := by
  refine ⟨{}, (Sample.reward 0).json, fun balanced => ?_⟩
  have read : parseTxBase Sample.runtime (Sample.reward 0).json = some (Sample.reward 0) := TxItr.parse_json _ rfl
  obtain ⟨spent, named, balances⟩ := balanced _ read (multicastTransactionRecv_unpacked {} read)
  cases named
  have created : worth [{ value := 5, address? := some [0, 1, 2] }] ≤ worth [] := balances
  exact absurd created (by decide)

end PolarCloud.Mining
