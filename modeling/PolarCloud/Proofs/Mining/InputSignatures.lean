import PolarCloud.Proofs.Mining.Identity
import PolarCloud.Proofs.Mining.Spending

/-! # What the signature of an input covers

An input names an output by its number, and is signed over the first output that goes to the address
of the key. The signature covers the output that is spent exactly when the two show the same address
and value.
-/

namespace PolarCloud.Mining

open Keystore

section Signatures

variable (rt : Runtime) (wallet : Wallet) (node : Node) (call : Call)

/-- The transaction that is stored under an id. -/
def source (txid : Bytes) : Option TxItr := (node.db.find txid).bind (parseTxBase rt)

/-- The output that an input names. -/
def namedVout (place : Outpoint) : Option Vout :=
  (source rt node place.1).bind fun tx => tx.getVout[place.2.toNat]?

/-- The first output to the address of a key. -/
def firstVout (txid : Bytes) (key : Address) : Option Vout :=
  (source rt node txid).bind fun tx => tx.getVout.find? fun vout => vout.address = key.hash

/-- The signature of an input was made, with its key, over the output that it names. -/
def Covered (vin : Vin) : Prop :=
  ∃ vout, namedVout rt node vin.outpoint = some vout ∧ ∃ attempt key, key.pubkey = vin.puk ∧
    call.sign attempt key vout.checkJson.bytes Config.walletPassword = .ok vin.sign

/-- The output that an item names shows the same as the first one to the address of the key. -/
def NamesFirst (key : Address) (item : TxItem) : Prop :=
  ∃ named first, namedVout rt node item.outpoint = some named ∧ firstVout rt node item.txid key = some first ∧
    named.Alike first

/-- No signature is one of two texts. -/
def Signer.Binding (sign : Signer) : Prop :=
  ∀ attempt key text attempt' key' text' password signature, sign attempt key text password = .ok signature →
    sign attempt' key' text' password = .ok signature → text = text'

/-- The transactions that `CreateTxPay` and `CreateTxDepositIn` return. -/
inductive Returned : TxItr → Prop
  | pay {address : Bytes} {amount gas : UInt64} {tx : TxItr}
      (made : createTxPay rt wallet node call address amount gas = .ok tx) : Returned tx
  | depositIn {key : Address} {tx : TxItr} (made : createTxDepositIn rt node call key = some tx) : Returned tx

variable {rt wallet node call}

/-- The input for an item: signed over the first output to the address. -/
theorem payVin_eq_some_iff {key : Address} {attempt : ℕ} {item : TxItem} {vin : Vin} :
    payVin rt node call key attempt item = some vin ↔ ∃ first sign, firstVout rt node item.txid key = some first ∧
      call.sign attempt key first.checkJson.bytes Config.walletPassword = .ok sign ∧
        vin = { txid? := some item.txid, vout := item.outIndex, puk? := some key.pubkey, sign? := some sign } := by
  unfold payVin firstVout source
  simp only [Option.bind_eq_bind, Option.bind_eq_some_iff, Option.some.injEq]
  constructor
  · rintro ⟨bs, stored, tx, parsed, first, found, sign, signs, rfl⟩
    refine ⟨first, sign, ⟨tx, ⟨bs, stored, parsed⟩, found⟩, ?_, rfl⟩
    cases made : call.sign attempt key first.checkJson.bytes Config.walletPassword with
    | error text => simp [made, Except.toOption] at signs
    | ok other =>
      rw [made] at signs
      exact congrArg Except.ok (Option.some.inj signs)
  · rintro ⟨first, sign, ⟨tx, ⟨bs, stored, parsed⟩, found⟩, signs, rfl⟩
    exact ⟨bs, stored, tx, parsed, first, found, sign, by rw [signs]; rfl, rfl⟩

theorem bytes_checkJson_inj {vout other : Vout} :
    vout.checkJson.bytes = other.checkJson.bytes ↔ vout.Alike other :=
  Json.bytes_injective.eq_iff.trans Vout.checkJson_inj

/-- The signature over the first output covers the named one when both show the same. -/
theorem covered_of_namesFirst {key : Address} {attempt : ℕ} {item : TxItem} {made vin : Vin}
    (pays : payVin rt node call key attempt item = some made) (same : vin = { made with voutSign? := vin.voutSign? })
    (names : NamesFirst rt node key item) : Covered rt node call vin := by
  obtain ⟨first, sign, found, signs, rfl⟩ := payVin_eq_some_iff.mp pays
  obtain ⟨named, first', isNamed, isFirst, alike⟩ := names
  cases found.symm.trans isFirst
  rw [same]
  exact ⟨named, isNamed, attempt, key, rfl, bytes_checkJson_inj.mpr alike ▸ signs⟩

/-- Where signatures tell texts apart, it covers nothing else. -/
theorem namesFirst_of_covered (binding : call.sign.Binding) {key : Address} {attempt : ℕ} {item : TxItem}
    {made vin : Vin}
    (pays : payVin rt node call key attempt item = some made) (same : vin = { made with voutSign? := vin.voutSign? })
    (covered : Covered rt node call vin) : NamesFirst rt node key item := by
  obtain ⟨first, sign, found, signs, rfl⟩ := payVin_eq_some_iff.mp pays
  rw [same] at covered
  obtain ⟨named, isNamed, attempt', key', -, signs'⟩ := covered
  exact ⟨named, first, isNamed, found, bytes_checkJson_inj.mp (binding _ _ _ _ _ _ _ _ signs' signs)⟩

theorem Spends.covered_of_namesFirst {tx : TxItr} {spent : List (Address × TxItem)}
    (spends : Spends rt node call tx spent)
    (names : ∀ one ∈ spent, NamesFirst rt node one.1 one.2) : ∀ vin ∈ tx.getVin, Covered rt node call vin := by
  obtain ⟨vins, -⟩ := spends
  generalize tx.getVin = inputs at vins ⊢
  induction vins with
  | nil => exact List.forall_mem_nil _
  | cons paid _ ih =>
    obtain ⟨attempt, made, pays, same⟩ := paid
    obtain ⟨here, later⟩ := List.forall_mem_cons.mp names
    exact List.forall_mem_cons.mpr ⟨Mining.covered_of_namesFirst pays same here, ih later⟩

theorem Spends.namesFirst_of_covered {tx : TxItr} {spent : List (Address × TxItem)}
    (spends : Spends rt node call tx spent)
    (binding : call.sign.Binding) (covered : ∀ vin ∈ tx.getVin, Covered rt node call vin) :
    ∀ one ∈ spent, NamesFirst rt node one.1 one.2 := by
  obtain ⟨vins, -⟩ := spends
  generalize tx.getVin = inputs at vins covered
  induction vins with
  | nil => exact List.forall_mem_nil _
  | cons paid _ ih =>
    obtain ⟨attempt, made, pays, same⟩ := paid
    obtain ⟨here, later⟩ := List.forall_mem_cons.mp covered
    exact List.forall_mem_cons.mpr ⟨Mining.namesFirst_of_covered binding pays same here, ih later⟩

theorem Returned.spends {tx : TxItr} (returned : Returned rt wallet node call tx) :
    ∃ spent, Spends rt node call tx spent := by
  cases returned with
  | pay made =>
    obtain ⟨-, coinbase, sum, -, spends, -⟩ := createTxPay_spends made
    exact ⟨_, spends⟩
  | depositIn made =>
    obtain ⟨-, sum, spends, -⟩ := createTxDepositIn_spends made
    exact ⟨_, spends⟩

/-- Every input of a returned transaction is signed over the output that it spends if every item that is
spent names an output which shows the same as the first one to its address, and only then where
signatures tell texts apart. -/
theorem inputs_covered_iff {tx : TxItr} (returned : Returned rt wallet node call tx) :
    ∃ spent, Spends rt node call tx spent ∧
      ((∀ one ∈ spent, NamesFirst rt node one.1 one.2) → ∀ vin ∈ tx.getVin, Covered rt node call vin) ∧
        (call.sign.Binding → (∀ vin ∈ tx.getVin, Covered rt node call vin) →
          ∀ one ∈ spent, NamesFirst rt node one.1 one.2) := by
  obtain ⟨spent, spends⟩ := returned.spends
  exact ⟨spent, spends, spends.covered_of_namesFirst, spends.namesFirst_of_covered⟩

end Signatures

namespace Sample

/-- Signatures that are the texts they cover. -/
def textCall (holder : Address) (item : TxItem) : Call := { call holder item with sign := fun _ _ text _ => .ok text }

theorem binding_textCall (holder : Address) (item : TxItem) : (textCall holder item).sign.Binding := by
  intro attempt key text attempt' key' text' password signature signs signs'
  exact (Except.ok.inj signs).trans (Except.ok.inj signs').symm

theorem mem_visited_textCall {node : Node} {holder key : Address} {item other : TxItem}
    (balance : node.balanceM.balance = onlyItem holder item) :
    other ∈ visited node (textCall holder item) key ↔ key.hash = holder.hash ∧ other = item := by
  by_cases own : key.hash = holder.hash
  · simp [visited, BalanceManager.findBalance, balance, onlyItem, textCall, call, own]
  · simp [visited, BalanceManager.findBalance, balance, onlyItem, SyncMap.load_store, SyncMap.load_empty, own]

/-- A node whose only item is an output of a stored transaction to the other address pays with it. -/
theorem pays_onlyItem {node : Node} {item : TxItem} {source : TxItr} {vout : Vout}
    (balance : node.balanceM.balance = onlyItem otherKey item) (stored : node.db.find item.txid = some source.json)
    (typed : source.Typed) (output : source.getVout[item.outIndex.toNat]? = some vout)
    (address : vout.address = otherKey.hash) (value : item.value = 5) :
    ∃ tx, createTxPay runtime twoKeys node (textCall otherKey item) [9] 2 1 = .ok tx ∧ tx.getVin ≠ [] := by
  have fixed := payable balance stored typed output address
  have payable : Payable runtime twoKeys node (textCall otherKey item) coinbaseKey :=
    ⟨fixed.mines, fixed.distinct, fixed.visits, fixed.keyed, fixed.backed, fun _ _ _ text => ⟨text, rfl⟩⟩
  have visits : visited node (textCall otherKey item) otherKey = [item] := by
    simp [visited, BalanceManager.findBalance, balance, onlyItem, textCall, call]
  have takes : selected twoKeys node (textCall otherKey item) coinbaseKey
      (fun sum => ((2 : UInt64) + 1).toNat ≤ sum % 2 ^ 64) = [item] := by
    have others_eq : others twoKeys coinbaseKey = [otherKey] := by decide
    simp [selected, Selection.select, Selection.takeRows, Selection.takeRow, Selection.total, others_eq, visits,
      TxItem.worth, value]
  rcases payable.createTxPay_cases [9] 2 1 with ⟨short, -⟩ | ⟨-, tx, made, inputs, -⟩
  · rw [takes] at short
    simp [Selection.total, TxItem.worth, value] at short
  · rw [takes] at inputs
    refine ⟨tx, made, fun none => ?_⟩
    rw [none] at inputs
    cases inputs

/-- A deposit with a rest: both of its outputs go to the other address. -/
def deposit : TxItr :=
  .depositIn
    { type := Config.walletTxTypeDepositIn, vinTotal := 1, vout? := some <| depositVouts otherKey (Config.miningDeposit + 5) }

/-- The rest, as its item. -/
def restItem : TxItem := { value := 5, txid := deposit.id runtime, outIndex := 1 }

/-- A node that has stored the deposit and counted the rest. -/
def rested : Node where
  db := .save .empty restItem.txid deposit.json
  balanceM := { balance := onlyItem otherKey restItem }

theorem source_saved {txid : Bytes} {tx : TxItr} (typed : tx.Typed) {balanceM : BalanceManager} :
    source runtime { db := .save .empty txid tx.json, balanceM } txid = some tx := by
  rw [source, Db.find_save_self, Option.bind_some, TxItr.parse_json runtime typed]

end Sample

/-- The payment from a reward is signed over the output that it spends. -/
theorem reward_covered : ∃ tx, createTxPay Sample.runtime Sample.twoKeys Sample.funded
    (Sample.textCall Sample.otherKey Sample.item) [9] 2 1 = .ok tx ∧
      ∀ vin ∈ tx.getVin, Covered Sample.runtime Sample.funded (Sample.textCall Sample.otherKey Sample.item) vin := by
  obtain ⟨tx, made, -⟩ := @Sample.pays_onlyItem Sample.funded Sample.item (Sample.reward 0)
    { value := 5, address? := some Sample.otherKey.hash } rfl (Db.find_save_self _ _ _) (by decide) rfl rfl rfl
  obtain ⟨spent, spends, covers, -⟩ := inputs_covered_iff (.pay made)
  refine ⟨tx, made, covers fun one member => ?_⟩
  obtain ⟨key, isItem⟩ := (Sample.mem_visited_textCall rfl).mp (spends.visits one member)
  have stored : source Sample.runtime Sample.funded Sample.item.txid = some (Sample.reward 0) :=
    Sample.source_saved (by decide)
  refine ⟨{ value := 5, address? := some Sample.otherKey.hash }, { value := 5, address? := some Sample.otherKey.hash }, ?_, ?_,
    rfl, rfl⟩
  · rw [isItem, namedVout]
    exact congrArg (Option.bind · _) stored
  · rw [isItem, firstVout, key]
    exact congrArg (Option.bind · _) stored

/-- The payment from the rest of a deposit is signed over the deposit. -/
theorem rest_not_covered : ∃ tx, (Sample.textCall Sample.otherKey Sample.restItem).sign.Binding ∧
    createTxPay Sample.runtime Sample.twoKeys Sample.rested (Sample.textCall Sample.otherKey Sample.restItem) [9] 2 1 =
      .ok tx ∧ ¬ ∀ vin ∈ tx.getVin,
        Covered Sample.runtime Sample.rested (Sample.textCall Sample.otherKey Sample.restItem) vin := by
  have binding := Sample.binding_textCall Sample.otherKey Sample.restItem
  obtain ⟨tx, made, inputs⟩ := @Sample.pays_onlyItem Sample.rested Sample.restItem Sample.deposit
    { value := 5, address? := some Sample.otherKey.hash } rfl (Db.find_save_self _ _ _) (by decide) rfl rfl rfl
  refine ⟨tx, binding, made, fun covered => ?_⟩
  obtain ⟨-, coinbase, sum, -, spends, -⟩ := createTxPay_spends made
  have names := spends.namesFirst_of_covered binding covered
  generalize (drawPay _ _ _ _ coinbase _).coins = spent at spends names
  obtain ⟨one, rest, isSpent⟩ := List.exists_cons_of_length_pos (show 0 < spent.length by
    rw [spends.vins.length_eq]
    exact List.length_pos_iff.mpr inputs)
  have member : one ∈ spent := isSpent ▸ List.mem_cons_self
  obtain ⟨key, isItem⟩ := (Sample.mem_visited_textCall rfl).mp (spends.visits one member)
  have stored : source Sample.runtime Sample.rested Sample.restItem.txid = some Sample.deposit :=
    Sample.source_saved (by decide)
  obtain ⟨named, first, isNamed, isFirst, alike⟩ := names one member
  rw [isItem, namedVout] at isNamed
  rw [isItem, firstVout, key] at isFirst
  cases (congrArg (Option.bind · _) stored).symm.trans isNamed
  cases (congrArg (Option.bind · _) stored).symm.trans isFirst
  exact absurd alike.value (by decide)

end PolarCloud.Mining
