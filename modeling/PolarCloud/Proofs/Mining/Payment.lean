import PolarCloud.Base.Selection
import PolarCloud.Model.Mining.Payment
import PolarCloud.Proofs.Mining.AddBlock
import PolarCloud.Proofs.Mining.Records

/-! # What a payment collects and what it pays out

The collecting loops select items by the running sum modulo `2 ^ 64`. The exact sum of the selected
items is what the outputs and the gas come to exactly when it passes `2 ^ 64` as often as the amount
with the gas does; below `2 ^ 64` neither passes it and every payment conserves value.
-/

namespace PolarCloud.Mining

open Keystore Selection

/-- The output that an input names. -/
def Vin.outpoint (vin : Vin) : Outpoint := (vin.txid, vin.vout)

namespace TxItem

def outpoint (item : TxItem) : Outpoint := (item.txid, item.outIndex)

/-- The exact value. -/
def worth (item : TxItem) : ℕ := item.value.toNat

end TxItem

section Wallet

variable (rt : Runtime) (wallet : Wallet) (node : Node) (call : Call) (coinbase : Address)

/-- The addresses other than the coinbase, which give up their items first. -/
def others : List Address := wallet.addrList.filter fun one => one.hash ≠ coinbase.hash

/-- All addresses of the wallet. -/
def payers : List Address := others wallet coinbase ++ [coinbase]

/-- The exact sum of the wallet's unspent values. -/
def funds : ℕ := total TxItem.worth ((payers wallet coinbase).flatMap (visited node call))

/-- The items that are selected by a test of the exact sum, in the order of the visits. -/
def selected (enough : ℕ → Prop) [DecidablePred enough] : List TxItem :=
  select TxItem.worth enough ((others wallet coinbase).map (visited node call)) (visited node call coinbase)

/-- A wallet whose payments can be made: the maps are visited in some order, every item is an output
of a stored transaction to its address, and signatures are made. -/
structure Payable : Prop where
  mines : wallet.coinbase = some coinbase
  distinct : (wallet.addrList.map Address.hash).Nodup
  visits : ∀ key ∈ payers wallet coinbase, ∀ items, node.balanceM.findBalance key.hash = some items →
    SyncMap.Enumerates (call.visits key.hash) items
  keyed : ∀ key ∈ payers wallet coinbase, ∀ place item, node.balanceM.balance.entry key.hash place = some item →
    place = item.outpoint
  backed : ∀ key ∈ payers wallet coinbase, ∀ place item, node.balanceM.balance.entry key.hash place = some item →
    ∃ bs tx vout, node.db.find item.txid = some bs ∧ parseTxBase rt bs = some tx ∧
      tx.getVout[item.outIndex.toNat]? = some vout ∧ vout.address = key.hash
  signs : ∀ attempts, ∀ key ∈ coinbase :: wallet.addrList, ∀ text,
    ∃ sign, call.sign attempts key text Config.walletPassword = .ok sign

/-- What a payment is to be: inputs from distinct unspent items of the wallet, the amount to the
address in the first output, and as much going in as going out. -/
structure Conserves (address : Bytes) (amount gas : UInt64) (tx : TxItr) : Prop where
  inputs : ∃ items : List TxItem, tx.getVin.map Vin.outpoint = items.map TxItem.outpoint ∧
    (items.map TxItem.outpoint).Nodup ∧
      (∀ item ∈ items, ∃ key ∈ payers wallet coinbase, node.balanceM.balance.entry key.hash item.outpoint = some item) ∧
        total TxItem.worth items = (tx.getVout.map fun vout => vout.value.toNat).sum + gas.toNat
  output : ∃ vout, tx.getVout[0]? = some vout ∧ vout.value = amount ∧ vout.address = address

/-- A payment is made exactly when the wallet can afford it, and then it conserves value. -/
def Conserving (address : Bytes) (amount gas : UInt64) : Prop :=
  ((∃ tx, createTxPay rt wallet node call address amount gas = .ok tx) ↔
    amount.toNat + gas.toNat ≤ funds wallet node call coinbase) ∧
      ∀ tx, createTxPay rt wallet node call address amount gas = .ok tx →
        Conserves wallet node coinbase address amount gas tx

/-- No sum that the payment is built from passes `2 ^ 64`. Where amount and gas alone pass it, the
loops look for what is left of them: their items must pass it too, or the wallet be too poor. -/
def WithinWord (amount gas : UInt64) : Prop :=
  let need := amount.toNat + gas.toNat
  if need < 2 ^ 64 then total TxItem.worth (selected wallet node call coinbase fun sum => need ≤ sum) < 2 ^ 64
  else
    let taken := total TxItem.worth (selected wallet node call coinbase fun sum => need % 2 ^ 64 ≤ sum % 2 ^ 64)
    if need % 2 ^ 64 ≤ taken % 2 ^ 64 then taken / 2 ^ 64 = 1 else funds wallet node call coinbase < need

instance (amount gas : UInt64) : Decidable (WithinWord wallet node call coinbase amount gas) := by
  unfold WithinWord
  infer_instance

end Wallet

/-! ## The collecting loops -/

section Collect

variable {rt : Runtime} {wallet : Wallet} {node : Node} {call : Call} {coinbase : Address}

/-- The loops have selected these items. -/
structure Tracks (collected : Collected) (taken : List TxItem) : Prop where
  outpoints : collected.vins.map Vin.outpoint = taken.map TxItem.outpoint
  total : collected.total.toNat = Selection.total TxItem.worth taken % 2 ^ 64

theorem Tracks.push {collected : Collected} {taken : List TxItem} {vin : Vin} {item : TxItem}
    (tracks : Tracks collected taken) (same : vin.outpoint = item.outpoint) (attempts : ℕ) :
    Tracks ⟨collected.vins ++ [vin], collected.total + item.value, attempts⟩ (taken ++ [item]) where
  outpoints := by simp only [List.map_append, List.map_cons, List.map_nil, tracks.outpoints, same]
  total := by
    rw [UInt64.toNat_add, tracks.total, Selection.total_append]
    simp [Selection.total, TxItem.worth]

/-- A visit selects by the sum modulo `2 ^ 64`. -/
theorem visitItems_tracks {payVin : ℕ → TxItem → Option Vin} {need : UInt64} {row : List TxItem}
    {collected : Collected} {taken : List TxItem} (tracks : Tracks collected taken)
    (spendable : ∀ item ∈ row, ∀ attempts, ∃ vin, payVin attempts item = some vin ∧ vin.outpoint = item.outpoint) :
    Tracks (visitItems payVin need row collected)
      (takeRow TxItem.worth (fun sum => need.toNat ≤ sum % 2 ^ 64) taken row) := by
  induction row generalizing collected taken with
  | nil => exact tracks
  | cons item rest ih =>
    obtain ⟨vin, pays, same⟩ := spendable item List.mem_cons_self collected.attempts
    have pushed := tracks.push same (collected.attempts + 1)
    have met : need ≤ collected.total + item.value ↔
        need.toNat ≤ Selection.total TxItem.worth (taken ++ [item]) % 2 ^ 64 := by
      rw [← pushed.total, UInt64.le_iff_toNat_le]
    rw [visitItems, pays, takeRow]
    dsimp only
    by_cases enough : need ≤ collected.total + item.value
    · rw [if_pos enough, if_pos (met.mp enough)]
      exact pushed
    · rw [if_neg enough, if_neg (fun reached => enough (met.mpr reached))]
      exact ih pushed fun item member => spendable item (List.mem_cons_of_mem _ member)

namespace Payable

variable (payable : Payable rt wallet node call coinbase)

include payable

theorem mem_visited_iff {key : Address} (payer : key ∈ payers wallet coinbase) {item : TxItem} :
    item ∈ visited node call key ↔ node.balanceM.balance.entry key.hash item.outpoint = some item := by
  have entry (place : Outpoint) : node.balanceM.balance.entry key.hash place =
      (node.balanceM.findBalance key.hash).bind fun items => items.load place := rfl
  have keyed := payable.keyed key payer
  unfold visited
  split
  · next absent => simp [entry, absent]
  · next items present =>
    have enumerates := payable.visits key payer items present
    simp only [entry, present, Option.bind_some] at keyed ⊢
    constructor
    · intro member
      obtain ⟨⟨place, item⟩, visit, rfl⟩ := List.mem_map.mp member
      have stored := (enumerates.mem_iff place item).mp visit
      rwa [← keyed place item stored]
    · intro stored
      exact List.mem_map.mpr ⟨(item.outpoint, item), (enumerates.mem_iff _ _).mpr stored, rfl⟩

theorem spendable {key : Address} (payer : key ∈ payers wallet coinbase) {item : TxItem}
    (member : item ∈ visited node call key) (attempts : ℕ) :
    ∃ vin, payVin rt node call key attempts item = some vin ∧ vin.outpoint = item.outpoint := by
  obtain ⟨bs, tx, vout, stored, parsed, output, address⟩ :=
    payable.backed key payer _ item ((payable.mem_visited_iff payer).mp member)
  have signer : key ∈ coinbase :: wallet.addrList := by
    rcases List.mem_append.mp payer with other | last
    · exact List.mem_cons_of_mem _ (List.mem_of_mem_filter other)
    · rw [List.mem_singleton.mp last]
      exact List.mem_cons_self
  have found : (tx.getVout.find? fun vout => vout.address = key.hash).isSome := by
    rw [List.find?_isSome]
    exact ⟨vout, List.mem_of_getElem? output, by simpa using address⟩
  obtain ⟨first, found⟩ := Option.isSome_iff_exists.mp found
  obtain ⟨sign, signed⟩ := payable.signs attempts key signer first.checkJson.bytes
  exact ⟨{ txid? := some item.txid, vout := item.outIndex, puk? := some key.pubkey, sign? := some sign }, by
    simp [payVin, stored, parsed, found, signed, Except.toOption], rfl⟩

/-- Every address gives up its items before it is visited again. -/
theorem collectPay_tracks (need : UInt64) :
    Tracks (collectPay rt wallet node call coinbase need)
      (selected wallet node call coinbase fun sum => need.toNat ≤ sum % 2 ^ 64) := by
  have eachRow (keys : List Address) (inside : ∀ key ∈ keys, key ∈ payers wallet coinbase) {collected : Collected}
      {taken : List TxItem} (tracks : Tracks collected taken) :
      Tracks (keys.foldl (fun collected one =>
          visitItems (payVin rt node call one) need (visited node call one) collected) collected)
        (takeRows TxItem.worth (fun sum => need.toNat ≤ sum % 2 ^ 64) taken (keys.map (visited node call))) := by
    induction keys generalizing collected taken with
    | nil => exact tracks
    | cons key rest ih =>
      have spends (item : TxItem) (member : item ∈ visited node call key) (attempts : ℕ) :=
        payable.spendable (inside key List.mem_cons_self) member attempts
      exact ih (fun key member => inside key (List.mem_cons_of_mem _ member)) (visitItems_tracks tracks spends)
  have rows := eachRow (others wallet coinbase) (fun key member => List.mem_append_left _ member)
    (⟨rfl, rfl⟩ : Tracks {} [])
  have skips : (wallet.addrList.foldl (fun collected one =>
      if one.hash = coinbase.hash then collected
      else visitItems (payVin rt node call one) need (visited node call one) collected) {}) =
        (others wallet coinbase).foldl (fun collected one =>
          visitItems (payVin rt node call one) need (visited node call one) collected) ({} : Collected) := by
    rw [others, List.foldl_filter]
    congr 1
    funext collected one
    by_cases same : one.hash = coinbase.hash <;> simp [same]
  have last (item : TxItem) (member : item ∈ visited node call coinbase) (attempts : ℕ) :=
    payable.spendable (List.mem_append_right _ List.mem_cons_self) member attempts
  rw [collectPay, skips, selected, select]
  generalize (others wallet coinbase).foldl _ _ = collected at rows ⊢
  generalize takeRows TxItem.worth (fun sum => need.toNat ≤ sum % 2 ^ 64) [] _ = taken at rows ⊢
  by_cases short : collected.total < need
  · rw [if_pos short, if_neg (by rw [← rows.total]; exact not_le.mpr (UInt64.lt_iff_toNat_lt.mp short))]
    exact visitItems_tracks rows last
  · rw [if_neg short, if_pos (by rw [← rows.total]; exact UInt64.le_iff_toNat_le.mp (UInt64.not_lt.mp short))]
    exact rows

end Payable

end Collect

/-! ## The transaction that is returned -/

section Outputs

/-- Signing the outputs changes the signature of the outputs alone. -/
theorem signVouts_kept {sign : Signer} {keys : List Address} {bs : Bytes} {attempts : ℕ} {vins signed : List Vin}
    (made : signVouts sign keys bs attempts vins = .ok signed) :
    List.Forall₂ (fun one vin => vin = { one with voutSign? := vin.voutSign? }) vins signed := by
  induction vins generalizing attempts signed with
  | nil =>
    cases made
    exact .nil
  | cons one rest ih =>
    rw [signVouts] at made
    split at made
    · cases signedRest : signVouts sign keys bs attempts rest with
      | error text => simp [signedRest, bind, Except.bind] at made
      | ok tail =>
        simp only [signedRest, bind, Except.bind, Except.ok.injEq] at made
        exact made ▸ .cons rfl (ih signedRest)
    · next key _ =>
      cases signs : sign attempts key bs Config.walletPassword with
      | error text => simp [signs, bind, Except.bind] at made
      | ok voutSign =>
        cases signedRest : signVouts sign keys bs (attempts + 1) rest with
        | error text => simp [signs, signedRest, bind, Except.bind] at made
        | ok tail =>
          simp only [signs, signedRest, bind, Except.bind, Except.ok.injEq] at made
          exact made ▸ .cons rfl (ih signedRest)

theorem signVouts_outpoints {sign : Signer} {keys : List Address} {bs : Bytes} {attempts : ℕ} {vins signed : List Vin}
    (made : signVouts sign keys bs attempts vins = .ok signed) :
    signed.map Vin.outpoint = vins.map Vin.outpoint := by
  have kept := signVouts_kept made
  clear made
  induction kept with
  | nil => rfl
  | cons same _ ih =>
    rw [List.map_cons, List.map_cons, ih, same]
    rfl

theorem signVouts_ok {sign : Signer} {keys : List Address} {bs : Bytes}
    (signs : ∀ attempts, ∀ key ∈ keys, ∃ voutSign, sign attempts key bs Config.walletPassword = .ok voutSign)
    (attempts : ℕ) (vins : List Vin) : ∃ signed, signVouts sign keys bs attempts vins = .ok signed := by
  induction vins generalizing attempts with
  | nil => exact ⟨[], rfl⟩
  | cons one rest ih =>
    rw [signVouts]
    split
    · obtain ⟨tail, signedRest⟩ := ih attempts
      exact ⟨one :: tail, by rw [signedRest]; rfl⟩
    · next key found =>
      obtain ⟨voutSign, signed⟩ := signs attempts key (List.mem_of_find?_eq_some found)
      obtain ⟨tail, signedRest⟩ := ih (attempts + 1)
      exact ⟨{ one with voutSign? := some voutSign } :: tail, by rw [signed, signedRest]; rfl⟩

/-- Amount, rest and gas come to the running sum and what the amount with the gas has lost. -/
theorem payVouts_sum {coinBaseKey : Address} {address : Bytes} {amount gas sum : UInt64} (enough : amount + gas ≤ sum) :
    ((payVouts coinBaseKey address amount gas sum).map fun vout => vout.value.toNat).sum + gas.toNat =
      (amount.toNat + gas.toNat) / 2 ^ 64 * 2 ^ 64 + sum.toNat := by
  have need := UInt64.toNat_add amount gas
  have reached := UInt64.le_iff_toNat_le.mp enough
  have amountBound := amount.toNat_lt
  have gasBound := gas.toNat_lt
  have sumBound := sum.toNat_lt
  rw [payVouts]
  split
  · next more =>
    have above := UInt64.lt_iff_toNat_lt.mp more
    simp only [List.map_cons, List.map_nil, List.sum_cons, List.sum_nil, UInt64.toNat_sub]
    omega
  · next exact =>
    have below := UInt64.le_iff_toNat_le.mp (UInt64.not_lt.mp exact)
    simp only [List.map_cons, List.map_nil, List.sum_cons, List.sum_nil]
    omega

end Outputs

namespace Payable

variable {rt : Runtime} {wallet : Wallet} {node : Node} {call : Call} {coinbase : Address}
  (payable : Payable rt wallet node call coinbase)

include payable

/-- The payment that is made, or not, by the sum modulo `2 ^ 64` of the selected items. -/
theorem createTxPay_cases (address : Bytes) (amount gas : UInt64) :
    let taken := selected wallet node call coinbase fun sum => (amount + gas).toNat ≤ sum % 2 ^ 64
    let sum := total TxItem.worth taken % 2 ^ 64
    (sum < (amount + gas).toNat ∧ createTxPay rt wallet node call address amount gas = .error .insufficient) ∨
      ((amount + gas).toNat ≤ sum ∧ ∃ tx, createTxPay rt wallet node call address amount gas = .ok tx ∧
        tx.getVin.map Vin.outpoint = taken.map TxItem.outpoint ∧
          tx.getVout = payVouts coinbase address amount gas (UInt64.ofNat sum)) := by
  dsimp only
  have tracks := payable.collectPay_tracks (amount + gas)
  have getCoinbase : wallet.getCoinbase = .ok coinbase := by rw [Wallet.getCoinbase, payable.mines]
  rw [createTxPay, getCoinbase]
  dsimp only
  rw [← tracks.total, UInt64.ofNat_toNat]
  generalize collectPay rt wallet node call coinbase (amount + gas) = collected at tracks ⊢
  by_cases short : collected.total < amount + gas
  · exact .inl ⟨UInt64.lt_iff_toNat_lt.mp short, if_pos short⟩
  · refine .inr ⟨UInt64.le_iff_toNat_le.mp (UInt64.not_lt.mp short), ?_⟩
    rw [if_neg short]
    obtain ⟨signed, made⟩ := signVouts_ok (fun attempts key member =>
        payable.signs attempts key (List.mem_cons_of_mem _ member) _) collected.attempts collected.vins
    rw [made]
    refine ⟨_, rfl, ?_, by rw [TxItr.getVout_buildHash]; rfl⟩
    rw [TxItr.getVin_buildHash, ← tracks.outpoints]
    exact signVouts_outpoints made

/-- The deposit that is made, or not, by the sum modulo `2 ^ 64` of the items of the coinbase. -/
theorem createTxDepositIn_cases :
    let taken := takeRow TxItem.worth (fun sum => Config.miningDeposit.toNat ≤ sum % 2 ^ 64) []
      (visited node call coinbase)
    let sum := total TxItem.worth taken % 2 ^ 64
    (sum < Config.miningDeposit.toNat ∧ createTxDepositIn rt node call coinbase = none) ∨
      (Config.miningDeposit.toNat ≤ sum ∧ ∃ tx, createTxDepositIn rt node call coinbase = some tx ∧
        tx.getVin.map Vin.outpoint = taken.map TxItem.outpoint ∧
          tx.getVout = depositVouts coinbase (UInt64.ofNat sum)) := by
  dsimp only
  have payer : coinbase ∈ payers wallet coinbase := List.mem_append_right _ List.mem_cons_self
  have tracks := @visitItems_tracks (payVin rt node call coinbase) Config.miningDeposit (visited node call coinbase) {}
    [] ⟨rfl, rfl⟩ fun item member attempts => payable.spendable payer member attempts
  rw [createTxDepositIn]
  cases present : node.balanceM.findBalance coinbase.hash with
  | none =>
    have nothing : visited node call coinbase = [] := by simp only [visited, present]
    rw [nothing]
    exact .inl ⟨by decide, rfl⟩
  | some items =>
    dsimp only
    rw [← tracks.total, UInt64.ofNat_toNat]
    generalize visitItems (payVin rt node call coinbase) Config.miningDeposit (visited node call coinbase) {} =
      collected at tracks ⊢
    by_cases short : collected.total < Config.miningDeposit
    · exact .inl ⟨UInt64.lt_iff_toNat_lt.mp short, if_pos short⟩
    · refine .inr ⟨UInt64.le_iff_toNat_le.mp (UInt64.not_lt.mp short), ?_⟩
      obtain ⟨voutSign, signed⟩ := payable.signs collected.attempts coinbase List.mem_cons_self
        (voutsText (depositVouts coinbase collected.total))
      rw [if_neg short, signed]
      refine ⟨_, rfl, ?_, by rw [TxItr.getVout_buildHash]; rfl⟩
      rw [TxItr.getVin_buildHash, ← tracks.outpoints]
      exact List.map_map ..

theorem payers_distinct : (payers wallet coinbase).Pairwise fun key other => key.hash ≠ other.hash := by
  rw [payers, List.pairwise_append]
  refine ⟨(List.pairwise_map.mp payable.distinct).sublist List.filter_sublist, List.pairwise_singleton _ _, ?_⟩
  intro key member other last
  rw [List.mem_singleton.mp last]
  simpa using (List.mem_filter.mp member).2

/-- The wallet's unspent items are distinct outputs. -/
theorem outpoints_nodup : (((payers wallet coinbase).flatMap (visited node call)).map TxItem.outpoint).Nodup := by
  rw [List.map_flatMap, List.nodup_flatMap]
  constructor
  · intro key payer
    unfold visited
    split
    · exact List.nodup_nil
    · next items present =>
      have enumerates := payable.visits key payer items present
      have places : ((call.visits key.hash).map Prod.snd).map TxItem.outpoint =
        (call.visits key.hash).map Prod.fst := by
        rw [List.map_map]
        refine List.map_congr_left fun ⟨place, item⟩ visit => ?_
        have stored : node.balanceM.balance.entry key.hash place = some item := by
          have present : node.balanceM.balance.load key.hash = some items := present
          rw [SyncMap.entry, present]
          exact (enumerates.mem_iff place item).mp visit
        exact (payable.keyed key payer place item stored).symm
      rw [places]
      exact enumerates.nodup
  · refine payable.payers_distinct.imp_of_mem fun {key other} payer payer' distinct => ?_
    refine List.disjoint_left.mpr fun place here there => ?_
    obtain ⟨item, member, rfl⟩ := List.mem_map.mp here
    obtain ⟨item', member', same⟩ := List.mem_map.mp there
    obtain ⟨bs, tx, vout, stored, parsed, output, address⟩ :=
      payable.backed key payer _ item ((payable.mem_visited_iff payer).mp member)
    obtain ⟨bs', tx', vout', stored', parsed', output', address'⟩ :=
      payable.backed other payer' _ item' ((payable.mem_visited_iff payer').mp member')
    obtain ⟨txid, outIndex⟩ := Prod.mk.inj same
    rw [txid, stored, Option.some.injEq] at stored'
    rw [← stored', parsed, Option.some.injEq] at parsed'
    rw [← parsed', outIndex, output, Option.some.injEq] at output'
    exact distinct (by rw [← address, ← address', output'])

omit payable in
theorem selected_sublist (enough : ℕ → Prop) [DecidablePred enough] :
    (selected wallet node call coinbase enough).Sublist ((payers wallet coinbase).flatMap (visited node call)) := by
  rw [payers, List.flatMap_append, List.flatMap_singleton]
  exact select_sublist TxItem.worth enough _ _

omit payable in
theorem selected_le_funds (enough : ℕ → Prop) [DecidablePred enough] :
    total TxItem.worth (selected wallet node call coinbase enough) ≤ funds wallet node call coinbase :=
  total_le_of_sublist TxItem.worth (selected_sublist enough)

omit payable in
/-- A test of the exact sum that is not met has selected everything. -/
theorem selected_eq_funds {need : ℕ}
    (short : total TxItem.worth (selected wallet node call coinbase fun sum => need ≤ sum) < need) :
    total TxItem.worth (selected wallet node call coinbase fun sum => need ≤ sum) =
      funds wallet node call coinbase := by
  have everything := select_of_not_enough TxItem.worth
    (fun sum more (met : need ≤ sum) => (by omega : need ≤ sum + more)) (not_le.mpr short)
  rw [funds, payers, List.flatMap_append, List.flatMap_singleton, List.flatMap]
  exact congrArg (total TxItem.worth) everything

omit payable in
/-- The loops select as on the exact sums, or the items of both pass `2 ^ 64`. -/
theorem selected_parts (need : ℕ) :
    Parts TxItem.worth (2 ^ 64) (selected wallet node call coinbase fun sum => need ≤ sum)
      (selected wallet node call coinbase fun sum => need ≤ sum % 2 ^ 64) :=
  select_parts (fun sum below => by rw [Nat.mod_eq_of_lt below]) (by decide) _ _

/-- The items are told apart by their outpoints. -/
theorem eq_of_outpoints {items taken : List TxItem}
    (owned : ∀ item ∈ items, ∃ key ∈ payers wallet coinbase,
      node.balanceM.balance.entry key.hash item.outpoint = some item)
    (sublist : taken.Sublist ((payers wallet coinbase).flatMap (visited node call)))
    (same : items.map TxItem.outpoint = taken.map TxItem.outpoint) : items = taken := by
  have distinct := List.inj_on_of_nodup_map payable.outpoints_nodup
  induction items generalizing taken with
  | nil => exact (List.map_eq_nil_iff.mp same.symm).symm
  | cons item rest ih =>
    cases taken with
    | nil => cases same
    | cons first others =>
      obtain ⟨here, there⟩ := List.cons.inj same
      obtain ⟨key, payer, stored⟩ := owned item List.mem_cons_self
      have member := List.mem_flatMap.mpr ⟨key, payer, (payable.mem_visited_iff payer).mpr stored⟩
      rw [distinct member (sublist.subset List.mem_cons_self) here,
        ih (fun item member => owned item (List.mem_cons_of_mem _ member))
          ((List.sublist_cons_self ..).trans sublist) there]

/-- A payment that is made conserves value exactly when its items pass `2 ^ 64` as often as the amount
with the gas. -/
theorem conserves_iff {address : Bytes} {amount gas : UInt64} {tx : TxItr} {taken : List TxItem}
    (sublist : taken.Sublist ((payers wallet coinbase).flatMap (visited node call)))
    (enough : (amount + gas).toNat ≤ total TxItem.worth taken % 2 ^ 64)
    (inputs : tx.getVin.map Vin.outpoint = taken.map TxItem.outpoint)
    (outputs : tx.getVout = payVouts coinbase address amount gas (UInt64.ofNat (total TxItem.worth taken % 2 ^ 64))) :
    Conserves wallet node coinbase address amount gas tx ↔
      total TxItem.worth taken / 2 ^ 64 = (amount.toNat + gas.toNat) / 2 ^ 64 := by
  have exact : (UInt64.ofNat (total TxItem.worth taken % 2 ^ 64)).toNat = total TxItem.worth taken % 2 ^ 64 := by
    simp
  have paid := @payVouts_sum coinbase address amount gas (UInt64.ofNat (total TxItem.worth taken % 2 ^ 64))
    (UInt64.le_iff_toNat_le.mpr (exact.symm ▸ enough))
  rw [exact, ← outputs] at paid
  constructor
  · intro conserves
    obtain ⟨items, same, -, owned, balanced⟩ := conserves.inputs
    rw [payable.eq_of_outpoints owned sublist (same.symm.trans inputs)] at balanced
    omega
  · intro wraps
    refine ⟨⟨taken, inputs, ?_, fun item member => ?_, by omega⟩, ⟨{ value := amount, address? := some address }, ?_, rfl, rfl⟩⟩
    · exact (payable.outpoints_nodup).sublist (sublist.map _)
    · obtain ⟨key, payer, visit⟩ := List.mem_flatMap.mp (sublist.subset member)
      exact ⟨key, payer, (payable.mem_visited_iff payer).mp visit⟩
    · rw [outputs]
      rfl

/-- What decides about a payment: the exact sum of the items that the loops select. -/
theorem conserving_iff_taken (address : Bytes) (amount gas : UInt64) :
    let need := amount.toNat + gas.toNat
    let taken := total TxItem.worth (selected wallet node call coinbase fun sum => need % 2 ^ 64 ≤ sum % 2 ^ 64)
    Conserving rt wallet node call coinbase address amount gas ↔
      if need % 2 ^ 64 ≤ taken % 2 ^ 64 then taken / 2 ^ 64 = need / 2 ^ 64
      else funds wallet node call coinbase < need := by
  dsimp only
  have cases := payable.createTxPay_cases address amount gas
  have need := UInt64.toNat_add amount gas
  have affordable := @selected_le_funds wallet node call coinbase
    (fun sum => (amount.toNat + gas.toNat) % 2 ^ 64 ≤ sum % 2 ^ 64) _
  simp only [need] at cases
  rcases cases with ⟨short, refused⟩ | ⟨enough, tx, made, inputs, outputs⟩
  · rw [if_neg (not_le.mpr short), Conserving, refused]
    simp
  · rw [if_pos enough, Conserving, made]
    have conserves := payable.conserves_iff (selected_sublist _) (need.symm ▸ enough) inputs outputs
    constructor
    · rintro ⟨-, conserved⟩
      exact conserves.mp (conserved tx rfl)
    · intro wraps
      refine ⟨⟨fun _ => by omega, fun _ => ⟨tx, rfl⟩⟩, fun other same => ?_⟩
      cases same
      exact conserves.mpr wraps

omit payable in
/-- Where nothing passes `2 ^ 64` the loops see the exact sums; elsewhere the two conditions are one. -/
theorem withinWord_iff_taken (amount gas : UInt64) :
    let need := amount.toNat + gas.toNat
    let taken := total TxItem.worth (selected wallet node call coinbase fun sum => need % 2 ^ 64 ≤ sum % 2 ^ 64)
    WithinWord wallet node call coinbase amount gas ↔
      if need % 2 ^ 64 ≤ taken % 2 ^ 64 then taken / 2 ^ 64 = need / 2 ^ 64
      else funds wallet node call coinbase < need := by
  dsimp only [WithinWord]
  have amountBound := amount.toNat_lt
  have gasBound := gas.toNat_lt
  by_cases small : amount.toNat + gas.toNat < 2 ^ 64
  · rw [if_pos small]
    simp only [Nat.mod_eq_of_lt small, Nat.div_eq_of_lt small]
    have affordable := @selected_le_funds wallet node call coinbase
      (fun sum => amount.toNat + gas.toNat ≤ sum % 2 ^ 64) _
    have all := @selected_eq_funds wallet node call coinbase (amount.toNat + gas.toNat)
    rcases @selected_parts wallet node call coinbase (amount.toNat + gas.toNat) with ⟨same, below⟩ | ⟨reached, reached'⟩
    · rw [← same, Nat.mod_eq_of_lt below, Nat.div_eq_of_lt below]
      split <;> omega
    · split <;> omega
  · rw [if_neg small, show (amount.toNat + gas.toNat) / 2 ^ 64 = 1 by omega]

omit payable in
/-- In a wallet that holds less than `2 ^ 64` only the amount with the gas can pass it. -/
theorem withinWord_iff_of_funds_lt {amount gas : UInt64} (small : funds wallet node call coinbase < 2 ^ 64) :
    WithinWord wallet node call coinbase amount gas ↔
      amount.toNat + gas.toNat < 2 ^ 64 ∨
        funds wallet node call coinbase + 2 ^ 64 < amount.toNat + gas.toNat := by
  have amountBound := amount.toNat_lt
  have gasBound := gas.toNat_lt
  have affordable (enough : ℕ → Prop) [DecidablePred enough] := @selected_le_funds wallet node call coinbase enough _
  dsimp only [WithinWord]
  by_cases fits : amount.toNat + gas.toNat < 2 ^ 64
  · rw [if_pos fits]
    have := affordable fun sum => amount.toNat + gas.toNat ≤ sum
    omega
  · rw [if_neg fits]
    obtain ⟨need, rest⟩ : ∃ need, (amount.toNat + gas.toNat) % 2 ^ 64 = need := ⟨_, rfl⟩
    simp only [rest]
    have exact := affordable fun sum => need ≤ sum
    have all := @selected_eq_funds wallet node call coinbase need
    rcases @selected_parts wallet node call coinbase need with ⟨same, below⟩ | ⟨reached, -⟩
    · rw [← same, Nat.mod_eq_of_lt below, Nat.div_eq_of_lt below]
      split <;> omega
    · omega

end Payable

/-- A payment is made exactly when the wallet can afford it, from distinct unspent items and with as
much going out as coming in, exactly where no sum passes `2 ^ 64`. -/
theorem createTxPay_conserving_iff {rt : Runtime} {wallet : Wallet} {node : Node} {call : Call} {coinbase : Address}
    (payable : Payable rt wallet node call coinbase) (address : Bytes) (amount gas : UInt64) :
    Conserving rt wallet node call coinbase address amount gas ↔ WithinWord wallet node call coinbase amount gas :=
  (payable.conserving_iff_taken address amount gas).trans (Payable.withinWord_iff_taken amount gas).symm

namespace Sample

/-- Balances of one item. -/
def onlyItem (holder : Address) (item : TxItem) :
    Balances := .store .empty holder.hash (.store .empty item.outpoint item)

/-- Every signature is made, and the one map is visited. -/
def call (holder : Address) (item : TxItem) : Call where
  sign _ _ _ _ := .ok [7]
  visits addr := if addr = holder.hash then [(item.outpoint, item)] else []

theorem entry_onlyItem {holder : Address} {item stored : TxItem} {addr : Bytes} {place : Outpoint}
    (present : (onlyItem holder item).entry addr place = some stored) :
    addr = holder.hash ∧ place = item.outpoint ∧ stored = item := by
  simp only [onlyItem, SyncMap.entry, SyncMap.load_store] at present
  split at present
  · next same =>
    simp only [Option.bind_some, SyncMap.load_store] at present
    split at present
    · next here => exact ⟨same, here, (Option.some.inj present).symm⟩
    · cases present
  · cases present

/-- A wallet with one item, an output of a stored transaction to its holder. -/
theorem payable {node : Node} {holder : Address} {item : TxItem} {source : TxItr} {vout : Vout}
    (balance : node.balanceM.balance = onlyItem holder item) (stored : node.db.find item.txid = some source.json)
    (typed : source.Typed) (output : source.getVout[item.outIndex.toNat]? = some vout)
    (address : vout.address = holder.hash) : Payable runtime twoKeys node (call holder item) coinbaseKey where
  mines := rfl
  distinct := by decide
  visits key _ items present := by
    simp only [BalanceManager.findBalance, balance, onlyItem, SyncMap.load_store, SyncMap.load_empty] at present
    split at present
    · next same =>
      cases present
      refine ⟨by simp [call, same], fun place stored => ?_⟩
      simp only [call, if_pos same, List.mem_singleton, Prod.mk.injEq, SyncMap.load_store, SyncMap.load_empty]
      split <;> simp_all [eq_comm]
    · cases present
  keyed key _ place stored present := by
    rw [balance] at present
    obtain ⟨-, rfl, rfl⟩ := entry_onlyItem present
    rfl
  backed key _ place _ present := by
    rw [balance] at present
    obtain ⟨same, -, rfl⟩ := entry_onlyItem present
    exact ⟨_, source, vout, stored, TxItr.parse_json runtime typed, output, address.trans same.symm⟩
  signs _ _ _ _ := ⟨[7], rfl⟩

/-- The reward to the other address, as its item. -/
def item : TxItem := { value := 5, txid := (reward 0).id runtime, outIndex := 0 }

/-- A node that has stored the reward and counted it. -/
def funded : Node where
  db := .save .empty item.txid (reward 0).json
  balanceM := { balance := onlyItem otherKey item }

theorem payable_funded : Payable runtime twoKeys funded (call otherKey item) coinbaseKey :=
  @payable funded otherKey item (reward 0) { value := 5, address? := some otherKey.hash } rfl (Db.find_save_self _ _ _)
    (by decide) rfl rfl

end Sample

/-- From an item of 5 a payment of 2 with a gas of 1 conserves value, as no sum passes `2 ^ 64`. -/
theorem createTxPay_conserving_two :
    Payable Sample.runtime Sample.twoKeys Sample.funded (Sample.call Sample.otherKey Sample.item)
      Sample.coinbaseKey ∧
      Conserving Sample.runtime Sample.twoKeys Sample.funded (Sample.call Sample.otherKey Sample.item)
      Sample.coinbaseKey [9] 2 1 :=
  ⟨Sample.payable_funded, (createTxPay_conserving_iff Sample.payable_funded [9] 2 1).mpr (by decide)⟩

/-- The same wallet pays `2 ^ 64 - 1` with a gas of 1, which together are nothing. -/
theorem createTxPay_not_conserving :
    ¬ ∀ (rt : Runtime) (wallet : Wallet) (node : Node) (call : Call) (coinbase : Address),
      Payable rt wallet node call coinbase → ∀ (address : Bytes) (amount gas : UInt64),
        Conserving rt wallet node call coinbase address amount gas := by
  intro conserving
  obtain ⟨affordable, -⟩ := conserving Sample.runtime Sample.twoKeys Sample.funded
    (Sample.call Sample.otherKey Sample.item)
      Sample.coinbaseKey
    Sample.payable_funded [9] 0xffffffffffffffff 1
  rcases Sample.payable_funded.createTxPay_cases [9] 0xffffffffffffffff 1 with ⟨short, -⟩ | ⟨-, tx, made, -⟩
  · exact absurd short (by decide)
  · exact absurd (affordable.mp ⟨tx, made⟩) (by decide)

end PolarCloud.Mining
