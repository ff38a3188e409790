import PolarCloud.Proofs.Mining.Payment

/-! # What a transaction of the wallet spends

The collecting loops turn items into inputs one by one. Whatever the state, the inputs of a payment
or a deposit belong to the items that were visited, each signed with the key of its address, and the
running sum is their exact sum modulo `2 ^ 64`.
-/

namespace PolarCloud.Mining

open Keystore Selection

/-! ## The coins that the loops take -/

/-- The coins that are taken, each with its address, and the attempts that were made. -/
structure Drawn where
  coins : List (Address × TxItem) := []
  attempts : ℕ := 0

namespace Drawn

/-- The running sum: the exact sum of the coins modulo `2 ^ 64`. -/
def sum (drawn : Drawn) : ℕ := total (fun one => one.2.worth) drawn.coins % 2 ^ 64

def push (drawn : Drawn) (key : Address) (item : TxItem) : Drawn :=
  ⟨drawn.coins ++ [(key, item)], drawn.attempts + 1⟩

/-- Take the coins of an address until one cannot be spent or the running sum is enough. -/
def row (spendable : Address → ℕ → TxItem → Bool) (need : UInt64) (key : Address) : List TxItem → Drawn → Drawn
  | [], drawn => drawn
  | item :: rest, drawn =>
      if spendable key drawn.attempts item then
        if need.toNat ≤ (drawn.push key item).sum then drawn.push key item
        else row spendable need key rest (drawn.push key item)
      else { drawn with attempts := drawn.attempts + 1 }

variable {spendable : Address → ℕ → TxItem → Bool} {need : UInt64} {key : Address}

theorem total_eq_map (drawn : Drawn) :
    total (fun one => one.2.worth) drawn.coins = total TxItem.worth (drawn.coins.map Prod.snd) := by
  rw [total, total, List.map_map]
  rfl

/-- What is taken from a row is its front. -/
theorem row_coins (items : List TxItem) (drawn : Drawn) : ∃ front, front <+: items ∧
    (row spendable need key items drawn).coins = drawn.coins ++ front.map (key, ·) := by
  induction items generalizing drawn with
  | nil => exact ⟨[], List.prefix_rfl, (List.append_nil _).symm⟩
  | cons item rest ih =>
    rw [row]
    split
    · split
      · exact ⟨[item], ⟨rest, rfl⟩, rfl⟩
      · obtain ⟨front, isFront, took⟩ := ih (drawn.push key item)
        refine ⟨item :: front, (List.prefix_cons_inj item).mpr isFront, ?_⟩
        rw [took, push, List.append_assoc]
        rfl
    · exact ⟨[], List.nil_prefix, (List.append_nil _).symm⟩

/-- Where a row gives what was missing, it is taken from as if every coin could be spent. -/
theorem row_takeRow (items : List TxItem) {drawn : Drawn} (short : drawn.sum < need.toNat)
    (enough : need.toNat ≤ (row spendable need key items drawn).sum) :
    takeRow TxItem.worth (fun sum => need.toNat ≤ sum % 2 ^ 64) (drawn.coins.map Prod.snd) items =
      (row spendable need key items drawn).coins.map Prod.snd := by
  induction items generalizing drawn with
  | nil => exact absurd enough (not_le.mpr short)
  | cons item rest ih =>
    have pushed : drawn.coins.map Prod.snd ++ [item] = (drawn.push key item).coins.map Prod.snd := by
      rw [push, List.map_append]
      rfl
    have sum : total TxItem.worth (drawn.coins.map Prod.snd ++ [item]) % 2 ^ 64 = (drawn.push key item).sum := by
      rw [pushed, Drawn.sum, total_eq_map]
    rw [row] at enough ⊢
    rw [takeRow, sum]
    split at enough
    · next can =>
      rw [if_pos can]
      split at enough
      · next met => rw [if_pos met, if_pos met, pushed]
      · next unmet =>
        rw [if_neg unmet, if_neg unmet, pushed]
        exact ih (not_le.mp unmet) enough
    · exact absurd enough (not_le.mpr short)

end Drawn

/-- The loops have turned the coins into inputs, each with the key of its address. -/
structure Gathers (pay : Address → ℕ → TxItem → Option Vin) (collected : Collected) (drawn : Drawn) : Prop where
  vins : List.Forall₂ (fun one vin => ∃ attempt, pay one.1 attempt one.2 = some vin) drawn.coins collected.vins
  attempts : collected.attempts = drawn.attempts
  total : collected.total.toNat = drawn.sum

section Loops

variable {pay : Address → ℕ → TxItem → Option Vin} {collected : Collected} {drawn : Drawn} {key : Address}

theorem gathers_nil : Gathers pay {} {} := ⟨.nil, rfl, rfl⟩

theorem Gathers.push (gathers : Gathers pay collected drawn) {item : TxItem} {vin : Vin}
    (pays : pay key collected.attempts item = some vin) :
    Gathers pay ⟨collected.vins ++ [vin], collected.total + item.value, collected.attempts + 1⟩
      (drawn.push key item) where
  vins := List.rel_append gathers.vins (.cons ⟨_, pays⟩ .nil)
  attempts := congrArg (· + 1) gathers.attempts
  total := by
    rw [UInt64.toNat_add, gathers.total, Drawn.sum, Drawn.sum, Drawn.push, Selection.total_append]
    simp [Selection.total, TxItem.worth]

/-- A visit takes the coins of a row. -/
theorem Gathers.row (gathers : Gathers pay collected drawn) (key : Address) (need : UInt64) (items : List TxItem) :
    Gathers pay (visitItems (pay key) need items collected)
      (drawn.row (fun key attempts item => (pay key attempts item).isSome) need key items) := by
  induction items generalizing collected drawn with
  | nil => exact gathers
  | cons item rest ih =>
    rw [visitItems, Drawn.row, ← gathers.attempts]
    cases pays : pay key collected.attempts item with
    | none => exact ⟨gathers.vins, rfl, gathers.total⟩
    | some vin =>
      have pushed := gathers.push pays
      have met : need ≤ collected.total + item.value ↔ need.toNat ≤ (drawn.push key item).sum := by
        rw [← pushed.total, UInt64.le_iff_toNat_le]
      dsimp only
      rw [if_pos Option.isSome_some]
      split
      · next enough =>
        rw [if_pos (met.mp enough)]
        exact pushed
      · next short =>
        rw [if_neg fun reached => short (met.mpr reached)]
        exact ih pushed

end Loops

/-! ## The transactions -/

section Built

variable (rt : Runtime) (wallet : Wallet) (node : Node) (call : Call)

/-- The inputs of a transaction spend these items of its keys: they are what the loops made of the
items, with another signature of the outputs. -/
structure Spends (tx : TxItr) (spent : List (Address × TxItem)) : Prop where
  vins : List.Forall₂ (fun one vin => ∃ attempt made, payVin rt node call one.1 attempt one.2 = some made ∧
    vin = { made with voutSign? := vin.voutSign? }) spent tx.getVin
  visits : ∀ one ∈ spent, one.2 ∈ visited node call one.1

/-- The coins that a payment takes: of the other addresses row by row, then of the coinbase if they are
not enough. -/
def drawPay (coinbase : Address) (need : UInt64) : Drawn :=
  let spendable := fun key attempts item => (payVin rt node call key attempts item).isSome
  let drawn := (others wallet coinbase).foldl (fun drawn one =>
    drawn.row spendable need one (visited node call one)) ({} : Drawn)
  if drawn.sum < need.toNat then drawn.row spendable need coinbase (visited node call coinbase) else drawn

/-- The coins that a deposit takes. -/
def drawDeposit (key : Address) : Drawn :=
  Drawn.row (fun key attempts item => (payVin rt node call key attempts item).isSome) Config.miningDeposit key
    (visited node call key) {}

variable {rt wallet node call}

theorem gathers_collectPay (coinbase : Address) (need : UInt64) :
    Gathers (payVin rt node call) (collectPay rt wallet node call coinbase need)
      (drawPay rt wallet node call coinbase need) := by
  have rows (keys : List Address) {collected : Collected} {drawn : Drawn}
      (gathers : Gathers (payVin rt node call) collected drawn) :
      Gathers (payVin rt node call) (keys.foldl (fun collected one =>
        if one.hash = coinbase.hash then collected
        else visitItems (payVin rt node call one) need (visited node call one) collected) collected)
        ((keys.filter fun one => one.hash ≠ coinbase.hash).foldl (fun drawn one => drawn.row
          (fun key attempts item => (payVin rt node call key attempts item).isSome) need one
            (visited node call one)) drawn) := by
    induction keys generalizing collected drawn with
    | nil => exact gathers
    | cons key rest ih =>
      by_cases same : key.hash = coinbase.hash
      · rw [List.foldl_cons, if_pos same, List.filter_cons_of_neg (by simpa using same)]
        exact ih gathers
      · rw [List.foldl_cons, if_neg same, List.filter_cons_of_pos (by simpa using same), List.foldl_cons]
        exact ih (gathers.row key need _)
  have gathered := rows wallet.addrList gathers_nil
  unfold collectPay drawPay others
  dsimp only
  split
  · next short =>
    rw [if_pos (gathered.total ▸ UInt64.lt_iff_toNat_lt.mp short)]
    exact gathered.row coinbase need _
  · next enough =>
    rw [if_neg (gathered.total ▸ not_lt.mpr (UInt64.le_iff_toNat_le.mp (UInt64.not_lt.mp enough)))]
    exact gathered

/-- A payment takes coins that are visited for the wallet's addresses. -/
theorem mem_coins_drawPay {coinbase : Address} {need : UInt64} {one : Address × TxItem}
    (member : one ∈ (drawPay rt wallet node call coinbase need).coins) :
    one.1 ∈ payers wallet coinbase ∧ one.2 ∈ visited node call one.1 := by
  have row {key : Address} {drawn : Drawn} (payer : key ∈ payers wallet coinbase)
      (owned : ∀ one ∈ drawn.coins, one.1 ∈ payers wallet coinbase ∧ one.2 ∈ visited node call one.1)
      (spendable : Address → ℕ → TxItem → Bool) :
      ∀ one ∈ (drawn.row spendable need key (visited node call key)).coins,
        one.1 ∈ payers wallet coinbase ∧ one.2 ∈ visited node call one.1 := by
    obtain ⟨front, isFront, took⟩ := Drawn.row_coins (visited node call key) drawn
    rw [took]
    refine List.forall_mem_append.mpr ⟨owned, ?_⟩
    exact List.forall_mem_map.mpr fun item member => ⟨payer, isFront.subset member⟩
  have rows (keys : List Address) (payer : ∀ key ∈ keys, key ∈ payers wallet coinbase) {drawn : Drawn}
      (owned : ∀ one ∈ drawn.coins, one.1 ∈ payers wallet coinbase ∧ one.2 ∈ visited node call one.1)
      (spendable : Address → ℕ → TxItem → Bool) :
      ∀ one ∈ (keys.foldl (fun drawn one => drawn.row spendable need one (visited node call one)) drawn).coins,
        one.1 ∈ payers wallet coinbase ∧ one.2 ∈ visited node call one.1 := by
    induction keys generalizing drawn with
    | nil => exact owned
    | cons key rest ih =>
      obtain ⟨here, later⟩ := List.forall_mem_cons.mp payer
      exact ih later (row here owned spendable)
  have nothing : ∀ one ∈ ({} : Drawn).coins, one.1 ∈ payers wallet coinbase ∧ one.2 ∈ visited node call one.1 :=
    List.forall_mem_nil _
  have collected := rows (others wallet coinbase) (fun _ member => List.mem_append_left _ member) nothing
    fun key attempts item => (payVin rt node call key attempts item).isSome
  unfold drawPay at member
  dsimp only at member
  split at member
  · exact row (List.mem_append_right _ List.mem_cons_self) collected _ one member
  · exact collected one member

/-- The inputs that are gathered, with another signature of the outputs each. -/
theorem Gathers.spends {collected : Collected} {drawn : Drawn} {signed : List Vin}
    (gathers : Gathers (payVin rt node call) collected drawn)
    (kept : List.Forall₂ (fun one vin : Vin => vin = { one with voutSign? := vin.voutSign? }) collected.vins signed) :
    List.Forall₂ (fun one vin => ∃ attempt made, payVin rt node call one.1 attempt one.2 = some made ∧
      vin = { made with voutSign? := vin.voutSign? }) drawn.coins signed := by
  have vins := gathers.vins
  clear gathers
  generalize collected.vins = vins' at vins kept
  generalize drawn.coins = coins at vins ⊢
  induction vins generalizing signed with
  | nil =>
    cases kept
    exact .nil
  | cons paid _ ih =>
    cases kept with
    | cons same rest =>
      obtain ⟨attempt, pays⟩ := paid
      exact .cons ⟨attempt, _, pays, same⟩ (ih rest)

theorem payVin_outpoint {key : Address} {attempts : ℕ} {item : TxItem} {vin : Vin}
    (pays : payVin rt node call key attempts item = some vin) : vin.outpoint = item.outpoint := by
  simp only [payVin, bind, Option.bind_eq_some_iff] at pays
  obtain ⟨_, -, _, -, _, -, _, -, made⟩ := pays
  cases made
  rfl

/-- Every input names an item that is spent. -/
theorem Spends.outpoint {tx : TxItr} {spent : List (Address × TxItem)} (spends : Spends rt node call tx spent)
    {vin : Vin}
    (member : vin ∈ tx.getVin) : ∃ one ∈ spent, vin.outpoint = one.2.outpoint := by
  obtain ⟨place, inside, rfl⟩ := List.mem_iff_getElem.mp member
  have inside' : place < spent.length := spends.vins.length_eq.symm ▸ inside
  obtain ⟨attempt, made, pays, same⟩ := spends.vins.get inside' inside
  have outpoint : tx.getVin[place].outpoint = made.outpoint := (congrArg Vin.outpoint same :)
  exact ⟨spent[place], List.getElem_mem inside', outpoint.trans (payVin_outpoint pays)⟩

/-- Every item that is spent is named by an input. -/
theorem Spends.spent {tx : TxItr} {spent : List (Address × TxItem)} (spends : Spends rt node call tx spent)
    {one : Address × TxItem} (member : one ∈ spent) : ∃ vin ∈ tx.getVin, vin.outpoint = one.2.outpoint := by
  obtain ⟨place, inside, rfl⟩ := List.mem_iff_getElem.mp member
  have inside' : place < tx.getVin.length := spends.vins.length_eq ▸ inside
  obtain ⟨attempt, made, pays, same⟩ := spends.vins.get inside inside'
  have outpoint : tx.getVin[place].outpoint = made.outpoint := (congrArg Vin.outpoint same :)
  exact ⟨tx.getVin[place], List.getElem_mem inside', outpoint.trans (payVin_outpoint pays)⟩

/-- A payment spends the coins that are taken, and counts its inputs and outputs. -/
theorem createTxPay_spends {address : Bytes} {amount gas : UInt64} {tx : TxItr}
    (made : createTxPay rt wallet node call address amount gas = .ok tx) :
    (tx.Typed ∧ tx.kind = Config.walletTxTypePay) ∧ ∃ coinbase sum, wallet.coinbase = some coinbase ∧
      Spends rt node call tx (drawPay rt wallet node call coinbase (amount + gas)).coins ∧
        (amount + gas).toNat ≤ (drawPay rt wallet node call coinbase (amount + gas)).sum ∧
        tx.getVout = payVouts coinbase address amount gas sum ∧ tx.base.vinTotal = UInt64.ofNat tx.getVin.length ∧
          tx.base.voutTotal = UInt64.ofNat tx.getVout.length := by
  unfold createTxPay Wallet.getCoinbase at made
  cases mines : wallet.coinbase with
  | none => simp [mines] at made
  | some coinbase =>
    simp only [mines] at made
    split at made
    · cases made
    · next enough =>
      split at made
      · cases made
      · next signed signs =>
        cases made
        have gathers := @gathers_collectPay rt wallet node call coinbase (amount + gas)
        refine ⟨⟨TxItr.Typed.buildHash rfl, rfl⟩, coinbase, _, rfl,
          ⟨?_, fun one member => (mem_coins_drawPay member).2⟩, ?_, rfl, rfl, rfl⟩
        · exact gathers.spends (signVouts_kept signs)
        · rw [← gathers.total]
          exact UInt64.le_iff_toNat_le.mp (UInt64.not_lt.mp enough)

/-- A deposit spends the coins that are taken, all of its key; the number of its inputs is always given
as one and that of its outputs as zero. -/
theorem createTxDepositIn_spends {key : Address} {tx : TxItr}
    (made : createTxDepositIn rt node call key = some tx) :
    (tx.Typed ∧ tx.kind = Config.walletTxTypeDepositIn) ∧ ∃ sum : UInt64,
      Spends rt node call tx (drawDeposit rt node call key).coins ∧
      (∀ one ∈ (drawDeposit rt node call key).coins, one.1 = key) ∧ Config.miningDeposit ≤ sum ∧
        sum.toNat = (drawDeposit rt node call key).sum ∧
      takeRow TxItem.worth (fun sum => Config.miningDeposit.toNat ≤ sum % 2 ^ 64) [] (visited node call key) =
        (drawDeposit rt node call key).coins.map Prod.snd ∧
      tx.getVout = depositVouts key sum ∧ tx.base.vinTotal = 1 ∧ tx.base.voutTotal = 0 := by
  unfold createTxDepositIn at made
  split at made
  · cases made
  · dsimp only at made
    split at made
    · cases made
    · next enough =>
      split at made
      · cases made
      · next voutSign signs =>
        cases made
        have gathers := (@gathers_nil (payVin rt node call)).row key Config.miningDeposit (visited node call key)
        have enough := UInt64.not_lt.mp enough
        obtain ⟨front, isFront, took⟩ : ∃ front, front <+: visited node call key ∧
            (drawDeposit rt node call key).coins = [] ++ front.map (key, ·) :=
          Drawn.row_coins (visited node call key) {}
        refine ⟨⟨TxItr.Typed.buildHash rfl, rfl⟩, _, ⟨?_, ?_⟩, ?_, enough, gathers.total, ?_, rfl, rfl, rfl⟩
        · apply gathers.spends
          exact List.forall₂_map_right_iff.mpr (List.forall₂_same.mpr fun _ _ => rfl)
        · rw [took]
          exact List.forall_mem_map.mpr fun item member => isFront.subset member
        · rw [took]
          exact List.forall_mem_map.mpr fun item _ => rfl
        · have positive : ({} : Drawn).sum < Config.miningDeposit.toNat := by decide
          apply Drawn.row_takeRow (visited node call key) positive
          exact gathers.total ▸ UInt64.le_iff_toNat_le.mp enough

end Built

end PolarCloud.Mining
