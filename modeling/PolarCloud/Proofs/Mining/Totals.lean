import PolarCloud.Model.Mining.Miner
import PolarCloud.Proofs.Mining.DoubleSpend
import PolarCloud.Proofs.Mining.Witnesses

/-! # The totals of a transaction

A transaction declares how many inputs and outputs it has. Payments, rewards and returned deposits
declare the lengths of their lists; a deposit declares one input and no output, whatever it has.
-/

namespace PolarCloud.Mining

open Keystore Selection

/-- The declared totals are the lengths of the lists. -/
structure TxItr.Declared (tx : TxItr) : Prop where
  vinTotal : tx.base.vinTotal = UInt64.ofNat tx.getVin.length
  voutTotal : tx.base.voutTotal = UInt64.ofNat tx.getVout.length

/-- A call that builds transactions. -/
inductive Builder where
  | createTxPay (wallet : Wallet) (node : Node) (call : Call) (address : Bytes) (amount gas : UInt64)
  | createTxDepositIn (node : Node) (call : Call) (key : Address)
  | buildBlock (wallet : Wallet) (node : Node) (witnesses : WitnessChain) (packing : Packing)
  | buildBlockAt (wallet : Wallet) (node : Node) (witnesses : WitnessChain) (place : ℕ) (packing : Packing)
  | buildBlockForPOW (wallet : Wallet) (node : Node) (work : Work)

/-- The transactions that it builds: of a block those in front of the pending ones. -/
inductive Builder.Builds (rt : Runtime) (tx : TxItr) : Builder → Prop
  | createTxPay {wallet : Wallet} {node : Node} {call : Call} {address : Bytes} {amount gas : UInt64}
      (made : Mining.createTxPay rt wallet node call address amount gas = .ok tx) :
      Builds rt tx (.createTxPay wallet node call address amount gas)
  | createTxDepositIn {node : Node} {call : Call} {key : Address}
      (made : Mining.createTxDepositIn rt node call key = some tx) : Builds rt tx (.createTxDepositIn node call key)
  | buildBlock {wallet : Wallet} {node : Node} {witnesses : WitnessChain} {packing : Packing} {block : BlockHeadVO}
      {built : List TxItr} (builds : Mining.buildBlock rt wallet node witnesses packing = some block)
      (packs : block.txs = built ++ packPending packing.visits) (member : tx ∈ built) :
      Builds rt tx (.buildBlock wallet node witnesses packing)
  | buildBlockAt {wallet : Wallet} {node : Node} {witnesses : WitnessChain} {place : ℕ} {packing : Packing}
      {block : BlockHeadVO} {built : List TxItr}
      (builds : Mining.buildBlockAt rt wallet node witnesses place packing = some block)
      (packs : block.txs = built ++ packPending packing.visits) (member : tx ∈ built) :
      Builds rt tx (.buildBlockAt wallet node witnesses place packing)
  | buildBlockForPOW {wallet : Wallet} {node : Node} {work : Work} {block : BlockHeadVO} {built : List TxItr}
      (builds : Mining.buildBlockForPOW rt wallet node work = some block)
      (packs : block.txs = built ++ packPending work.visits) (member : tx ∈ built) :
      Builds rt tx (.buildBlockForPOW wallet node work)

/-- A deposit: its first output is the deposit, and its outputs come to the exact sum of what it spends exactly
when the items that are needed come to less than `2 ^ 64`. -/
structure Deposits (rt : Runtime) (node : Node) (call : Call) (key : Address) (tx : TxItr) : Prop where
  first : ∃ vout, tx.getVout[0]? = some vout ∧ vout.value = Config.miningDeposit ∧ vout.address = key.hash
  sum : ∃ spent, Spends rt node call tx spent ∧ (∀ one ∈ spent, one.1 = key) ∧
    (total (fun one => one.2.worth) spent = (tx.getVout.map fun vout => vout.value.toNat).sum ↔
      total TxItem.worth (takeRow TxItem.worth (Config.miningDeposit.toNat ≤ ·) [] (visited node call key)) < 2 ^ 64)

variable {rt : Runtime}

theorem declared_bonusOf {db : Db} {group : WitnessGroup} {preGroup : Option WitnessGroup} {addr : Bytes}
    {packing : Packing} {bonus : List TxItr} (added : bonusOf rt db group preGroup addr packing = some bonus) :
    ∀ tx ∈ bonus, tx.Declared := by
  unfold bonusOf at added
  split at added
  · split at added
    · obtain ⟨pairs, -, made⟩ := Option.bind_eq_some_iff.mp added
      cases made
      refine List.forall_mem_cons.mpr ⟨⟨rfl, rfl⟩, List.forall_mem_singleton.mpr ⟨?_, ?_⟩⟩
      · exact congrArg UInt64.ofNat (List.length_map ..).symm
      · exact congrArg UInt64.ofNat (List.length_map ..).symm
    · cases added
      exact List.forall_mem_nil _
  · cases added
    exact List.forall_mem_nil _

theorem declared_buildGroupBlock {wallet : Wallet} {node : Node} {group : WitnessGroup} {preGroup : Option WitnessGroup}
    {addr : Bytes} {packing : Packing} {block : BlockHeadVO} {built : List TxItr}
    (builds : buildGroupBlock rt wallet node group preGroup addr packing = some block)
    (packs : block.txs = built ++ packPending packing.visits) : ∀ tx ∈ built, tx.Declared := by
  obtain ⟨bonus, added, whole⟩ := buildGroupBlock_txs builds
  rw [List.append_cancel_right (packs.symm.trans whole)]
  exact declared_bonusOf added

theorem declared_buildBlockForPOW {wallet : Wallet} {node : Node} {work : Work} {block : BlockHeadVO}
    {built : List TxItr}
    (builds : buildBlockForPOW rt wallet node work = some block)
    (packs : block.txs = built ++ packPending work.visits) : ∀ tx ∈ built, tx.Declared := by
  unfold buildBlockForPOW at builds
  split at builds
  · cases builds
  · next txs packed =>
    obtain ⟨_, -, builds⟩ := Option.bind_eq_some_iff.mp builds
    obtain ⟨_, -, builds⟩ := Option.bind_eq_some_iff.mp builds
    obtain ⟨_, -, made⟩ := Option.bind_eq_some_iff.mp builds
    cases made
    unfold blockForPOWTxs at packed
    split at packed
    · cases packed
    · cases packed
      have same := List.append_cancel_right (show [_] ++ packPending work.visits = _ from packs)
      rw [← same]
      exact List.forall_mem_singleton.mpr ⟨rfl, rfl⟩

/-- What is needed and the rest come to the sum. -/
theorem rest_sum {need sum : UInt64} (address? : Option Bytes) (enough : need ≤ sum) :
    ((({ value := need, address? } : Vout) :: if need < sum then [{ value := sum - need, address? }] else []).map
      fun vout => vout.value.toNat).sum = sum.toNat := by
  have reached := UInt64.le_iff_toNat_le.mp enough
  split
  · simp only [List.map_cons, List.map_nil, List.sum_cons, List.sum_nil, UInt64.toNat_sub_of_le _ _ enough]
    omega
  · next exact =>
    have below := UInt64.le_iff_toNat_le.mp (UInt64.not_lt.mp exact)
    simp only [List.map_cons, List.map_nil, List.sum_cons, List.sum_nil]
    omega

theorem deposits_of_made {node : Node} {call : Call} {key : Address} {tx : TxItr}
    (made : createTxDepositIn rt node call key = some tx) : Deposits rt node call key tx ∧ ¬ tx.Declared := by
  obtain ⟨-, sum, spends, only, enough, isSum, takes, outputs, -, none⟩ := createTxDepositIn_spends made
  refine ⟨⟨⟨{ value := Config.miningDeposit, address? := some key.hash }, by rw [outputs]; rfl, rfl, rfl⟩,
    _, spends, only, ?_⟩, fun declared => ?_⟩
  · have parts := @takeRow_parts _ TxItem.worth (Config.miningDeposit.toNat ≤ ·)
      _ (fun sum => Config.miningDeposit.toNat ≤ sum % 2 ^ 64) _ (2 ^ 64)
      (fun sum below => by rw [Nat.mod_eq_of_lt below]) (visited node call key) [] [] (.inl ⟨rfl, by decide⟩)
    rw [outputs, depositVouts, rest_sum key.hash enough, isSum, Drawn.sum, Drawn.total_eq_map]
    rw [takes] at parts
    rcases parts with ⟨same, below⟩ | ⟨reached, reached'⟩
    · rw [same] at below ⊢
      exact iff_of_true (Nat.mod_eq_of_lt below).symm below
    · exact iff_of_false (by omega) (not_lt.mpr reached)
  · have counted := declared.voutTotal
    rw [none, outputs, depositVouts, List.length_cons] at counted
    split at counted
    · exact absurd counted (by simp)
    · exact absurd counted (by simp)

/-- Every transaction declares the lengths of its lists, unless it is a deposit, which never does. -/
theorem declared_iff {builder : Builder} {tx : TxItr} (builds : builder.Builds rt tx) :
    (tx.Declared ↔ ∀ node call key, builder ≠ .createTxDepositIn node call key) ∧
      ∀ node call key, builder = .createTxDepositIn node call key → Deposits rt node call key tx := by
  cases builds with
  | createTxPay made =>
    obtain ⟨-, coinbase, sum, -, -, -, -, vins, vouts⟩ := createTxPay_spends made
    exact ⟨iff_of_true ⟨vins, vouts⟩ nofun, nofun⟩
  | createTxDepositIn made =>
    obtain ⟨deposits, wrong⟩ := deposits_of_made made
    refine ⟨iff_of_false wrong fun other => other _ _ _ rfl, ?_⟩
    rintro node call key ⟨⟩
    exact deposits
  | buildBlock builds packs member =>
    obtain ⟨coinbase, -, builds⟩ := Option.bind_eq_some_iff.mp builds
    obtain ⟨group, -, builds⟩ := Option.bind_eq_some_iff.mp builds
    obtain ⟨this, -, builds⟩ := Option.bind_eq_some_iff.mp builds
    exact ⟨iff_of_true (declared_buildGroupBlock builds packs tx member) nofun, nofun⟩
  | buildBlockAt builds packs member =>
    obtain ⟨coinbase, -, builds⟩ := Option.bind_eq_some_iff.mp builds
    obtain ⟨group, -, builds⟩ := Option.bind_eq_some_iff.mp builds
    obtain ⟨this, -, builds⟩ := Option.bind_eq_some_iff.mp builds
    dsimp only at builds
    split at builds
    · cases builds
    · split at builds
      · cases builds
      · exact ⟨iff_of_true (declared_buildGroupBlock builds packs tx member) nofun, nofun⟩
  | buildBlockForPOW builds packs member =>
    exact ⟨iff_of_true (declared_buildBlockForPOW builds packs tx member) nofun, nofun⟩

/-- A payment declares its one input and two outputs. -/
theorem payment_declared : ∃ tx, createTxPay Sample.runtime Sample.twoKeys Sample.rich
    (Sample.call Sample.coinbaseKey Sample.coin) [9] 1 Config.miningGas = .ok tx ∧ tx.Declared := by
  obtain ⟨tx, made, -⟩ := Sample.holdsCoin_rich.pay [9]
  exact ⟨tx, made, (declared_iff (.createTxPay made)).1.mpr nofun⟩

/-- A deposit with two outputs declares none. -/
theorem deposit_not_declared : ∃ tx, createTxDepositIn Sample.runtime Sample.rich
    (Sample.call Sample.coinbaseKey Sample.coin) Sample.coinbaseKey = some tx ∧ ¬ tx.Declared := by
  obtain ⟨tx, made, -⟩ := Sample.holdsCoin_rich.deposit
  exact ⟨tx, made, (deposits_of_made made).2⟩

end PolarCloud.Mining
