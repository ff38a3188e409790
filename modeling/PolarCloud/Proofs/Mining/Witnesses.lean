import Mathlib.Logic.Relation
import PolarCloud.Model.Mining.Witness
import PolarCloud.Proofs.Mining.AddBlock
import PolarCloud.Proofs.Mining.Records

/-! # The rewards and the returned deposits of a group

The witnesses that have produced a block in one group are rewarded, and get their deposits back, in
the blocks of the next group. The transactions for that are built by whoever has the address of the
first witness of the next group, so they come once when that witness builds its block once, and not
at all when it misses its turn.
-/

namespace PolarCloud.Mining

open Keystore

inductive WitnessEvent where
  | add (depositId addr : Bytes)
  | build (n height : UInt64)
  | set (db : Db) (chain : Chain) (block : Block)

/-- The witnesses after an event; none after a panic. -/
def WitnessChain.handle (rt : Runtime) (witnesses : WitnessChain) : WitnessEvent → Option WitnessChain
  | .add depositId addr => some (witnesses.addWitness { depositId, addr })
  | .build n height => (witnesses.buildWitnessGroupForNum n height).map Prod.fst
  | .set db chain block => (witnesses.setWitnessBlock rt db chain block).map Prod.fst

def WitnessChain.Step (rt : Runtime) (witnesses next : WitnessChain) : Prop :=
  ∃ event, witnesses.handle rt event = some next

/-! ## What an event does to the groups -/

namespace WitnessChain

variable {rt : Runtime} {witnesses next : WitnessChain}

/-- A new group takes witnesses from the front of those that wait. -/
theorem buildWitnessGroupForNum_cases {n height : UInt64} {built : Bool}
    (builds : witnesses.buildWitnessGroupForNum n height = some (next, built)) :
    next = witnesses ∨ ∃ height count, next =
      { groups := witnesses.groups ++ [{ height, witness := witnesses.waiting.take count }]
        waiting := witnesses.waiting.drop count } := by
  unfold buildWitnessGroupForNum at builds
  dsimp only at builds
  split at builds
  · split at builds
    · cases builds
      exact .inl rfl
    · split at builds
      · cases builds
      · split at builds
        · cases builds
          exact .inl rfl
        · cases builds
          exact .inr ⟨_, _, rfl⟩
  · split at builds
    · cases builds
    · split at builds
      · cases builds
        exact .inl rfl
      · split at builds
        · cases builds
          exact .inl rfl
        · cases builds
          exact .inr ⟨_, _, rfl⟩

/-- A block is given to one witness of the current group. -/
theorem setWitnessBlock_cases {db : Db} {chain : Chain} {block : Block} {result : Bool × Bool}
    (sets : witnesses.setWitnessBlock rt db chain block = some (next, result)) :
    next = witnesses ∨ ∃ before group addr witness last, witnesses.groups = before ++ [group] ∧
      setBlock addr block group.witness = some (witness, last) ∧
        next = { witnesses with groups := before ++ [{ group with witness }] } := by
  unfold setWitnessBlock current at sets
  split at sets
  · cases sets
    exact .inl rfl
  · next group isLast =>
    obtain ⟨own, -, sets⟩ := Option.bind_eq_some_iff.mp sets
    split at sets
    · cases sets
      exact .inl rfl
    · split at sets
      · cases sets
        exact .inl rfl
      · next bh loaded =>
        split at sets
        · cases sets
          exact .inl rfl
        · next witness last given =>
          cases sets
          exact .inr ⟨_, group, bh.witness, witness, last,
            (List.dropLast_append_getLast? group isLast).symm, given, rfl⟩

/-- Only the first witness with the address changes, and only its block. -/
theorem setBlock_spec {addr : Bytes} {block : Block} {witness changed : List Witness} {last : Bool}
    (sets : setBlock addr block witness = some (changed, last)) :
    ∃ before one rest, witness = before ++ one :: rest ∧ changed = before ++ { one with block := some block } :: rest ∧
      one.addr = addr ∧ ∀ other ∈ before, other.addr ≠ addr := by
  induction witness generalizing changed last with
  | nil => cases sets
  | cons one rest ih =>
    rw [setBlock] at sets
    split at sets
    · next same =>
      cases sets
      exact ⟨[], one, rest, rfl, rfl, same, List.forall_mem_nil _⟩
    · next other =>
      obtain ⟨⟨later, _⟩, given, same⟩ := Option.map_eq_some_iff.mp sets
      cases same
      obtain ⟨before, found, behind, split, changed, isAddr, earlier⟩ := ih given
      exact ⟨one :: before, found, behind, by rw [split, List.cons_append], by rw [changed, List.cons_append], isAddr,
        List.forall_mem_cons.mpr ⟨other, earlier⟩⟩

/-- Of the witnesses of a group with one address only the first has a block. -/
def OnePerAddr (witness : List Witness) : Prop :=
  witness.Pairwise fun first second => first.addr = second.addr → second.block = none

theorem OnePerAddr.setBlock {addr : Bytes} {block : Block} {witness changed : List Witness} {last : Bool}
    (unique : OnePerAddr witness) (sets : setBlock addr block witness = some (changed, last)) : OnePerAddr changed := by
  obtain ⟨before, one, rest, rfl, rfl, isAddr, earlier⟩ := setBlock_spec sets
  obtain ⟨front, back, across⟩ := List.pairwise_append.mp unique
  obtain ⟨behind, rest'⟩ := List.pairwise_cons.mp back
  refine List.pairwise_append.mpr ⟨front, List.pairwise_cons.mpr ⟨behind, rest'⟩, fun other member => ?_⟩
  refine List.forall_mem_cons.mpr ⟨fun same => ?_, fun later inside => ?_⟩
  · exact absurd (same.trans isAddr) (earlier other member)
  · exact across other member later (List.mem_cons_of_mem _ inside)

/-- What every run keeps. -/
structure Sound (witnesses : WitnessChain) : Prop where
  groups : ∀ group ∈ witnesses.groups, OnePerAddr group.witness
  waiting : ∀ one ∈ witnesses.waiting, one.block = none

theorem sound_empty : Sound {} := ⟨List.forall_mem_nil _, List.forall_mem_nil _⟩

theorem Sound.handle (sound : witnesses.Sound) {event : WitnessEvent}
    (handles : witnesses.handle rt event = some next) : next.Sound := by
  cases event with
  | add depositId addr =>
    cases handles
    exact ⟨sound.groups, List.forall_mem_append.mpr ⟨sound.waiting, List.forall_mem_singleton.mpr rfl⟩⟩
  | build n height =>
    obtain ⟨⟨after, built⟩, builds, rfl⟩ := Option.map_eq_some_iff.mp handles
    rcases buildWitnessGroupForNum_cases builds with same | ⟨height, count, same⟩
    · rw [same]
      exact sound
    · rw [same]
      refine ⟨List.forall_mem_append.mpr ⟨sound.groups, List.forall_mem_singleton.mpr ?_⟩, fun one member =>
        sound.waiting one (List.mem_of_mem_drop member)⟩
      refine List.pairwise_of_forall_mem_list fun first _ second inside _ => ?_
      exact sound.waiting second (List.mem_of_mem_take inside)
  | set db chain block =>
    obtain ⟨⟨after, result⟩, sets, rfl⟩ := Option.map_eq_some_iff.mp handles
    rcases setWitnessBlock_cases sets with same | ⟨before, group, addr, witness, last, groups, given, same⟩
    · rw [same]
      exact sound
    · rw [same]
      obtain ⟨earlier, current⟩ := List.forall_mem_append.mp (groups ▸ sound.groups)
      refine ⟨List.forall_mem_append.mpr ⟨earlier, List.forall_mem_singleton.mpr ?_⟩, sound.waiting⟩
      exact (List.forall_mem_singleton.mp current).setBlock given

theorem sound_of_run (run : Relation.ReflTransGen (Step rt) {} witnesses) : witnesses.Sound := by
  induction run with
  | refl => exact sound_empty
  | tail _ step ih =>
    obtain ⟨event, handles⟩ := step
    exact ih.handle handles

end WitnessChain

/-- The producers of a group have different addresses. -/
theorem WitnessGroup.producers_pairwise {group : WitnessGroup} (unique : WitnessChain.OnePerAddr group.witness) :
    group.producers.Pairwise fun first second => first.addr ≠ second.addr := by
  refine (unique.filter _).imp_of_mem fun {first second} _ there alone same => ?_
  have produced := (List.mem_filter.mp there).2
  rw [alone same] at produced
  cases produced

theorem WitnessGroup.isFirst_eq (group : WitnessGroup) (addr : Bytes) :
    group.isFirst addr = ((group.witness.map Witness.addr).head?.any fun first => first = addr) := by
  cases witness : group.witness <;> simp [isFirst, witness]

/-! ## The blocks of a group -/

/-- One block: its builder's wallet and node, and what the builder meets. `BuildBlock` looks for its
witness by itself, `Witness.BuildBlock` is called on the witness at a place. -/
structure Turn where
  wallet : Wallet
  node : Node
  packing : Packing
  place : Option ℕ

def Turn.build (rt : Runtime) (witnesses : WitnessChain) (turn : Turn) : Option BlockHeadVO :=
  match turn.place with
  | none => buildBlock rt turn.wallet turn.node witnesses turn.packing
  | some place => buildBlockAt rt turn.wallet turn.node witnesses place turn.packing

/-- The events that build no group. -/
def WitnessEvent.staysInGroup : WitnessEvent → Bool
  | .build .. => false
  | _ => true

/-- The blocks that are built while one group is current. Witnesses are added and blocks are set in
between. -/
inductive Schedule (rt : Runtime) : WitnessChain → List (Turn × BlockHeadVO) → Prop where
  | done (witnesses : WitnessChain) : Schedule rt witnesses []
  | built {witnesses : WitnessChain} {turn : Turn} {block : BlockHeadVO} {turns : List (Turn × BlockHeadVO)}
      (builds : turn.build rt witnesses = some block) (later : Schedule rt witnesses turns) :
      Schedule rt witnesses ((turn, block) :: turns)
  | between {witnesses next : WitnessChain} {turns : List (Turn × BlockHeadVO)} {event : WitnessEvent}
      (stays : event.staysInGroup = true) (handles : witnesses.handle rt event = some next)
      (later : Schedule rt next turns) : Schedule rt witnesses turns

/-- The builder has the address of the first witness of the group. -/
def Turn.isFirst (group : WitnessGroup) (turn : Turn) : Bool :=
  turn.wallet.coinbase.any fun coinbase => group.isFirst coinbase.hash

def Turn.pending (turn : Turn) : List TxItr := packPending turn.packing.visits

/-- The outputs of the reward to an address, over the reward transactions. -/
def rewardsTo (txs : List TxItr) (addr : Bytes) : ℕ :=
  ((txs.filter fun tx => tx.txClass = Config.walletTxTypeMining).flatMap TxItr.getVout).countP fun vout =>
    vout.value = Config.miningReward ∧ vout.address = addr

/-- The inputs that name a deposit, over the transactions that return deposits. -/
def refundsOf (txs : List TxItr) (depositId : Bytes) : ℕ :=
  ((txs.filter fun tx => tx.txClass = Config.walletTxTypeDepositOut).flatMap TxItr.getVin).countP fun vin =>
    vin.txid = depositId

/-- The transaction takes the first output of the deposit and pays it out. -/
def Returns (rt : Runtime) (db : Db) (depositId : Bytes) (tx : TxItr) : Prop :=
  tx.txClass = Config.walletTxTypeDepositOut ∧ ∃ vin vout, (vin, vout) ∈ tx.getVin.zip tx.getVout ∧
    vin.txid = depositId ∧ vin.vout = 0 ∧ ∃ bs deposit first, db.find depositId = some bs ∧
      parseTxBase rt bs = some deposit ∧ deposit.getVout.head? = some first ∧
        vout.value = first.value ∧ vout.address = first.address

/-- A witness is rewarded once, and its deposit is returned once. -/
structure PaidOut (rt : Runtime) (turns : List (Turn × BlockHeadVO)) (one : Witness) : Prop where
  rewarded : rewardsTo (turns.flatMap fun turn => turn.2.txs) one.addr = 1
  refunded : refundsOf (turns.flatMap fun turn => turn.2.txs) one.depositId = 1
  returned : ∃ turn ∈ turns, ∃ tx ∈ turn.2.txs, Returns rt turn.1.node.db one.depositId tx

/-- One builder has the first address, no other producer names the same deposit, and no pending
transaction rewards the witness or returns its deposit; or there is no such builder, and pending
transactions do both. -/
inductive PaysOut (rt : Runtime) (group next : WitnessGroup) (turns : List Turn) (one : Witness) : Prop where
  | first (once : turns.countP (Turn.isFirst next) = 1)
      (unshared : (group.producers.countP fun other => other.depositId = one.depositId) = 1)
      (unrewarded : rewardsTo (turns.flatMap Turn.pending) one.addr = 0)
      (unrefunded : refundsOf (turns.flatMap Turn.pending) one.depositId = 0)
  | pending (missed : turns.countP (Turn.isFirst next) = 0)
      (rewarded : rewardsTo (turns.flatMap Turn.pending) one.addr = 1)
      (refunded : refundsOf (turns.flatMap Turn.pending) one.depositId = 1)
      (returned : ∃ turn ∈ turns, ∃ tx ∈ turn.pending, Returns rt turn.node.db one.depositId tx)

section Settle

variable {rt : Runtime}

theorem rewardsTo_append (first second : List TxItr) (addr : Bytes) :
    rewardsTo (first ++ second) addr = rewardsTo first addr + rewardsTo second addr := by
  simp only [rewardsTo, List.filter_append, List.flatMap_append, List.countP_append]

theorem refundsOf_append (first second : List TxItr) (depositId : Bytes) :
    refundsOf (first ++ second) depositId = refundsOf first depositId + refundsOf second depositId := by
  simp only [refundsOf, List.filter_append, List.flatMap_append, List.countP_append]

/-- Something else than the groups before the last and the addresses in the last may change. -/
def SameGroups (before : List WitnessGroup) (addrs : List Bytes) (witnesses : WitnessChain) : Prop :=
  ∃ group, witnesses.groups = before ++ [group] ∧ group.witness.map Witness.addr = addrs

theorem SameGroups.handle {before : List WitnessGroup} {addrs : List Bytes} {witnesses next : WitnessChain}
    {event : WitnessEvent} (same : SameGroups before addrs witnesses) (stays : event.staysInGroup = true)
    (handles : witnesses.handle rt event = some next) : SameGroups before addrs next := by
  obtain ⟨group, groups, sameAddrs⟩ := same
  cases event with
  | add depositId addr =>
    cases handles
    exact ⟨group, groups, sameAddrs⟩
  | build n height => cases stays
  | set db chain block =>
    obtain ⟨⟨after, result⟩, sets, rfl⟩ := Option.map_eq_some_iff.mp handles
    rcases WitnessChain.setWitnessBlock_cases sets with
      same | ⟨earlier, current, addr, witness, last, split, given, same⟩
    · rw [same]
      exact ⟨group, groups, sameAddrs⟩
    · obtain ⟨rfl, rfl⟩ := List.append_singleton_inj.mp (split.symm.trans groups)
      obtain ⟨front, one, rest, whole, changed, -, -⟩ := WitnessChain.setBlock_spec given
      refine ⟨_, by rw [same], ?_⟩
      rw [← sameAddrs, whole, changed]
      simp only [List.map_append, List.map_cons]

/-- The refunds of witnesses: an input and an output for each. -/
theorem refunds_spec {db : Db} {producers : List Witness} {pairs : List (Vin × Vout)}
    (made : refunds rt db producers = some pairs) :
    (pairs.map fun pair => pair.1.txid) = producers.map Witness.depositId ∧
      ∀ one ∈ producers, ∃ pair ∈ pairs, pair.1.txid = one.depositId ∧ pair.1.vout = 0 ∧ ∃ bs deposit first,
        db.find one.depositId = some bs ∧ parseTxBase rt bs = some deposit ∧ deposit.getVout.head? = some first ∧
          pair.2.value = first.value ∧ pair.2.address = first.address := by
  induction producers generalizing pairs with
  | nil =>
    cases made
    exact ⟨rfl, List.forall_mem_nil _⟩
  | cons one rest ih =>
    obtain ⟨bs, found, made⟩ := Option.bind_eq_some_iff.mp made
    obtain ⟨deposit, parsed, made⟩ := Option.bind_eq_some_iff.mp made
    obtain ⟨first, output, made⟩ := Option.bind_eq_some_iff.mp made
    obtain ⟨later, more, same⟩ := Option.bind_eq_some_iff.mp made
    cases same
    obtain ⟨ids, each⟩ := ih more
    refine ⟨congrArg (one.depositId :: ·) ids, List.forall_mem_cons.mpr ⟨?_, fun other member => ?_⟩⟩
    · exact ⟨_, List.mem_cons_self, rfl, rfl, bs, deposit, first, found, parsed, output, rfl, rfl⟩
    · obtain ⟨pair, inside, facts⟩ := each other member
      exact ⟨pair, List.mem_cons_of_mem _ inside, facts⟩

/-- A block is its pending transactions, behind the rewards and the refunds where the builder is first. -/
def Brings (rt : Runtime) (group next : WitnessGroup) (turn : Turn) (block : BlockHeadVO) : Prop :=
  if turn.isFirst next then
    ∃ pairs, refunds rt turn.node.db group.producers = some pairs ∧ block.txs =
      (rewardTx group.producers turn.packing.rewardTime).buildHash rt ::
        (depositOutTx pairs turn.packing.outTime).buildHash rt :: turn.pending
  else block.txs = turn.pending

/-- The transactions of a block: the bonus of a first witness, and the pending ones. -/
theorem buildGroupBlock_txs {wallet : Wallet} {node : Node} {group : WitnessGroup} {preGroup : Option WitnessGroup}
    {addr : Bytes} {packing : Packing} {block : BlockHeadVO}
    (builds : buildGroupBlock rt wallet node group preGroup addr packing = some block) :
    ∃ bonus, bonusOf rt node.db group preGroup addr packing = some bonus ∧
      block.txs = bonus ++ packPending packing.visits := by
  unfold buildGroupBlock at builds
  split at builds
  · cases builds
  · next txs packed =>
    obtain ⟨_, -, builds⟩ := Option.bind_eq_some_iff.mp builds
    obtain ⟨_, -, made⟩ := Option.bind_eq_some_iff.mp builds
    cases made
    obtain ⟨-, -, packed⟩ := Option.bind_eq_some_iff.mp packed
    obtain ⟨bonus, added, whole⟩ := Option.bind_eq_some_iff.mp packed
    cases whole
    exact ⟨bonus, added, rfl⟩

theorem brings_of_buildGroupBlock {group next current : WitnessGroup} {turn : Turn} {block : BlockHeadVO}
    {coinbase : Address} (mines : turn.wallet.coinbase = some coinbase)
    (same : current.witness.map Witness.addr = next.witness.map Witness.addr)
    (builds : buildGroupBlock rt turn.wallet turn.node current (some group) coinbase.hash turn.packing = some block) :
    Brings rt group next turn block := by
  have isFirst : turn.isFirst next = current.isFirst coinbase.hash := by
    rw [Turn.isFirst, mines, Option.any_some, WitnessGroup.isFirst_eq, WitnessGroup.isFirst_eq, same]
  obtain ⟨bonus, added, whole⟩ := buildGroupBlock_txs builds
  rw [Brings, isFirst, whole]
  simp only [bonusOf] at added
  split at added
  · next first =>
    obtain ⟨pairs, made, same⟩ := Option.bind_eq_some_iff.mp added
    cases same
    rw [if_pos first]
    exact ⟨pairs, made, rfl⟩
  · next other =>
    cases added
    rw [if_neg other]
    rfl

/-- Every block of a schedule is built so. -/
theorem Schedule.brings {before : List WitnessGroup} {group next : WitnessGroup} {witnesses : WitnessChain}
    {turns : List (Turn × BlockHeadVO)} (schedule : Schedule rt witnesses turns)
    (groups : SameGroups (before ++ [group]) (next.witness.map Witness.addr) witnesses) :
    ∀ entry ∈ turns, Brings rt group next entry.1 entry.2 := by
  induction schedule with
  | done => exact List.forall_mem_nil _
  | between stays handles later ih => exact ih (groups.handle stays handles)
  | @built witnesses turn block turns builds later ih =>
    refine List.forall_mem_cons.mpr ⟨?_, ih groups⟩
    obtain ⟨current, split, same⟩ := groups
    have isCurrent : witnesses.current = some current := by rw [WitnessChain.current, split, List.getLast?_concat]
    have isBefore : witnesses.preGroup = some group := by
      rw [WitnessChain.preGroup, split, List.dropLast_concat, List.getLast?_concat]
    unfold Turn.build at builds
    split at builds
    · obtain ⟨coinbase, mines, builds⟩ := Option.bind_eq_some_iff.mp builds
      obtain ⟨_, here, builds⟩ := Option.bind_eq_some_iff.mp builds
      obtain rfl := Option.some.inj (isCurrent.symm.trans here)
      obtain ⟨this, found, builds⟩ := Option.bind_eq_some_iff.mp builds
      have isAddr : this.addr = coinbase.hash := by simpa using List.find?_some found
      rw [isBefore, isAddr] at builds
      exact brings_of_buildGroupBlock mines same builds
    · obtain ⟨coinbase, mines, builds⟩ := Option.bind_eq_some_iff.mp builds
      obtain ⟨_, here, builds⟩ := Option.bind_eq_some_iff.mp builds
      obtain rfl := Option.some.inj (isCurrent.symm.trans here)
      obtain ⟨this, found, builds⟩ := Option.bind_eq_some_iff.mp builds
      dsimp only at builds
      split at builds
      · cases builds
      · next isAddr =>
        split at builds
        · cases builds
        · rw [isBefore, not_not.mp isAddr] at builds
          exact brings_of_buildGroupBlock mines same builds

/-! ## Counting rewards and refunds -/

theorem rewardsTo_cons (tx : TxItr) (txs : List TxItr) (addr : Bytes) :
    rewardsTo (tx :: txs) addr = rewardsTo [tx] addr + rewardsTo txs addr := rewardsTo_append [tx] txs addr

theorem refundsOf_cons (tx : TxItr) (txs : List TxItr) (depositId : Bytes) :
    refundsOf (tx :: txs) depositId = refundsOf [tx] depositId + refundsOf txs depositId :=
  refundsOf_append [tx] txs depositId

/-- A reward transaction pays each producer once. -/
theorem rewardsTo_rewardTx {group : WitnessGroup} (unique : WitnessChain.OnePerAddr group.witness) {one : Witness}
    (member : one ∈ group.producers) (createTime : Int64) :
    rewardsTo [(rewardTx group.producers createTime).buildHash rt] one.addr = 1 := by
  have isReward : ((rewardTx group.producers createTime).buildHash rt).txClass = Config.walletTxTypeMining :=
    TxItr.txClass_buildHash rt _
  have addrs : (group.producers.map Witness.addr).Nodup :=
    List.pairwise_map.mpr (WitnessGroup.producers_pairwise unique)
  have outputs := List.count_eq_one_of_mem addrs (List.mem_map_of_mem member)
  rw [List.count, List.countP_map] at outputs
  rw [rewardsTo, List.filter_cons_of_pos (by simpa using isReward), List.filter_nil, List.flatMap_singleton,
    TxItr.getVout_buildHash]
  rw [getVout_rewardTx, List.countP_map, ← outputs]
  exact List.countP_congr fun other _ => by simp [Vout.address]

theorem rewardsTo_depositOutTx (pairs : List (Vin × Vout)) (createTime : Int64) (addr : Bytes) :
    rewardsTo [(depositOutTx pairs createTime).buildHash rt] addr = 0 := by
  have isOut : ((depositOutTx pairs createTime).buildHash rt).txClass = Config.walletTxTypeDepositOut :=
    TxItr.txClass_buildHash rt _
  rw [rewardsTo, List.filter_cons_of_neg (by rw [isOut]; decide)]
  rfl

theorem refundsOf_rewardTx (producers : List Witness) (createTime : Int64) (depositId : Bytes) :
    refundsOf [(rewardTx producers createTime).buildHash rt] depositId = 0 := by
  have isReward : ((rewardTx producers createTime).buildHash rt).txClass = Config.walletTxTypeMining :=
    TxItr.txClass_buildHash rt _
  rw [refundsOf, List.filter_cons_of_neg (by rw [isReward]; decide)]
  rfl

/-- A refund has an input for each producer that names the deposit. -/
theorem refundsOf_depositOutTx {db : Db} {producers : List Witness} {pairs : List (Vin × Vout)}
    (made : refunds rt db producers = some pairs) (createTime : Int64) (depositId : Bytes) :
    refundsOf [(depositOutTx pairs createTime).buildHash rt] depositId =
      producers.countP fun other => other.depositId = depositId := by
  have isOut : ((depositOutTx pairs createTime).buildHash rt).txClass = Config.walletTxTypeDepositOut :=
    TxItr.txClass_buildHash rt _
  have ids := congrArg (List.countP fun txid => decide (txid = depositId)) (refunds_spec made).1
  rw [List.countP_map, List.countP_map] at ids
  rw [refundsOf, List.filter_cons_of_pos (by simpa using isOut), List.filter_nil, List.flatMap_singleton,
    TxItr.getVin_buildHash]
  rw [getVin_depositOutTx, List.countP_map]
  exact ids

/-- A refund returns the deposit of every producer. -/
theorem returns_depositOutTx {db : Db} {producers : List Witness} {pairs : List (Vin × Vout)}
    (made : refunds rt db producers = some pairs) (createTime : Int64) {one : Witness} (member : one ∈ producers) :
    Returns rt db one.depositId ((depositOutTx pairs createTime).buildHash rt) := by
  obtain ⟨pair, inside, named, index, record⟩ := (refunds_spec made).2 one member
  refine ⟨TxItr.txClass_buildHash rt _, pair.1, pair.2, ?_, named, index, record⟩
  rw [TxItr.getVin_buildHash, TxItr.getVout_buildHash, getVin_depositOutTx, getVout_depositOutTx, List.zip_map']
  exact List.mem_map_of_mem inside

section Block

variable {group next : WitnessGroup} {turn : Turn} {block : BlockHeadVO} {one : Witness}

theorem Brings.rewards (brings : Brings rt group next turn block) (unique : WitnessChain.OnePerAddr group.witness)
    (member : one ∈ group.producers) :
    rewardsTo block.txs one.addr = (if turn.isFirst next then 1 else 0) + rewardsTo turn.pending one.addr := by
  unfold Brings at brings
  split at brings
  · next first =>
    obtain ⟨pairs, made, whole⟩ := brings
    rw [whole, rewardsTo_cons, rewardsTo_cons _ turn.pending, rewardsTo_rewardTx unique member, rewardsTo_depositOutTx,
      if_pos first, Nat.zero_add]
  · next other => rw [brings, if_neg other, Nat.zero_add]

theorem Brings.refunds (brings : Brings rt group next turn block) (depositId : Bytes) :
    refundsOf block.txs depositId =
      (if turn.isFirst next then 1 else 0) * (group.producers.countP fun other => other.depositId = depositId) +
        refundsOf turn.pending depositId := by
  unfold Brings at brings
  split at brings
  · next first =>
    obtain ⟨pairs, made, whole⟩ := brings
    rw [whole, refundsOf_cons, refundsOf_cons _ turn.pending, refundsOf_rewardTx, refundsOf_depositOutTx made,
      if_pos first, Nat.zero_add, Nat.one_mul]
  · next other => rw [brings, if_neg other, Nat.zero_mul, Nat.zero_add]

/-- A block returns the deposit when its builder is first, or when a pending transaction does. -/
theorem Brings.returned_iff (brings : Brings rt group next turn block) (member : one ∈ group.producers) :
    (∃ tx ∈ block.txs, Returns rt turn.node.db one.depositId tx) ↔
      turn.isFirst next ∨ ∃ tx ∈ turn.pending, Returns rt turn.node.db one.depositId tx := by
  unfold Brings at brings
  split at brings
  · next first =>
    obtain ⟨pairs, made, whole⟩ := brings
    refine ⟨fun _ => .inl first, fun _ => ?_⟩
    exact ⟨_, whole ▸ List.mem_cons_of_mem _ List.mem_cons_self, returns_depositOutTx made _ member⟩
  · next other => simp only [brings, other, false_or, Bool.false_eq_true]

end Block

/-- What the blocks of a group bring for one producer of the group before: a reward and refunds from
every builder that is first, and what is pending. -/
structure Totals (rt : Runtime) (group next : WitnessGroup) (turns : List (Turn × BlockHeadVO)) (one : Witness) :
    Prop where
  rewards : rewardsTo (turns.flatMap fun turn => turn.2.txs) one.addr =
    (turns.map Prod.fst).countP (Turn.isFirst next) + rewardsTo ((turns.map Prod.fst).flatMap Turn.pending) one.addr
  refunds : refundsOf (turns.flatMap fun turn => turn.2.txs) one.depositId =
    (turns.map Prod.fst).countP (Turn.isFirst next) *
        (group.producers.countP fun other => other.depositId = one.depositId) +
      refundsOf ((turns.map Prod.fst).flatMap Turn.pending) one.depositId
  returned : (∃ turn ∈ turns, ∃ tx ∈ turn.2.txs, Returns rt turn.1.node.db one.depositId tx) ↔
    0 < (turns.map Prod.fst).countP (Turn.isFirst next) ∨
      ∃ turn ∈ turns.map Prod.fst, ∃ tx ∈ turn.pending, Returns rt turn.node.db one.depositId tx

theorem totals_of_brings {group next : WitnessGroup} (unique : WitnessChain.OnePerAddr group.witness)
    {turns : List (Turn × BlockHeadVO)} (brings : ∀ entry ∈ turns, Brings rt group next entry.1 entry.2)
    {one : Witness} (member : one ∈ group.producers) : Totals rt group next turns one := by
  induction turns with
  | nil => exact ⟨rfl, by simp [refundsOf], by simp⟩
  | cons entry rest ih =>
    obtain ⟨here, later⟩ := List.forall_mem_cons.mp brings
    obtain ⟨rewards, refunds, returned⟩ := ih later
    constructor
    · simp only [List.flatMap_cons, List.map_cons, List.countP_cons, rewardsTo_append, rewards,
        here.rewards unique member]
      omega
    · simp only [List.flatMap_cons, List.map_cons, List.countP_cons, refundsOf_append, refunds,
        here.refunds one.depositId, Nat.add_mul]
      omega
    · rw [List.exists_mem_cons_iff, here.returned_iff member, returned, List.map_cons, List.exists_mem_cons_iff,
        List.countP_pos_iff, List.countP_pos_iff, List.exists_mem_cons_iff]
      exact or_or_or_comm

/-- A count that is one: the part that repeats comes once and is one, or not at all. -/
private theorem once_iff {times each more : ℕ} (positive : 0 < each) :
    times * each + more = 1 ↔ (times = 1 ∧ each = 1 ∧ more = 0) ∨ (times = 0 ∧ more = 1) := by
  rcases times with _ | _ | times
  · simp
  · rw [Nat.zero_add, Nat.one_mul]
    omega
  · have many : 2 ≤ (times + 1 + 1) * each := Nat.mul_le_mul (Nat.le_add_left 2 times) positive
    omega

theorem Totals.balance_iff {group next : WitnessGroup} {turns : List (Turn × BlockHeadVO)} {one : Witness}
    (totals : Totals rt group next turns one) (member : one ∈ group.producers) :
    PaidOut rt turns one ↔ PaysOut rt group next (turns.map Prod.fst) one := by
  have shares : 0 < group.producers.countP fun other => other.depositId = one.depositId :=
    List.countP_pos_iff.mpr ⟨one, member, by simp⟩
  constructor
  · rintro ⟨rewarded, refunded, returned⟩
    rw [totals.rewards] at rewarded
    rw [totals.refunds, once_iff shares] at refunded
    rw [totals.returned] at returned
    rcases refunded with ⟨once, unshared, unrefunded⟩ | ⟨missed, refunded⟩
    · exact .first once unshared (by omega) unrefunded
    · refine .pending missed (by omega) refunded (returned.resolve_left ?_)
      omega
  · rintro (⟨once, unshared, unrewarded, unrefunded⟩ | ⟨missed, rewarded, refunded, returned⟩)
    · refine ⟨?_, ?_, totals.returned.mpr (.inl (by omega))⟩
      · rw [totals.rewards, once, unrewarded]
      · rw [totals.refunds, once, unshared, unrefunded]
    · refine ⟨?_, ?_, totals.returned.mpr (.inr returned)⟩
      · rw [totals.rewards, missed, rewarded]
      · rw [totals.refunds, missed, refunded, Nat.zero_mul]

/-- Every producer of a group is paid out by the blocks of the next group exactly when the first
witness of that group builds once and nothing pending interferes, or pending transactions stand in. -/
theorem paidOut_iff {witnesses : WitnessChain} (run : Relation.ReflTransGen (WitnessChain.Step rt) {} witnesses)
    {before : List WitnessGroup} {group next : WitnessGroup} (groups : witnesses.groups = before ++ [group, next])
    {turns : List (Turn × BlockHeadVO)} (schedule : Schedule rt witnesses turns) :
    (∀ one ∈ group.producers, PaidOut rt turns one) ↔
      ∀ one ∈ group.producers, PaysOut rt group next (turns.map Prod.fst) one := by
  have unique := (WitnessChain.sound_of_run run).groups group (by simp [groups])
  have brings := schedule.brings ⟨next, by rw [groups, List.append_assoc]; rfl, rfl⟩
  exact forall₂_congr fun one member => (totals_of_brings unique brings member).balance_iff member

end Settle

/-! ## A group whose first witness builds, and one whose first witness misses its turn -/

namespace Sample

/-- The deposit of a witness whose address is not one of the wallet. -/
def staked : TxItr :=
  .depositIn { type := Config.walletTxTypeDepositIn, voutTotal := 1,
               vout? := some [{ value := 100000000, address? := some [0, 1, 9] }] }

/-- The block that this witness produces, and the nodes that hold it and the deposit. -/
def produced : BlockHead := { hash? := some [1], height := 1, groupHeight := 1, witness? := some [0, 1, 9] }

def producedBlock : Block := { group := 0, height := 1, id? := some [1], depositTx := [] }

def holder : Node where
  db := ((Db.save .empty [1] produced.json).save [7] staked.json)
  chain := { blocks := [producedBlock], groups := [{ height := 1, blocks := [0] }], group := some 0 }

def producing : WitnessGroup := ⟨1, [⟨[7], [0, 1, 9], some producedBlock⟩]⟩

/-- The next group: the other key and then the coinbase, or the coinbase alone. -/
def late : WitnessGroup := ⟨2, [⟨[8], otherKey.hash, none⟩, ⟨[9], coinbaseKey.hash, none⟩]⟩

def prompt : WitnessGroup := ⟨2, [⟨[9], coinbaseKey.hash, none⟩]⟩

theorem run_producing :
    Relation.ReflTransGen (WitnessChain.Step runtime) {} { groups := [producing] } := by
  refine ((Relation.ReflTransGen.refl.tail ⟨.add [7] [0, 1, 9], rfl⟩).tail ⟨.build 1 1, rfl⟩).tail
    ⟨.set holder.db holder.chain producedBlock, ?_⟩
  rfl

theorem run_late : Relation.ReflTransGen (WitnessChain.Step runtime) {} { groups := [producing, late] } :=
  ((run_producing.tail ⟨.add [8] otherKey.hash, rfl⟩).tail ⟨.add [9] coinbaseKey.hash, rfl⟩).tail ⟨.build 2 0, rfl⟩

theorem run_prompt : Relation.ReflTransGen (WitnessChain.Step runtime) {} { groups := [producing, prompt] } :=
  (run_producing.tail ⟨.add [9] coinbaseKey.hash, rfl⟩).tail ⟨.build 1 0, rfl⟩

theorem typed_nil : ∀ visit ∈ ([] : List (Bytes × TxItr)), visit.2.Typed := List.forall_mem_nil _

/-- Nothing is pending. -/
def unpacked : Packing where
  visits := []
  typed := typed_nil

/-- The coinbase builds with nothing pending. -/
def idle : Turn where
  wallet := twoKeys
  node := holder
  packing := unpacked
  place := none

theorem idle_late : ∃ block, Schedule runtime { groups := [producing, late] } [(idle, block)] :=
  ⟨_, .built (rfl : idle.build runtime { groups := [producing, late] } = some _) (.done _)⟩

theorem idle_prompt : ∃ block, Schedule runtime { groups := [producing, prompt] } [(idle, block)] :=
  ⟨_, .built (rfl : idle.build runtime { groups := [producing, prompt] } = some _) (.done _)⟩

end Sample

/-- The coinbase stands first in the next group, and its block pays out the only producer. -/
theorem paidOut_prompt : ∃ block,
    Schedule Sample.runtime { groups := [Sample.producing, Sample.prompt] } [(Sample.idle, block)] ∧
      ∀ one ∈ Sample.producing.producers, PaidOut Sample.runtime [(Sample.idle, block)] one := by
  obtain ⟨block, schedule⟩ := Sample.idle_prompt
  refine ⟨block, schedule, (@paidOut_iff Sample.runtime _ Sample.run_prompt [] _ _ rfl _ schedule).mpr ?_⟩
  rintro one (_ | ⟨_, ⟨⟩⟩)
  exact .first rfl rfl rfl rfl

/-- The first witness of the next group misses its turn, and the block of the second one brings
neither the reward nor the deposit. -/
theorem turn_missed : ∃ (witnesses : WitnessChain) (group next : WitnessGroup) (one : Witness) (turn : Turn)
    (block : BlockHeadVO),
    Relation.ReflTransGen (WitnessChain.Step Sample.runtime) {} witnesses ∧ witnesses.groups = [group, next] ∧
      one ∈ group.producers ∧ Schedule Sample.runtime witnesses [(turn, block)] ∧
        rewardsTo block.txs one.addr = 0 ∧ refundsOf block.txs one.depositId = 0 ∧
          ¬ ∀ one ∈ group.producers, PaidOut Sample.runtime [(turn, block)] one := by
  obtain ⟨block, schedule⟩ := Sample.idle_late
  have brings := @Schedule.brings Sample.runtime [] Sample.producing Sample.late _ _ schedule ⟨Sample.late, rfl, rfl⟩
  have whole : block.txs = [] := brings _ List.mem_cons_self
  refine ⟨_, Sample.producing, Sample.late, _, Sample.idle, block, Sample.run_late, rfl, List.mem_cons_self, schedule,
    ?_, ?_, ?_⟩
  · rw [whole]
    rfl
  · rw [whole]
    rfl
  · intro paid
    have rewarded := (paid _ List.mem_cons_self).rewarded
    rw [List.flatMap_singleton, whole] at rewarded
    cases rewarded

end PolarCloud.Mining
