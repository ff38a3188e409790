import PolarCloud.Base.Replay
import PolarCloud.Proofs.Mining.Linkage

/-! # The counters and the chain

Three heights are kept side by side: the one of the last block in the list, the height synchronised
up to, and the highest one seen. A turn of the block saver moves each under a guard of its own, and
the load at start-up moves the first alone. The heights agree from then on exactly when the loaded
chain ends at height zero or is empty, the first block that is linked has height zero or one, and no
block of the next height causes a panic.
-/

namespace PolarCloud.Mining

open Keystore

/-! ## Three heights -/

/-- The height of the last block, the height synchronised up to, and the highest one seen. -/
structure Heights where
  last : Option UInt64
  current : UInt64
  highest : UInt64
deriving DecidableEq, Repr

namespace Heights

/-- The last height after a block: the list takes its first block, and then the next height only. -/
def extend (last : Option UInt64) (height : UInt64) : Option UInt64 :=
  if last.all fun other => other + 1 = height then some height else last

/-- A block that is linked or refused. -/
def take (heights : Heights) (height : UInt64) : Heights where
  last := extend heights.last height
  current := if heights.current + 1 = height then height else heights.current
  highest := if height ≤ heights.highest then heights.highest else height

/-- A block whose linking panics has moved one counter already. -/
def crash (heights : Heights) (height : UInt64) : Heights :=
  { heights with current := if heights.current + 1 = height then height else heights.current }

/-- The height synchronised up to is the one of the last block, and at most the highest one. -/
structure Tracks (heights : Heights) : Prop where
  current : heights.current = heights.last.getD 0
  highest : heights.current ≤ heights.highest

/-- A block keeps the heights together exactly when it is not a first one above height one. -/
theorem Tracks.take_iff {heights : Heights} (tracks : heights.Tracks) (height : UInt64) :
    (heights.take height).Tracks ↔ (heights.last = none → height ≤ 1) := by
  obtain ⟨last, current, highest⟩ := heights
  obtain ⟨same, bound⟩ := tracks
  have same : current = last.getD 0 := same
  have bound : current ≤ highest := bound
  have seen : (if current + 1 = height then height else current) ≤ if height ≤ highest then highest else height := by
    split <;> split <;> grind
  have moves : (take ⟨last, current, highest⟩ height).Tracks ↔
      (if current + 1 = height then height else current) = (extend last height).getD 0 :=
    ⟨fun tracks => tracks.current, fun same => ⟨same, seen⟩⟩
  rw [moves]
  cases last with
  | none =>
    have zero : current = 0 := same
    simp only [extend, Option.all_none, if_true, Option.getD_some, zero, forall_const]
    grind
  | some last =>
    have equal : current = last := same
    simp only [extend, Option.all_some, decide_eq_true_eq, equal, reduceCtorEq, false_imp_iff, iff_true]
    split <;> rfl

/-- A panic keeps the heights together exactly when the block does not have the next height. -/
theorem Tracks.crash_iff {heights : Heights} (tracks : heights.Tracks) (height : UInt64) :
    (heights.crash height).Tracks ↔ heights.current + 1 ≠ height := by
  constructor
  · rintro ⟨same, -⟩ next
    have moved : height = heights.current := by
      rw [tracks.current]
      simpa only [crash, if_pos next] using same
    grind
  · intro other
    rw [crash, if_neg other]
    exact tracks

end Heights

/-! ## The heights of a node -/

def Chain.heights (chain : Chain) : Heights where
  last := chain.getLastBlock.map Block.height
  current := chain.currentBlock
  highest := chain.highestBlock

/-- `GetCurrentBlock` is the height of the last block, or zero, and `HighestBlock` is at least that. -/
def Node.Tracks (node : Node) : Prop := node.chain.heights.Tracks

section Turn

variable {rt : Runtime} {wallet : Wallet} {node : Node}

theorem Chain.Linked.last_heights {chain : Chain} (linked : chain.Linked) :
    chain.heights.last = chain.labels.getLast?.map fun label => label.2.1 := by
  rw [heights, linked.getLastBlock_eq, labels, List.getLast?_map, Option.map_map]
  rfl

theorem Chain.extend_heights (chain : Chain) (bh : BlockHead) :
    Heights.extend chain.heights.last bh.height =
      if chain.Accepts bh then some bh.height else chain.heights.last := by
  have same : (chain.heights.last.all fun other => other + 1 = bh.height) = true ↔ chain.Accepts bh := by
    rw [heights, Accepts]
    cases chain.getLastBlock <;> simp
  rw [Heights.extend]
  simp only [same]

/-- Adding a block extends the list and moves no counter. -/
theorem Adds.heights {next : Node} {bh : BlockHead} {txs : List TxItr} {added : Bool} (linked : node.chain.Linked)
    (adds : Adds rt wallet node bh txs next added) :
    next.chain.heights = { node.chain.heights with last := Heights.extend node.chain.heights.last bh.height } := by
  obtain ⟨depositTx, -, link⟩ := adds.deposits
  rw [Chain.extend_heights]
  by_cases accepted : node.chain.Accepts bh
  · obtain ⟨chain, result, linked', kept, labels⟩ := Chain.linkBlock_accepted depositTx linked accepted
    obtain ⟨rfl, -⟩ := Prod.mk.inj (Option.some.inj (link.symm.trans result))
    have last : next.chain.heights.last = some bh.height := by
      rw [linked'.last_heights, labels, List.getLast?_append]
      rfl
    rw [if_pos accepted, ← last, Chain.heights, Chain.heights]
    rw [kept]
  · obtain ⟨same, -⟩ :=
      Prod.mk.inj (Option.some.inj (link.symm.trans (Chain.linkBlock_refused depositTx linked accepted)))
    rw [if_neg accepted, same]

/-- What a block that is handed over does to the heights. -/
theorem storeBlock_heights {bh : BlockHead} {txs : List TxItr} (linked : node.chain.Linked) :
    (storeBlock rt wallet node bh txs).1.chain.heights =
      if wallet.coinbase.isSome ∧ DepositsFilled txs then node.chain.heights.take bh.height
      else node.chain.heights.crash bh.height := by
  unfold storeBlock
  dsimp only
  generalize chosen : (if node.chain.currentBlock + 1 = bh.height then { node.chain with currentBlock := bh.height }
    else node.chain) = chain
  have crashed : chain.heights = node.chain.heights.crash bh.height := by
    subst chosen
    split
    · next due => rw [Heights.crash, if_pos (show node.chain.heights.current + 1 = bh.height from due)]; rfl
    · next other => rw [Heights.crash, if_neg (show ¬ node.chain.heights.current + 1 = bh.height from other)]
  have linked' : chain.Linked := by
    subst chosen
    split
    · exact ⟨linked.blocks, linked.groups, linked.group, linked.pieces, linked.nonempty, linked.owner⟩
    · exact linked
  split
  · next ran =>
    rw [if_neg fun runs => absurd ran (Option.isSome_iff_ne_none.mp ((addBlock_isSome_iff linked').mpr runs))]
    exact crashed
  · next after added ran =>
    rw [if_pos ((addBlock_isSome_iff linked').mp (Option.isSome_iff_exists.mpr ⟨_, ran⟩))]
    have heights := (addBlock_eq_some_iff.mp ran).heights linked'
    have heights : after.chain.heights = { chain.heights with last := Heights.extend chain.heights.last bh.height } :=
      heights
    have highest : after.chain.highestBlock = node.chain.highestBlock := by
      have same := congrArg Heights.highest heights
      rw [crashed] at same
      exact same
    rw [crashed] at heights
    split
    · next below =>
      rw [highest] at below
      rw [heights, Heights.take, if_pos (show bh.height ≤ node.chain.heights.highest from below), Heights.crash]
    · next above =>
      rw [highest] at above
      have raised : ({ after.chain with highestBlock := bh.height } : Chain).heights =
          { after.chain.heights with highest := bh.height } := rfl
      rw [raised, heights, Heights.take, if_neg (show ¬ bh.height ≤ node.chain.heights.highest from above),
        Heights.crash]

/-- The block that a turn hands over moves the heights, and nothing else does. -/
theorem saveBlockHead_heights (linked : node.chain.Linked) (bhvo : BlockHeadVO) :
    (saveBlockHead rt wallet node bhvo).1.chain.Linked ∧
      ((ChainEvent.handed? rt node (.block (.save bhvo)) = none ∧
          (saveBlockHead rt wallet node bhvo).1.chain.heights = node.chain.heights) ∨
        ∃ bh txs, ChainEvent.handed? rt node (.block (.save bhvo)) = some (bh, txs) ∧
          (saveBlockHead rt wallet node bhvo).1.chain.heights =
            if wallet.coinbase.isSome ∧ DepositsFilled txs then node.chain.heights.take bh.height
            else node.chain.heights.crash bh.height) := by
  refine ⟨((saveBlockHead_handed bhvo).effect linked).1, ?_⟩
  rcases @saveBlockHead_cases rt wallet node bhvo with ⟨unhanded, db, same⟩ | ⟨db, bh, txs, handed, same⟩
  · exact .inl ⟨unhanded, by rw [same]⟩
  · have linked' : Chain.Linked ({ node with db } : Node).chain := linked
    exact .inr ⟨bh, txs, handed, by rw [same]; exact storeBlock_heights linked'⟩

end Turn

/-- A block that is handed over and linked is no first one above height one; one that causes a panic
does not have the next height. -/
def KeepsTrack (rt : Runtime) (wallet : Wallet) (node : Node) (bhvo : BlockHeadVO) : Prop :=
  ∀ bh txs, ChainEvent.handed? rt node (.block (.save bhvo)) = some (bh, txs) →
    if wallet.coinbase.isSome ∧ DepositsFilled txs then node.chain.getLastBlock = none → bh.height ≤ 1
    else node.chain.currentBlock + 1 ≠ bh.height

section Run

variable {rt : Runtime} {wallet : Wallet} {node : Node}

/-- One turn keeps the heights together exactly under its condition. -/
theorem tracks_turn_iff (linked : node.chain.Linked) (tracks : node.Tracks) (bhvo : BlockHeadVO) :
    (saveBlockHead rt wallet node bhvo).1.Tracks ↔ KeepsTrack rt wallet node bhvo := by
  obtain ⟨-, ⟨unhanded, same⟩ | ⟨bh, txs, handed, same⟩⟩ := @saveBlockHead_heights rt wallet node linked bhvo
  · refine iff_of_true (by rw [Node.Tracks, same]; exact tracks) fun bh txs handed => ?_
    cases unhanded.symm.trans handed
  · have only : KeepsTrack rt wallet node bhvo ↔ if wallet.coinbase.isSome ∧ DepositsFilled txs then
        node.chain.getLastBlock = none → bh.height ≤ 1 else node.chain.currentBlock + 1 ≠ bh.height := by
      constructor
      · intro keeps
        exact keeps bh txs handed
      · intro keeps other txs' handed'
        cases handed.symm.trans handed'
        exact keeps
    rw [only, Node.Tracks, same]
    split
    · rw [tracks.take_iff, Chain.heights, Option.map_eq_none_iff]
    · exact tracks.crash_iff bh.height

/-- The node after some turns of the block saver. -/
def turns (rt : Runtime) (wallet : Wallet) (node : Node) (blocks : List BlockHeadVO) : Node :=
  blocks.foldl (fun node bhvo => (saveBlockHead rt wallet node bhvo).1) node

theorem turns_concat (node : Node) (before : List BlockHeadVO) (bhvo : BlockHeadVO) :
    turns rt wallet node (before ++ [bhvo]) = (saveBlockHead rt wallet (turns rt wallet node before) bhvo).1 :=
  Replay.foldl_concat before bhvo

theorem linked_turns (linked : node.chain.Linked) (blocks : List BlockHeadVO) :
    (turns rt wallet node blocks).chain.Linked := by
  induction blocks using List.reverseRecOn with
  | nil => exact linked
  | append_singleton before bhvo ih =>
    rw [turns_concat]
    exact (saveBlockHead_heights ih bhvo).1

/-- The heights stay together through a run exactly when every turn meets its condition. -/
theorem tracks_turns_iff (linked : node.chain.Linked) (blocks : List BlockHeadVO) :
    (∀ before, before <+: blocks → (turns rt wallet node before).Tracks) ↔
      node.Tracks ∧ ∀ before bhvo, before ++ [bhvo] <+: blocks →
        KeepsTrack rt wallet (turns rt wallet node before) bhvo := by
  induction blocks using List.reverseRecOn with
  | nil => simp [turns]
  | append_singleton init last ih =>
    have states : (∀ before, before <+: init ++ [last] → (turns rt wallet node before).Tracks) ↔
        (turns rt wallet node (init ++ [last])).Tracks ∧
          ∀ before, before <+: init → (turns rt wallet node before).Tracks := by
      simp only [List.prefix_concat_iff, forall_eq_or_imp]
    have conditions : (∀ before bhvo, before ++ [bhvo] <+: init ++ [last] →
          KeepsTrack rt wallet (turns rt wallet node before) bhvo) ↔
        KeepsTrack rt wallet (turns rt wallet node init) last ∧
          ∀ before bhvo, before ++ [bhvo] <+: init → KeepsTrack rt wallet (turns rt wallet node before) bhvo := by
      constructor
      · intro all
        exact ⟨all init last (List.prefix_refl _),
          fun before bhvo cut => all before bhvo (cut.trans (List.prefix_append _ _))⟩
      · rintro ⟨here, earlier⟩ before bhvo cut
        rcases List.prefix_concat_iff.mp cut with whole | cut
        · obtain ⟨rfl, same⟩ := List.append_inj' whole rfl
          cases same
          exact here
        · exact earlier before bhvo cut
    rw [states, conditions, turns_concat]
    constructor
    · rintro ⟨last', earlier⟩
      obtain ⟨start, kept⟩ := ih.mp earlier
      exact ⟨start, (tracks_turn_iff (linked_turns linked init) (earlier init (List.prefix_refl _)) last).mp last',
        kept⟩
    · rintro ⟨start, here, kept⟩
      have earlier := ih.mpr ⟨start, kept⟩
      exact ⟨(tracks_turn_iff (linked_turns linked init) (earlier init (List.prefix_refl _)) last).mpr here, earlier⟩

end Run

/-! ## The heights after the load -/

/-- The last height when a block of the database is loaded next. -/
def extendLoaded (rt : Runtime) (db : Db) (last : Option UInt64) (bhash : Bytes) : Option UInt64 :=
  (loaded? rt db bhash).elim last fun block => Heights.extend last block.1.height

/-- The last height of the chain that the records of a database lead to: the first block, and the
successors it lists as far as each has the next height. -/
def loadedHeight (rt : Runtime) (db : Db) : Option UInt64 :=
  (db.find Config.keyBlockStart).bind fun headid =>
    (loaded? rt db headid.bytes).bind fun first =>
      first.1.nexts.foldl (extendLoaded rt db) (some first.1.height)

section Load

variable {rt : Runtime} {wallet : Wallet} {node : Node}

theorem loadBlockForDB_heights (linked : node.chain.Linked) {bhash : Bytes} {next : Node} {result : Result BlockHead}
    (ran : loadBlockForDB rt wallet node bhash = (next, result)) (returned : result ≠ .panic) :
    next.chain.Linked ∧ next.db = node.db ∧ next.chain.heights =
      { node.chain.heights with last := extendLoaded rt node.db node.chain.heights.last bhash } := by
  have db := @loadBlockForDB_db rt wallet node bhash
  rw [ran] at db
  rcases @loadBlockForDB_cases rt wallet node bhash with ⟨unread, same⟩ | ⟨bh, txs, read, turn⟩
  · rw [ran] at same
    subst same
    refine ⟨linked, rfl, ?_⟩
    rw [extendLoaded, unread]
    rfl
  · rw [ran] at turn
    split at turn
    · cases turn
      exact absurd rfl returned
    · next after added adds =>
      cases turn
      have adds := addBlock_eq_some_iff.mp adds
      refine ⟨adds.linked linked, db, ?_⟩
      rw [extendLoaded, read]
      exact adds.heights linked

/-- A load that fails has read no block, and one that succeeds has read the block it returns. -/
theorem loaded?_of_load {bhash : Bytes} {next : Node} {result : Result BlockHead}
    (ran : loadBlockForDB rt wallet node bhash = (next, result)) :
    (result = .error → loaded? rt node.db bhash = none) ∧
      ∀ bh, result = .ok bh → ∃ txs, loaded? rt node.db bhash = some (bh, txs) := by
  unfold loadBlockForDB at ran
  unfold loaded?
  split at ran
  · next missing =>
    cases ran
    simp [missing]
  · next head present =>
    split at ran
    · next unreadable =>
      cases ran
      simp [present, unreadable]
    · next hB read =>
      split at ran
      · next missing =>
        cases ran
        simp [present, read, missing]
      · next holes found =>
        split at ran
        · cases ran
          simp
        · next txs whole =>
          split at ran
          · cases ran
            simp
          · cases ran
            simp [present, read, found, whole]

theorem loadEach_heights {fuel : ℕ} {hashes : List Bytes} {next : Node} (linked : node.chain.Linked)
    (ran : loadEach (deepCycleLoadBlock rt wallet fuel) hashes node = some (next, .next)) :
    next.chain.Linked ∧ next.chain.heights =
      { node.chain.heights with last := hashes.foldl (extendLoaded rt node.db) node.chain.heights.last } := by
  induction hashes generalizing node with
  | nil =>
    cases ran
    exact ⟨linked, rfl⟩
  | cons one rest ih =>
    rw [loadEach] at ran
    split at ran
    · next middle first =>
      cases fuel with
      | zero => cases first
      | succ fuel =>
        rw [deepCycleLoadBlock_succ] at first
        split at first
        · cases first
        · next after result returned load =>
          cases first
          obtain ⟨linked', db, heights⟩ := loadBlockForDB_heights linked load returned
          obtain ⟨linked'', heights'⟩ := ih linked' ran
          refine ⟨linked'', ?_⟩
          rw [heights', heights, db, List.foldl_cons]
    · next other => exact absurd ran (other next)

/-- The load moves the last height alone, to the one that the database leads to. -/
theorem loadBlockChain_heights (fresh : node.chain.Fresh) {fuel : ℕ} {next : Node} {result : Result Unit}
    (ran : loadBlockChain rt wallet fuel node = some (next, result)) (returned : result ≠ .panic) :
    next.chain.Linked ∧ next.chain.heights = { node.chain.heights with last := loadedHeight rt node.db } := by
  have none : node.chain.heights.last = none := by
    rw [fresh.linked.last_heights, Chain.labels, fresh.blocks]
    rfl
  unfold loadBlockChain at ran
  unfold loadedHeight
  split at ran
  · next unrecorded =>
    cases ran
    rw [unrecorded, Option.bind_none, ← none]
    exact ⟨fresh.linked, rfl⟩
  · next headid recorded =>
    rw [recorded, Option.bind_some]
    split at ran
    · next load =>
      cases ran
      obtain ⟨linked, -, heights⟩ := loadBlockForDB_heights fresh.linked load (by simp)
      have unread := (loaded?_of_load load).1 rfl
      rw [extendLoaded, unread, none] at heights
      rw [unread]
      exact ⟨linked, heights⟩
    · cases ran
      exact absurd rfl returned
    · next first bh load =>
      obtain ⟨linked, db, heights⟩ := loadBlockForDB_heights fresh.linked load (by simp)
      obtain ⟨txs, read⟩ := (loaded?_of_load load).2 bh rfl
      have firstHeight : first.chain.heights.last = some bh.height := by
        rw [heights, extendLoaded, read, none]
        rfl
      rw [read, Option.bind_some]
      have linked' : Chain.Linked { first.chain with startingBlock := bh.height } :=
        ⟨linked.blocks, linked.groups, linked.group, linked.pieces, linked.nonempty, linked.owner⟩
      dsimp only at ran
      split at ran
      · cases ran
      · next loads =>
        cases ran
        obtain ⟨linked'', heights'⟩ := loadEach_heights linked' loads
        refine ⟨linked'', heights'.trans ?_⟩
        change { first.chain.heights with
          last := bh.nexts.foldl (extendLoaded rt first.db) first.chain.heights.last } = _
        rw [firstHeight, db, heights]
      · cases ran
        exact absurd rfl returned

end Load

/-- From the load on, `GetCurrentBlock` is the height of the last block and at most `HighestBlock`,
exactly when the loaded chain is empty or ends at height zero and every turn meets its condition. -/
theorem tracks_run_iff {rt : Runtime} {wallet : Wallet} {start loaded : Node} {fuel : ℕ} {result : Result Unit}
    (fresh : start.chain.Fresh) (unsynchronised : start.chain.currentBlock = 0)
    (ran : loadBlockChain rt wallet fuel start = some (loaded, result)) (returned : result ≠ .panic)
    (blocks : List BlockHeadVO) :
    (∀ before, before <+: blocks → (turns rt wallet loaded before).Tracks) ↔
      (loadedHeight rt start.db).getD 0 = 0 ∧
        ∀ before bhvo, before ++ [bhvo] <+: blocks → KeepsTrack rt wallet (turns rt wallet loaded before) bhvo := by
  obtain ⟨linked, heights⟩ := loadBlockChain_heights fresh ran returned
  have atLoad : loaded.Tracks ↔ (loadedHeight rt start.db).getD 0 = 0 := by
    have current : start.chain.heights.current = 0 := unsynchronised
    rw [Node.Tracks, heights]
    constructor
    · intro tracks
      rw [← tracks.current, current]
    · intro zero
      refine ⟨current.trans zero.symm, ?_⟩
      rw [current]
      exact UInt64.zero_le
  rw [tracks_turns_iff linked, atLoad]

/-! ## A stored chain -/

namespace Sample

theorem afterLoad_loaded : loadBlockChain runtime twoKeys 1 atStart = some (afterLoad, .ok ()) := by
  have fresh : atStart.chain.Fresh := ⟨rfl, rfl, rfl⟩
  have recorded : atStart.db.find Config.keyBlockStart = some (.raw [1]) := rfl
  rcases @loadBlockForDB_cases runtime twoKeys atStart [1] with ⟨unread, -⟩ | ⟨bh, txs, read, turn⟩
  · cases unread.symm.trans loaded?_genesis
  · cases read.symm.trans loaded?_genesis
    obtain ⟨⟨next, added⟩, ran⟩ := Option.isSome_iff_exists.mp
      ((@addBlock_isSome_iff runtime twoKeys atStart genesis [] fresh.linked).mpr ⟨rfl, List.forall_mem_nil _⟩)
    rw [ran] at turn
    simp only [loadBlockChain, recorded, Value.bytes, turn, afterLoad, handleChain]
    rfl

end Sample

/-- With a first block of height one in the database, nothing is synchronised after the load. -/
theorem current_behind_load : ∃ (start loaded : Node), start.chain.Fresh ∧ start.chain.currentBlock = 0 ∧
    loadBlockChain Sample.runtime Sample.twoKeys 1 start = some (loaded, .ok ()) ∧ ¬ loaded.Tracks := by
  have fresh : Sample.atStart.chain.Fresh := ⟨rfl, rfl, rfl⟩
  refine ⟨Sample.atStart, Sample.afterLoad, fresh, rfl, Sample.afterLoad_loaded, fun tracks => ?_⟩
  obtain ⟨-, heights⟩ := loadBlockChain_heights fresh Sample.afterLoad_loaded (by simp)
  have height : loadedHeight Sample.runtime Sample.atStart.db = some 1 := by
    have recorded : Sample.atStart.db.find Config.keyBlockStart = some (.raw [1]) := rfl
    rw [loadedHeight, recorded, Option.bind_some, Value.bytes, Sample.loaded?_genesis]
    rfl
  rw [Node.Tracks, heights, height] at tracks
  exact absurd tracks.current (by decide)

/-- The first block arrives at a node without a database. -/
theorem tracks_first_block : (turns Sample.runtime Sample.twoKeys {} []).Tracks ∧
    (turns Sample.runtime Sample.twoKeys {} [Sample.bare Sample.genesis]).Tracks := by
  have fresh : ({} : Node).chain.Fresh := ⟨rfl, rfl, rfl⟩
  have ran : loadBlockChain Sample.runtime Sample.twoKeys 0 {} = some ({}, .ok ()) := rfl
  have keeps : KeepsTrack Sample.runtime Sample.twoKeys {} (Sample.bare Sample.genesis) := by
    intro bh txs handed
    rw [handed?_save (show (Sample.bare Sample.genesis).bh = some Sample.genesis from rfl)] at handed
    split at handed
    · cases handed
      decide
    · cases handed
  have tracks := (tracks_run_iff fresh rfl ran (by simp) [Sample.bare Sample.genesis]).mpr ⟨rfl,
    fun before bhvo cut => by
    rcases List.prefix_concat_iff.mp
      (show before ++ [bhvo] <+: [] ++ [Sample.bare Sample.genesis] from cut) with same | cut
    · obtain ⟨rfl, same⟩ := List.append_inj' same rfl
      cases same
      exact keeps
    · simp at cut⟩
  exact ⟨tracks [] (List.nil_prefix ..), tracks _ (List.prefix_refl _)⟩

end PolarCloud.Mining
