import Mathlib.Data.Set.Finite.Lattice
import PolarCloud.Base.Walk
import PolarCloud.Proofs.Mining.Import

/-! # The walk of the synchronisation

The synchronisation follows the successors that the records list, and keeps no account of the blocks
it has processed. Every record that it meets is in the database or comes from a neighbour, so over
finitely many records it finishes, with no block processed twice, exactly when each block it meets
lists successors that are neither processed nor waiting, and none twice.
-/

namespace PolarCloud.Mining

/-! ## The lookups as visits -/

/-- A lookup as a visit: it lists the successors of the block that was found, none where it failed, and
a panic breaks the walk off. -/
def syncWalk (rt : Runtime) (neighbours : ℕ → Neighbour) : Walk SyncState Bytes where
  visit state bhash :=
    let (node, result) := syncBlockForDBAndNeighbor rt state.node (neighbours state.processed.length) bhash
    ({ node, processed := state.processed ++ [bhash] },
      match result with
      | .error => some []
      | .panic => none
      | .ok bh => some bh.nexts)
  log := SyncState.processed
  log_visit _ _ := rfl

/-- How a walk ends. -/
private def ending (stopped : SyncState × Bool) : SyncState × Exit :=
  (stopped.1, if stopped.2 then .next else .panic)

section Refine

variable {rt : Runtime} {neighbours : ℕ → Neighbour}

private theorem syncEach_eq {sync : SyncState → Bytes → Option (SyncState × Exit)}
    {go : SyncState → Bytes → Option (SyncState × Bool)}
    (same : ∀ state bhash, sync state bhash = (go state bhash).map ending)
    (hashes : List Bytes) (state : SyncState) :
    syncEach sync hashes state = (Walk.each go hashes state).map ending := by
  induction hashes generalizing state with
  | nil => rfl
  | cons one rest ih =>
    rw [syncEach, Walk.each, same]
    rcases go state one with _ | ⟨next, goesOn⟩
    · rfl
    · cases goesOn with
      | false => rfl
      | true => exact ih next

/-- The recursion of the source is the recursion of the walk. -/
theorem deepCycleSyncBlock_eq (fuel : ℕ) (state : SyncState) (bhash : Bytes) :
    deepCycleSyncBlock rt neighbours fuel state bhash = ((syncWalk rt neighbours).go fuel state bhash).map ending := by
  induction fuel generalizing state bhash with
  | zero => rfl
  | succ fuel ih =>
    simp only [deepCycleSyncBlock, Walk.go, syncWalk]
    rcases syncBlockForDBAndNeighbor rt state.node (neighbours state.processed.length) bhash with ⟨node, result⟩
    cases result with
    | error => rfl
    | panic => rfl
    | ok bh => exact syncEach_eq ih bh.nexts _

/-- The blocks are synchronised to the end exactly when the walk is not broken off. -/
theorem syncEach_next_iff {fuel : ℕ} {hashes : List Bytes} {state next : SyncState} :
    syncEach (deepCycleSyncBlock rt neighbours fuel) hashes state = some (next, .next) ↔
      Walk.each ((syncWalk rt neighbours).go fuel) hashes state = some (next, true) := by
  rw [syncEach_eq (deepCycleSyncBlock_eq fuel), Option.map_eq_some_iff]
  constructor
  · rintro ⟨⟨after, goesOn⟩, ran, same⟩
    cases goesOn with
    | false => cases same
    | true =>
      cases same
      exact ran
  · intro ran
    exact ⟨_, ran, rfl⟩

end Refine

/-! ## The hashes that records name -/

/-- Every successor that a record of the database lists is one of these hashes. -/
def Within (rt : Runtime) (hashes : Finset Bytes) (db : Db) : Prop :=
  ∀ key value bh, db.find key = some value → parseBlockHead rt value = some bh → ∀ next ∈ bh.nexts, next ∈ hashes

/-- A header that names one of these hashes as its own, and only these as successors. -/
def Names (hashes : Finset Bytes) (bh : BlockHead) : Prop := bh.hash ∈ hashes ∧ ∀ next ∈ bh.nexts, next ∈ hashes

/-- Finitely many records name finitely many hashes. -/
theorem exists_names (rt : Runtime) {records : Set Value} (finite : records.Finite) :
    ∃ hashes : Finset Bytes, ∀ value ∈ records, ∀ bh, parseBlockHead rt value = some bh → Names hashes bh := by
  let named (value : Value) : List Bytes := ((parseBlockHead rt value).map fun bh => bh.hash :: bh.nexts).getD []
  have all : (⋃ value ∈ records, {hash | hash ∈ named value}).Finite :=
    finite.biUnion fun value _ => List.finite_toSet (named value)
  refine ⟨all.toFinset, fun value member bh read => ?_⟩
  have inside (hash : Bytes) (listed : hash ∈ bh.hash :: bh.nexts) : hash ∈ all.toFinset := by
    rw [Set.Finite.mem_toFinset, Set.mem_iUnion₂]
    refine ⟨value, member, ?_⟩
    simpa only [named, read, Set.mem_ofPred_eq, Option.map_some, Option.getD_some] using listed
  exact ⟨inside _ List.mem_cons_self, fun next listed => inside next (List.mem_cons_of_mem _ listed)⟩

section Records

variable {rt : Runtime} {hashes : Finset Bytes} {db : Db}

theorem Within.save (within : Within rt hashes db) (key : Bytes) {value : Value}
    (new : ∀ bh, parseBlockHead rt value = some bh → ∀ next ∈ bh.nexts, next ∈ hashes) :
    Within rt hashes (db.save key value) := by
  intro other record bh present read
  rw [Db.find_save] at present
  split at present
  · cases present
    exact new bh read
  · exact within other record bh present read

theorem Within.save_tx (within : Within rt hashes db) (key : Bytes) (tx : TxItr) :
    Within rt hashes (db.save key tx.json) := by
  refine within.save key fun bh read => ?_
  rw [parseBlockHead_tx] at read
  cases read
  exact List.forall_mem_nil _

theorem Within.save_head (within : Within rt hashes db) (key : Bytes) {bh : BlockHead}
    (names : ∀ next ∈ bh.nexts, next ∈ hashes) : Within rt hashes (db.save key bh.json) := by
  refine within.save key fun other read => ?_
  rw [BlockHead.parse_json] at read
  cases read
  exact names

theorem Within.after_saveTxs (within : Within rt hashes db) (skip : Bool) (txs : List TxItr) :
    Within rt hashes (saveTxs rt skip txs db).1 :=
  saveTxs_keeps skip txs (P := Within rt hashes) (fun _ _ _ within => within.save_tx _ _)
    (fun _ _ _ _ _ _ _ _ within _ _ _ => within.save_tx _ _) within

theorem importBlock_within {node : Node} (within : Within rt hashes node.db) {bh : BlockHead} (names : Names hashes bh)
    (txs : List TxItr) : Within rt hashes (importBlock rt node bh txs).1.db ∧
      ∀ other, (importBlock rt node bh txs).2 = .ok other → other = bh := by
  have saved := within.after_saveTxs false txs
  unfold importBlock
  split
  · next db ran =>
    rw [ran] at saved
    dsimp only
    split
    · split
      · next next amended =>
        obtain ⟨value, parent, present, read, rfl⟩ := amendParent_saved amended
        have parentNames : ∀ next ∈ (parent.addNext bh.hash?).nexts, next ∈ hashes := by
          rw [BlockHead.nexts_addNext]
          intro next listed
          rcases List.mem_append.mp listed with before | new
          · exact saved _ value parent present read next before
          · exact List.mem_singleton.mp new ▸ names.1
        exact ⟨(saved.save_head _ parentNames).save_head _ names.2, fun other same => by cases same; rfl⟩
      · exact ⟨saved, fun other same => by cases same⟩
    · exact ⟨saved.save_head _ names.2, fun other same => by cases same; rfl⟩
  · next db ran =>
    rw [ran] at saved
    exact ⟨saved, fun other same => by cases same⟩
  · next db ran =>
    rw [ran] at saved
    exact ⟨saved, fun other same => by cases same⟩

/-- A lookup keeps the database within the hashes, and finds successors within them. -/
theorem sync_within {node : Node} (within : Within rt hashes node.db) {neighbour : Neighbour} {records : Set Value}
    (named : ∀ value ∈ records, ∀ bh, parseBlockHead rt value = some bh → Names hashes bh)
    (drawn : ∀ request key value, neighbour request key = some value → value ∈ records) (bhash : Bytes) :
    Within rt hashes (syncBlockForDBAndNeighbor rt node neighbour bhash).1.db ∧
      ∀ bh, (syncBlockForDBAndNeighbor rt node neighbour bhash).2 = .ok bh → ∀ next ∈ bh.nexts, next ∈ hashes := by
  unfold syncBlockForDBAndNeighbor
  split
  · next found lookup =>
    obtain ⟨value, present, read⟩ := Option.bind_eq_some_iff.mp lookup
    refine ⟨within, fun bh same => ?_⟩
    cases same
    exact within bhash value found present read
  · split
    · exact ⟨within, fun bh same => by cases same⟩
    · exact ⟨within, fun bh same => by cases same⟩
    · next bh txs answered =>
      obtain ⟨value, answer, read⟩ : ∃ value, neighbour 0 bhash = some value ∧ parseBlockHead rt value = some bh := by
        unfold findBlockForNeighbor at answered
        split at answered
        · cases answered
        · next value answer =>
          split at answered
          · cases answered
          · next other read =>
            split at answered
            · cases answered
              exact ⟨value, answer, read⟩
            · cases answered
            · cases answered
      have names := named value (drawn 0 bhash value answer) bh read
      obtain ⟨within', same⟩ := importBlock_within within names txs
      exact ⟨within', fun other found => same other found ▸ names.2⟩

/-- The first part panics exactly without an answer, keeps the database within the hashes, and leads to
successors within them. -/
theorem overwriteLast_within {node : Node} (within : Within rt hashes node.db) {neighbour : Neighbour}
    {records : Set Value} (named : ∀ value ∈ records, ∀ bh, parseBlockHead rt value = some bh → Names hashes bh)
    (drawn : ∀ request key value, neighbour request key = some value → value ∈ records) {start : Option Bytes}
    {bhash : Bytes} (key : refreshKey node start = some bhash) :
    ((overwriteLast rt node start neighbour).2 = .panic ↔ neighbour 0 bhash = none) ∧
      Within rt hashes (overwriteLast rt node start neighbour).1.db ∧
        ∀ nexts, (overwriteLast rt node start neighbour).2 = .ok nexts → ∀ next ∈ nexts, next ∈ hashes := by
  unfold overwriteLast
  rw [key]
  dsimp only
  split
  · next answer => exact ⟨iff_of_true rfl answer, within, fun nexts same => by cases same⟩
  · next value answer =>
    split
    · exact ⟨by simp [answer], within, fun nexts same => by cases same⟩
    · next bh read =>
      have names := (named value (drawn 0 bhash value answer) bh read).2
      split
      · refine ⟨by simp [answer], within, fun nexts same => ?_⟩
        cases same
        exact List.forall_mem_nil _
      · next nexts listed =>
        refine ⟨by simp [answer], within.save_head _ names, fun others same => ?_⟩
        cases same
        rwa [BlockHead.nexts, listed] at names

/-- Over finitely many records all of them, stored or answered, name hashes of one finite set. -/
theorem exists_within (rt : Runtime) {db : Db} {records : Set Value} (stored : {key | (db.find key).isSome}.Finite)
    (finite : records.Finite) : ∃ hashes : Finset Bytes, Within rt hashes db ∧
      ∀ value ∈ records, ∀ bh, parseBlockHead rt value = some bh → Names hashes bh := by
  have all : ({value | ∃ key, db.find key = some value} ∪ records).Finite := by
    refine Set.Finite.union ?_ finite
    refine (stored.image fun key => (db.find key).getD (.raw [])).subset ?_
    rintro value ⟨key, present⟩
    exact ⟨key, by simp [present], by simp [present]⟩
  obtain ⟨hashes, named⟩ := exists_names rt all
  exact ⟨hashes, fun key value bh present read => (named value (.inl ⟨key, present⟩) bh read).2,
    fun value member => named value (.inr member)⟩

/-- The walk lists hashes of the set only, when the answers name no others. -/
theorem syncWalk_confined {neighbours : ℕ → Neighbour} {records : Set Value}
    (named : ∀ value ∈ records, ∀ bh, parseBlockHead rt value = some bh → Names hashes bh)
    (drawn : ∀ call request key value, neighbours call request key = some value → value ∈ records) :
    (syncWalk rt neighbours).Confined hashes fun state => Within rt hashes state.node.db := by
  constructor
  intro state key next listed within visited
  obtain ⟨within', names⟩ := sync_within within named (drawn state.processed.length) key
  rcases found : syncBlockForDBAndNeighbor rt state.node (neighbours state.processed.length) key with ⟨after, result⟩
  rw [found] at within' names
  simp only [syncWalk, found] at visited
  cases result with
  | error =>
    cases visited
    exact ⟨within', List.forall_mem_nil _⟩
  | panic => cases visited
  | ok bh =>
    cases visited
    exact ⟨within', names bh rfl⟩

end Records

/-! ## One visit for each block -/

section Walk

variable (rt : Runtime) (neighbours : ℕ → Neighbour)

/-- The next block that waits is looked up without a panic, and lists successors that are neither
processed nor waiting, and none twice. -/
def FreshSuccessors (state : SyncState) (waiting : List Bytes) : Prop :=
  ∀ bhash rest, waiting = bhash :: rest →
    let result := (syncBlockForDBAndNeighbor rt state.node (neighbours state.processed.length) bhash).2
    result ≠ .panic ∧ ∀ bh, result = .ok bh →
      bh.nexts.Nodup ∧ ∀ next ∈ bh.nexts, next ∉ state.processed ∧ next ∉ waiting

/-- The synchronisation returns, and has processed no block twice. -/
def SyncsOnce (node : Node) (start : Option Bytes) : Prop :=
  ∃ fuel state result, syncBlockHead rt neighbours fuel node start = some (state, result) ∧ result ≠ .panic ∧
    state.processed.Nodup

/-- A neighbour answers for the block it starts from, and all blocks that are met list fresh successors. -/
structure ListsFresh (node : Node) (start : Option Bytes) : Prop where
  answered : ∀ bhash, refreshKey node start = some bhash → (neighbours 0 0 bhash).isSome
  fresh : ∀ bhash nexts, refreshKey node start = some bhash →
    (overwriteLast rt node start (neighbours 0)).2 = .ok nexts → (bhash :: nexts).Nodup ∧
      ∀ later, Relation.ReflTransGen (syncWalk rt neighbours).Step
        ({ node := (overwriteLast rt node start (neighbours 0)).1, processed := [bhash] }, nexts) later →
          FreshSuccessors rt neighbours later.1 later.2

variable {rt neighbours}

theorem fresh_iff {state : SyncState} {waiting : List Bytes} :
    (syncWalk rt neighbours).Fresh state waiting ↔ FreshSuccessors rt neighbours state waiting := by
  refine forall₃_congr fun bhash rest waits => ?_
  simp only [syncWalk]
  rcases syncBlockForDBAndNeighbor rt state.node (neighbours state.processed.length) bhash with ⟨node, result⟩
  cases result with
  | error => simp
  | panic => simp
  | ok bh => simp

section Opened

variable {node opened : Node} {start : Option Bytes} {bhash : Bytes} {nexts : List Bytes}

/-- After the first part the synchronisation is the walk over the successors that were listed. -/
theorem syncsOnce_iff_walk (key : refreshKey node start = some bhash)
    (first : overwriteLast rt node start (neighbours 0) = (opened, .ok nexts)) :
    SyncsOnce rt neighbours node start ↔ ∃ fuel next,
      Walk.each ((syncWalk rt neighbours).go fuel) nexts { node := opened, processed := [bhash] } = some (next, true) ∧
        next.processed.Nodup := by
  constructor
  · rintro ⟨fuel, state, result, ran, returned, nodup⟩
    simp only [syncBlockHead, key, first] at ran
    split at ran
    · cases ran
    · next ended =>
      cases ran
      exact ⟨fuel, state, syncEach_next_iff.mp ended, nodup⟩
    · cases ran
      exact absurd rfl returned
  · rintro ⟨fuel, next, ran, nodup⟩
    refine ⟨fuel, next, .ok (), ?_, by simp, nodup⟩
    simp only [syncBlockHead, key, first, syncEach_next_iff.mpr ran]

/-- After a first part that was answered the condition is the one on walks. -/
theorem listsFresh_iff_walk (key : refreshKey node start = some bhash) (answered : (neighbours 0 0 bhash).isSome)
    (first : overwriteLast rt node start (neighbours 0) = (opened, .ok nexts)) :
    ListsFresh rt neighbours node start ↔ (bhash :: nexts).Nodup ∧
      ∀ later, Relation.ReflTransGen (syncWalk rt neighbours).Step ({ node := opened, processed := [bhash] },
        nexts) later →
        (syncWalk rt neighbours).Fresh later.1 later.2 := by
  simp only [fresh_iff]
  constructor
  · intro lists
    have fresh := lists.fresh bhash nexts key (by rw [first])
    rwa [first] at fresh
  · intro fresh
    refine ⟨fun other some => ?_, fun other nexts' some same => ?_⟩
    · cases key.symm.trans some
      exact answered
    · cases key.symm.trans some
      rw [first] at same ⊢
      cases same
      exact fresh

end Opened

end Walk

/-- Over finitely many records the synchronisation returns, with no block processed twice, exactly when
all blocks that are met list fresh successors. -/
theorem syncBlockHead_once_iff {rt : Runtime} {neighbours : ℕ → Neighbour} {node : Node} {start : Option Bytes}
    {records : Set Value} (stored : {key | (node.db.find key).isSome}.Finite) (finite : records.Finite)
    (drawn : ∀ call request key value, neighbours call request key = some value → value ∈ records) :
    SyncsOnce rt neighbours node start ↔ ListsFresh rt neighbours node start := by
  obtain ⟨hashes, within, named⟩ := exists_within rt stored finite
  cases key : refreshKey node start with
  | none =>
    refine iff_of_true ⟨0, { node }, .error, ?_, by simp, List.nodup_nil⟩ ⟨?_, ?_⟩
    · rw [syncBlockHead, key]
    · intro bhash some
      cases key.symm.trans some
    · intro bhash nexts some
      cases key.symm.trans some
  | some bhash =>
    obtain ⟨panics, within', inside⟩ := overwriteLast_within within named (drawn 0) key
    rcases first : overwriteLast rt node start (neighbours 0) with ⟨opened, result⟩
    rw [first] at panics within' inside
    have answered (goesOn : result ≠ .panic) : (neighbours 0 0 bhash).isSome :=
      Option.isSome_iff_ne_none.mpr fun none => goesOn (panics.mpr none)
    cases result with
    | error =>
      refine iff_of_true ⟨0, _, .error,
        by rw [syncBlockHead, key]; simp only [first]; rfl, by simp, List.nodup_singleton _⟩
        ⟨fun other some => ?_, fun other nexts _ same => ?_⟩
      · cases key.symm.trans some
        exact answered (by simp)
      · rw [first] at same
        cases same
    | panic =>
      refine iff_of_false ?_ fun lists => ?_
      · rintro ⟨fuel, state, result, ran, returned, -⟩
        simp only [syncBlockHead, key, first] at ran
        cases ran
        exact returned rfl
      · have some := lists.answered bhash key
        rw [panics.mp rfl] at some
        cases some
    | ok nexts =>
      rw [syncsOnce_iff_walk key first, listsFresh_iff_walk key (answered (by simp)) first]
      exact Walk.each_finishes_once_iff (syncWalk_confined named drawn) within' (inside nexts rfl)

/-! ## Records that lead back -/

namespace Sample

/-- A header that lists itself, one that lists another one twice, and that other one. -/
def looping : BlockHead := { hash? := some [1], height := 1, nextblockhash? := some [some [1]] }

def repeating : BlockHead := { hash? := some [1], height := 1, nextblockhash? := some [some [2], some [2]] }

def repeated : BlockHead := { hash? := some [2], height := 2, previousblockhash? := some [1] }

def answersLooping : ℕ → Neighbour := fun _ _ _ => some looping.json

def answersRepeating : ℕ → Neighbour := fun _ _ key => if key = [1] then some repeating.json else some repeated.json

theorem looping_never_ends (fuel : ℕ) (state : SyncState) (stored : Stored state.node.db [1] looping) :
    deepCycleSyncBlock runtime answersLooping fuel state [1] = none := by
  induction fuel generalizing state with
  | zero => rfl
  | succ fuel ih =>
    have found : (state.node.db.find [1]).bind (parseBlockHead runtime) = some looping := by
      rw [show state.node.db.find [1] = some looping.json from stored, Option.bind_some, BlockHead.parse_json]
    simp only [deepCycleSyncBlock, syncBlockForDBAndNeighbor, found]
    have again := ih { state with processed := state.processed ++ [[1]] } stored
    simp only [looping, BlockHead.nexts, BlockHead.nextblockhash, contents, Option.map_some, List.map_cons, List.map_nil,
      Option.getD_some, syncEach] at again ⊢
    rw [again]

end Sample

/-- With a record that lists itself the synchronisation never ends, and with one that lists a block
twice it processes that block twice. -/
theorem sync_loops_and_repeats :
    (∀ fuel, syncBlockHead Sample.runtime Sample.answersLooping fuel {} (some [1]) = none) ∧
      (syncBlockHead Sample.runtime Sample.answersRepeating 1 {} (some [1])).map (fun ended => ended.1.processed) =
        some [[1], [2], [2]] := by
  constructor
  · intro fuel
    let opened : Node := { db := Db.save .empty [1] Sample.looping.json }
    have first : overwriteLast Sample.runtime {} (some [1]) (Sample.answersLooping 0) = (opened, .ok [[1]]) := rfl
    have stored : Stored opened.db [1] Sample.looping := Db.find_save_self _ _ _
    have never := Sample.looping_never_ends fuel { node := opened, processed := [[1]] } stored
    have key : refreshKey {} (some [1]) = some [1] := rfl
    simp only [syncBlockHead, key, first, syncEach, never]
  · rfl

namespace Sample

/-- A first block that lists a second one, which lists a third one. -/
def foremost : BlockHead := { hash? := some [1], height := 1, nextblockhash? := some [some [2]] }

def between : BlockHead := { hash? := some [2], height := 2, previousblockhash? := some [1], nextblockhash? := some [some [3]] }

def rearmost : BlockHead := { hash? := some [3], height := 3, previousblockhash? := some [2] }

def answersRow : ℕ → Neighbour := fun _ _ key =>
  if key = [1] then some foremost.json else if key = [2] then some between.json else some rearmost.json

theorem drawn_row (call request : ℕ) (key : Bytes) (value : Value)
    (answer : answersRow call request key = some value) :
    value ∈ ({foremost.json, between.json, rearmost.json} : Set Value) := by
  unfold answersRow at answer
  split_ifs at answer
  · exact .inl (Option.some.inj answer).symm
  · exact .inr (.inl (Option.some.inj answer).symm)
  · exact .inr (.inr (Option.some.inj answer).symm)

end Sample

/-- A walk over two blocks behind the first one. -/
theorem two_blocks_synchronised : SyncsOnce Sample.runtime Sample.answersRow {} (some [1]) := by
  have stored : {key | (({} : Node).db.find key).isSome}.Finite :=
    Set.finite_empty.subset fun key present => by cases present
  apply (syncBlockHead_once_iff stored (Set.toFinite _) Sample.drawn_row).mpr
  let opened : Node := { db := Db.save .empty [1] Sample.foremost.json }
  have first : overwriteLast Sample.runtime {} (some [1]) (Sample.answersRow 0) = (opened, .ok [[2]]) := rfl
  apply (listsFresh_iff_walk rfl rfl first).mpr
  refine ⟨by decide, ?_⟩
  let walk := syncWalk Sample.runtime Sample.answersRow
  let start : SyncState := { node := opened, processed := [[1]] }
  let one := (walk.visit start [2]).1
  have visitOne : walk.visit start [2] = (one, some [[3]]) := rfl
  have visitTwo : walk.visit one [3] = ((walk.visit one [3]).1, some []) := rfl
  intro later run
  rcases Relation.ReflTransGen.cases_head run with rfl | ⟨middle, step, run⟩
  · intro key rest waits
    cases waits
    exact ⟨one, _, visitOne, by decide, by decide⟩
  · cases Walk.step_rightUnique step (.visit [] visitOne)
    rcases Relation.ReflTransGen.cases_head run with rfl | ⟨last, step, run⟩
    · intro key rest waits
      cases waits
      exact ⟨_, _, visitTwo, List.nodup_nil, List.forall_mem_nil _⟩
    · cases Walk.step_rightUnique step (.visit [] visitTwo)
      rcases Relation.ReflTransGen.cases_head run with rfl | ⟨more, step, -⟩
      · intro key rest waits
        cases waits
      · cases step

end PolarCloud.Mining
