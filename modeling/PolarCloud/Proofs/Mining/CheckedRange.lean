import PolarCloud.Base.Follow
import PolarCloud.Model.Mining.Load
import PolarCloud.Proofs.Mining.Identity

/-! # The range that the check reports

The check follows the first successors of the start block. It sets both ends of the range at every
block, does not compare a block with the one before it, and takes the first of the successors even where
there are none. So it reports the range exactly when the walk ends, not at such a block, and everything it
could report has the height of the start block.
-/

namespace PolarCloud.Mining

open Follow

section Range

variable (rt : Runtime) (db : Db)

/-- The block under the start key, where there is one. -/
def startBlock : Option BlockHead := do
  let headid ← db.find Config.keyBlockStart
  let head ← db.find headid.bytes
  parseBlockHead rt head

/-- The first successor of a block, where it is found, can be read, and passes its check. -/
def successor (hB : BlockHead) : Option BlockHead := do
  let next ← hB.nexts.head?
  let head ← db.find next
  let hB ← parseBlockHead rt head
  if hB.check rt then some hB else none

/-- The first successor, where it also names the block as its parent. -/
def linkedSuccessor (hB : BlockHead) : Option BlockHead :=
  (successor rt db hB).filter fun next => next.previousblockhash = hB.hash

variable (node : Node)

/-- A range is returned, by any number of turns from some number on. -/
def ReturnsRange (range : UInt64 × UInt64) : Prop :=
  ∃ enough, ∀ fuel, enough ≤ fuel → ∃ node', checkBlockDB rt fuel node = some (node', .ok range)

/-- The range of the stored blocks is reported: nothing without a start block, and otherwise what lies between it and
the last block that can be reached over links in both directions. -/
def ReportsRange : Prop :=
  match startBlock rt node.db with
  | none => ReturnsRange rt node (0, 0)
  | some first => ∃ last, Ends (linkedSuccessor rt node.db) first last ∧
    ReturnsRange rt node (first.height, last.height)

end Range

section Walk

variable {rt : Runtime} {db : Db} {node : Node} {hB first : BlockHead}

/-- A turn of the loop. -/
theorem checkBlocks_succ (fuel : ℕ) (range : UInt64 × UInt64) : checkBlocks rt db (fuel + 1) hB range =
    (successor rt db hB).elim (some (range, if hB.nextblockhash = some [] then .panic else .stop))
      fun next => checkBlocks rt db fuel next (next.height, next.height) := by
  rw [checkBlocks, successor, BlockHead.nexts]
  cases hB.nextblockhash with
  | none => rfl
  | some hashes =>
    cases hashes with
    | nil => rfl
    | cons next rest =>
      simp only [Option.getD_some, List.head?_cons, Option.bind_eq_bind, Option.bind_some]
      cases db.find next with
      | none => rfl
      | some head =>
        dsimp only [Option.bind_some]
        cases parseBlockHead rt head with
        | none => rfl
        | some next =>
          dsimp only [Option.bind_some]
          cases next.check rt <;> rfl

/-- The loop reports the height of the block at which the successors end. -/
theorem checkBlocks_eq (fuel : ℕ) (hB : BlockHead) : checkBlocks rt db fuel hB (hB.height, hB.height) =
    (follow (successor rt db) fuel hB).map fun last =>
      ((last.height, last.height), if last.nextblockhash = some [] then .panic else .stop) := by
  induction fuel generalizing hB with
  | zero => rfl
  | succ fuel ih =>
    rw [checkBlocks_succ, follow]
    cases successor rt db hB with
    | none => rfl
    | some next => exact ih next

theorem checkRange_eq (fuel : ℕ) : checkRange rt db fuel =
    (startBlock rt db).elim (some ((0, 0), .stop)) fun first =>
      checkBlocks rt db fuel first (first.height, first.height) := by
  rw [checkRange, startBlock]
  cases db.find Config.keyBlockStart with
  | none => rfl
  | some headid =>
    dsimp only [Option.bind_eq_bind, Option.bind_some]
    cases db.find headid.bytes with
    | none => rfl
    | some head =>
      dsimp only [Option.bind_some]
      cases parseBlockHead rt head with
      | none => rfl
      | some first => rfl

theorem checkBlockDB_eq_ok {fuel : ℕ} {range : UInt64 × UInt64} :
    (∃ node', checkBlockDB rt fuel node = some (node', .ok range)) ↔
      ∃ exit, checkRange rt node.db fuel = some (range, exit) ∧ exit ≠ .panic := by
  rw [checkBlockDB]
  cases checkRange rt node.db fuel with
  | none => simp
  | some reported =>
    obtain ⟨found, exit⟩ := reported
    by_cases panics : exit = .panic
    · simp [panics]
    · simp [panics]

/-- Without a start block the check reports nothing. -/
theorem returnsRange_of_none (none : startBlock rt node.db = none) : ReturnsRange rt node (0, 0) := by
  refine ⟨0, fun fuel _ => checkBlockDB_eq_ok.mpr ⟨.stop, ?_, by simp⟩⟩
  rw [checkRange_eq, none]
  rfl

/-- From a start block the check reports the height of the last block twice. -/
theorem returnsRange_iff (present : startBlock rt node.db = some first) {range : UInt64 × UInt64} :
    ReturnsRange rt node range ↔ ∃ last, Ends (successor rt node.db) first last ∧
      last.nextblockhash ≠ some [] ∧ range = (last.height, last.height) := by
  have reported (fuel : ℕ) : checkRange rt node.db fuel = (follow (successor rt node.db) fuel first).map fun last =>
      ((last.height, last.height), if last.nextblockhash = some [] then .panic else .stop) := by
    rw [checkRange_eq, present]
    exact checkBlocks_eq fuel first
  constructor
  · rintro ⟨enough, returned⟩
    obtain ⟨exit, found, regular⟩ := checkBlockDB_eq_ok.mp (returned enough le_rfl)
    rw [reported] at found
    obtain ⟨last, followed, same⟩ := Option.map_eq_some_iff.mp found
    cases same
    exact ⟨last, ends_of_follow followed, fun empty => regular (if_pos empty), rfl⟩
  · rintro ⟨last, ends, regular, rfl⟩
    obtain ⟨enough, followed⟩ := follow_of_ends ends
    refine ⟨enough, fun fuel more => checkBlockDB_eq_ok.mpr ⟨.stop, ?_, by simp⟩⟩
    rw [reported, followed fuel more, Option.map_some, if_neg regular]

theorem successor_of_linked (hB next : BlockHead) (linked : linkedSuccessor rt db hB = some next) :
    successor rt db hB = some next := by
  rw [linkedSuccessor, Option.filter_eq_some_iff] at linked
  exact linked.1

/-- The check reports the stored range exactly when there is no start block, or when its successors come to an end, at a
block that has no empty list of successors, and both this block and the last one before a missing link back have the
height of the start block. -/
theorem reportsRange_iff (rt : Runtime) (node : Node) : ReportsRange rt node ↔
    ∀ first, startBlock rt node.db = some first → ∃ last, Ends (successor rt node.db) first last ∧
      last.nextblockhash ≠ some [] ∧ last.height = first.height ∧
      ∀ back, Ends (linkedSuccessor rt node.db) first back → back.height = first.height := by
  unfold ReportsRange
  cases present : startBlock rt node.db with
  | none => exact iff_of_true (returnsRange_of_none present) fun first isFirst => by cases isFirst
  | some first =>
    constructor
    · rintro ⟨back, linked, returned⟩ first' isFirst
      cases isFirst
      obtain ⟨last, ends, regular, range⟩ := (returnsRange_iff present).mp returned
      obtain ⟨start, stop⟩ := Prod.mk.inj range
      refine ⟨last, ends, regular, start.symm, fun back' linked' => ?_⟩
      rw [linked'.unique linked, stop, start]
    · intro condition
      obtain ⟨last, ends, regular, height, links⟩ := condition first rfl
      obtain ⟨back, linked⟩ := ends.part successor_of_linked
      refine ⟨back, linked, (returnsRange_iff present).mpr ⟨last, ends, regular, ?_⟩⟩
      rw [height, links back linked]

/-- A start block with a last successor of another height. -/
theorem not_reportsRange {next : BlockHead} (present : startBlock rt node.db = some first)
    (step : successor rt node.db first = some next) (ended : successor rt node.db next = none)
    (other : next.height ≠ first.height) : ¬ ReportsRange rt node := by
  unfold ReportsRange
  rw [present]
  rintro ⟨last, -, returned⟩
  obtain ⟨last', ends, -, range⟩ := (returnsRange_iff present).mp returned
  rw [ends.unique (.step step (.here ended))] at range
  exact other (Prod.mk.inj range).1.symm

end Walk

namespace TwoStored

section Blocks

variable {rt : Runtime} {lower upper : BlockHead}

/-- A database of two blocks that are linked in both directions. -/
def stored (lower upper : BlockHead) : Node where
  db := ((Db.save .empty Config.keyBlockStart (.raw lower.hash)).save lower.hash (lower.addNext upper.hash?).json).save
    upper.hash upper.json

theorem startBlock_stored (differ : lower.hash ≠ upper.hash) (fromLower : Config.keyBlockStart ≠ lower.hash)
    (fromUpper : Config.keyBlockStart ≠ upper.hash) :
    startBlock rt (stored lower upper).db = some (lower.addNext upper.hash?) := by
  rw [startBlock, stored, Db.find_save_ne _ _ fromUpper, Db.find_save_ne _ _ fromLower, Db.find_save_self]
  dsimp only [Option.bind_eq_bind, Option.bind_some, Value.bytes]
  rw [Db.find_save_ne _ _ differ, Db.find_save_self, Option.bind_some, BlockHead.parse_json]

theorem successor_stored (fresh : lower.nextblockhash = none) (checked : upper.check rt = true) :
    successor rt (stored lower upper).db (lower.addNext upper.hash?) = some upper := by
  have next : (lower.addNext upper.hash?).nexts.head? = some upper.hash := by
    rw [BlockHead.nexts_addNext, BlockHead.nexts, fresh]
    rfl
  rw [successor, next, stored]
  dsimp only [Option.bind_eq_bind, Option.bind_some]
  rw [Db.find_save_self, Option.bind_some, BlockHead.parse_json, Option.bind_some, if_pos checked]

theorem successor_eq_none {db : Db} (fresh : upper.nextblockhash = none) : successor rt db upper = none := by
  rw [successor, BlockHead.nexts, fresh]
  rfl

end Blocks

/-- A block without transactions: their list and the Merkle root are made, and empty. -/
def lower : BlockHead := ({ height := 1, merkleRoot? := some [], tx? := some [] } : BlockHead).buildHash Sample.plain

def upper : BlockHead :=
  ({ height := 2, previousblockhash? := lower.hash?, merkleRoot? := some [], tx? := some [] } : BlockHead).buildHash
    Sample.plain

theorem keys_differ : lower.hash ≠ upper.hash ∧ Config.keyBlockStart ≠ lower.hash ∧
    Config.keyBlockStart ≠ upper.hash := by
  decide +kernel

end TwoStored

/-- The check of two linked blocks reports the upper one as the start. -/
theorem start_overwritten : ¬ ReportsRange Sample.plain (TwoStored.stored TwoStored.lower TwoStored.upper) := by
  obtain ⟨differ, fromLower, fromUpper⟩ := TwoStored.keys_differ
  have other : TwoStored.upper.height ≠ (TwoStored.lower.addNext TwoStored.upper.hash?).height := by
    change (2 : UInt64) ≠ 1
    decide
  exact not_reportsRange (TwoStored.startBlock_stored differ fromLower fromUpper)
    (TwoStored.successor_stored rfl (BlockHead.check_buildHash Sample.plain _)) (TwoStored.successor_eq_none rfl) other

end PolarCloud.Mining
