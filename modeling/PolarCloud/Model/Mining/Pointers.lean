import PolarCloud.Model.Mining.Witness

/-! # The pointers of the witness chain

Witnesses and groups are cells of two arenas that refer to each other by position. A group lists
references to its witnesses, and each of them refers to the group.
-/

namespace PolarCloud.Mining.Pointers

structure Witness where
  group : Option ℕ := none
  preWitness : Option ℕ := none
  nextWitness : Option ℕ := none
  /-- what does not refer to other cells -/
  own : Mining.Witness
deriving DecidableEq, Repr

structure WitnessGroup where
  preGroup : Option ℕ := none
  nextGroup : Option ℕ := none
  height : UInt64
  witness : List ℕ
deriving DecidableEq, Repr

structure WitnessChain where
  witnesses : List Witness := []
  groups : List WitnessGroup := []
  /-- the group built last -/
  group : Option ℕ := none
  lastWitness : Option ℕ := none
deriving DecidableEq, Repr

/-- A witness is linked behind another one. -/
def Witness.linkNext (next : ℕ) (witness : Witness) : Witness := { witness with nextWitness := some next }

def Witness.setGroup (group : ℕ) (witness : Witness) : Witness := { witness with group := some group }

def WitnessGroup.linkNext (next : ℕ) (group : WitnessGroup) : WitnessGroup := { group with nextGroup := some next }

@[simp] theorem Witness.own_linkNext (next : ℕ) (witness : Witness) : (witness.linkNext next).own = witness.own := rfl

@[simp] theorem Witness.group_linkNext (next : ℕ) (witness : Witness) :
    (witness.linkNext next).group = witness.group := rfl

@[simp] theorem Witness.own_setGroup (group : ℕ) (witness : Witness) : (witness.setGroup group).own = witness.own := rfl

@[simp] theorem WitnessGroup.witness_linkNext (next : ℕ) (group : WitnessGroup) :
    (group.linkNext next).witness = group.witness := rfl

@[simp] theorem WitnessGroup.height_linkNext (next : ℕ) (group : WitnessGroup) :
    (group.linkNext next).height = group.height := rfl

namespace WitnessChain

/-- Add a new witness, which is not linked yet. -/
def addWitness (this : WitnessChain) (newwitness : Mining.Witness) : WitnessChain :=
  let new := this.witnesses.length
  match this.lastWitness with
  | none => { this with witnesses := this.witnesses ++ [{ own := newwitness }], lastWitness := some new }
  | some last =>
      { this with
        witnesses := this.witnesses.modify last (.linkNext new) ++ [{ preWitness := some last, own := newwitness }]
        lastWitness := some new }

/-- At most so many witnesses from one on. -/
def collect (witnesses : List Witness) : ℕ → ℕ → List ℕ
  | 0, _ => []
  | count + 1, start =>
      match witnesses[start]?.bind Witness.nextWitness with
      | none => [start]
      | some next => start :: collect witnesses count next

/-- `int(n)` as the bound of a loop: it is negative from 2^63 on. -/
def int (n : UInt64) : ℕ := n.toInt64.toInt.toNat

/-- The witnesses of a new group refer to it. -/
def setGroups (group : ℕ) (witness : List ℕ) (witnesses : List Witness) : List Witness :=
  witness.foldl (fun witnesses ref => witnesses.modify ref (.setGroup group)) witnesses

/-- The witnesses from `start` on become a new group behind the last one, if there are enough of them. -/
def newGroup (this : WitnessChain) (n height : UInt64) (start : ℕ) : Option (WitnessChain × Bool) :=
  let witness := collect this.witnesses (int n) start
  if witness.length < int n then some (this, false)
  else
    let new := this.groups.length
    let witnesses := setGroups new witness this.witnesses
    match this.group with
    | none => some ({ this with witnesses, groups := this.groups ++ [{ height, witness }], group := some new }, true)
    | some group => do
        let last ← Arena.lastRef WitnessGroup.nextGroup this.groups this.groups.length group
        let groups := this.groups.modify last (.linkNext new) ++ [{ preGroup := some last, height, witness }]
        let group ← groups[group]?
        some ({ this with witnesses, groups, group := group.nextGroup }, true)

/-- The given height, or the one behind that of the last group. -/
def groupHeight (this : WitnessChain) (group : ℕ) (height : UInt64) : Option UInt64 :=
  if height ≠ 0 then some height
  else do
    let last ← Arena.lastRef WitnessGroup.nextGroup this.groups this.groups.length group
    let last ← this.groups[last]?
    some (last.height + 1)

/-- Build a group of the next `n` witnesses, whose height is the next one when none is given. Nothing is
returned after a panic: no witness at all, or a current group without witnesses. -/
def buildWitnessGroupForNum (this : WitnessChain) (n height : UInt64) : Option (WitnessChain × Bool) :=
  match this.group with
  | none =>
      if height = 0 then some (this, false)
      else do
        let last ← this.lastWitness
        let start ← Arena.lastRef Witness.preWitness this.witnesses this.witnesses.length last
        newGroup this n height start
  | some ref => do
      let height ← groupHeight this ref height
      let group ← this.groups[ref]?
      let tail ← group.witness.getLast?
      let tail ← this.witnesses[tail]?
      match tail.nextWitness with
      | none => some (this, false)
      | some start => newGroup this n height start

end WitnessChain

end PolarCloud.Mining.Pointers
