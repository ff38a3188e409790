import Mathlib.Logic.Function.Basic
import PolarCloud.Base.Entries
import PolarCloud.Base.SyncMap
import PolarCloud.Model.Mining.Pointers

/-! # Ballots and their count

A witness has a map of ballots once it has received one. Both the ballots and their count go to the witnesses from the
one on that `GetBackupWitness` finds from the end of the chain.
-/

namespace PolarCloud.Mining.Pointers

/-- A vote for the witness that has paid a deposit. -/
structure BallotTicket where
  /-- the voter -/
  addr : Bytes
  puk : Bytes := []
  sign : Bytes := []
  /-- the address of the witness -/
  witness : Bytes := []
  /-- the transaction of the deposit -/
  deposit : Bytes
deriving DecidableEq, Repr

/-- The ballots of a witness, by the address of the voter. -/
abbrev ElectionMap := List (Bytes × BallotTicket)

def ElectionMap.store (election : ElectionMap) (key : Bytes) (bt : BallotTicket) : ElectionMap :=
  Entries.change key (fun _ => bt) bt election

/-- The witness chain with the ballots of each witness that has a map of them, by its reference. -/
structure Election where
  chain : WitnessChain
  electionMap : ℕ → Option ElectionMap := fun _ => none

/-- Go back until the first witness, or until there is a block before. -/
def backupFrom (witnesses : List Witness) : ℕ → ℕ → Option ℕ
  | 0, _ => none
  | fuel + 1, next =>
      match witnesses[next]?.bind Witness.preWitness with
      | none => some next
      | some pre =>
          if (witnesses[pre]?.bind (·.own.block)).isSome then some next else backupFrom witnesses fuel pre

def WitnessChain.getBackupWitness (this : WitnessChain) : Option ℕ :=
  this.lastWitness.bind (backupFrom this.witnesses this.witnesses.length)

/-- The first witness from one on with the deposit. -/
def findDeposit (witnesses : List Witness) (deposit : Bytes) : ℕ → ℕ → Option ℕ
  | 0, _ => none
  | fuel + 1, ref =>
      match witnesses[ref]? with
      | none => none
      | some witness =>
          if witness.own.depositId = deposit then some ref
          else
            match witness.nextWitness with
            | none => none
            | some next => findDeposit witnesses deposit fuel next

namespace Election

def addBallotTicket (this : Election) (bt : BallotTicket) : Election :=
  match this.chain.getBackupWitness.bind
      (findDeposit this.chain.witnesses bt.deposit this.chain.witnesses.length) with
  | none => this
  | some witness =>
      { this with
        electionMap := Function.update this.electionMap witness
          (some (((this.electionMap witness).getD []).store bt.addr bt)) }

/-- The numbers of ballots, by the addresses of the witnesses. -/
abbrev Counts := SyncMap Bytes ℕ

/-- So many turns from a witness on. A witness without a map uses a turn up and is not passed; the rest is counted from
where this ends. -/
def countGroup (this : Election) : ℕ → Option ℕ → Counts → Counts × Option ℕ
  | 0, witness, counts => (counts, witness)
  | _ + 1, none, counts => (counts, none)
  | turns + 1, some ref, counts =>
      match this.chain.witnesses[ref]?, this.electionMap ref with
      | some witness, some election =>
          countGroup this turns witness.nextWitness (counts.store witness.own.addr election.length)
      | _, _ => countGroup this turns (some ref) counts

/-- All witnesses from one on. -/
def countRest (this : Election) : ℕ → Option ℕ → Counts → Counts
  | 0, _, rest => rest
  | _ + 1, none, rest => rest
  | fuel + 1, some ref, rest =>
      match this.chain.witnesses[ref]?, this.electionMap ref with
      | some witness, some election =>
          countRest this fuel witness.nextWitness (rest.store witness.own.addr election.length)
      | some witness, none => countRest this fuel witness.nextWitness rest
      | none, _ => rest

def countWitness (this : Election) : Counts × Counts :=
  let (countGroup, witness) := this.countGroup Config.miningGroupMax this.chain.getBackupWitness SyncMap.empty
  (countGroup, this.countRest this.chain.witnesses.length witness SyncMap.empty)

end Election

end PolarCloud.Mining.Pointers
