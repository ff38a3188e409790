import Mathlib.Data.List.Dedup
import PolarCloud.Model.Mining.Ballots
import PolarCloud.Proofs.Mining.WitnessSegments

/-! # Which ballots are counted for whom

Both walks start at the first witness without a block, or at the last one when there is none. A ballot reaches the first
witness from there on with its deposit. The first count stops at the first witness without ballots and leaves all others
to the second one.
-/

namespace PolarCloud.Mining.Pointers

/-! ## The ballots of one witness -/

/-- The map that ballots lead to. -/
def ElectionMap.entered (bts : List BallotTicket) : ElectionMap :=
  bts.foldl (fun election bt => ElectionMap.store election bt.addr bt) []

theorem ElectionMap.entered_concat (bts : List BallotTicket) (bt : BallotTicket) :
    entered (bts ++ [bt]) = (entered bts).store bt.addr bt := by
  rw [entered, List.foldl_append]
  rfl

/-- One more ballot for a witness, whether or not it has a map. -/
theorem ElectionMap.received_concat (bts : List BallotTicket) (bt : BallotTicket) :
    some (((if bts = [] then none else some (entered bts)).getD []).store bt.addr bt) =
      if bts ++ [bt] = [] then none else some (entered (bts ++ [bt])) := by
  rw [if_neg (List.append_ne_nil_of_right_ne_nil bts (List.cons_ne_nil bt [])), entered_concat]
  split
  · next none =>
    rw [none]
    rfl
  · rfl

theorem ElectionMap.keys_entered (bts : List BallotTicket) : ((entered bts).map Prod.fst).Nodup ∧
    ∀ key, key ∈ (entered bts).map Prod.fst ↔ key ∈ bts.map BallotTicket.addr := by
  induction bts using List.reverseRecOn with
  | nil => exact ⟨List.nodup_nil, fun _ => Iff.rfl⟩
  | append_singleton bts bt ih =>
    obtain ⟨nodup, same⟩ := ih
    rw [entered_concat, store]
    refine ⟨Entries.nodup_change nodup, fun key => ?_⟩
    rw [Entries.mem_keys_change, same, List.map_append, List.mem_append, List.map_singleton, List.mem_singleton]

/-- A ballot for each voter. -/
theorem ElectionMap.length_entered (bts : List BallotTicket) :
    (entered bts).length = (bts.map BallotTicket.addr).dedup.length := by
  obtain ⟨nodup, same⟩ := keys_entered bts
  rw [← List.length_map (f := Prod.fst)]
  apply List.Perm.length_eq
  apply (List.perm_ext_iff_of_nodup nodup (List.nodup_dedup _)).mpr
  intro key
  rw [same, List.mem_dedup]

namespace WitnessChain

variable {this : WitnessChain}

/-! ## The two walks -/

/-- The witnesses from which on ballots are given and counted. -/
theorem Laid.getBackupWitness_eq (laid : this.Laid) {blocks : ℕ}
    (blocked : ∀ ref witness, this.witnesses[ref]? = some witness → (witness.own.block.isSome ↔ ref < blocks)) :
    this.getBackupWitness =
      if this.witnesses = [] then none else some (min blocks (this.witnesses.length - 1)) := by
  have walk (fuel next : ℕ) (inside : next < this.witnesses.length) (enough : next < fuel) :
      backupFrom this.witnesses fuel next = some (min blocks next) := by
    induction fuel generalizing next with
    | zero => omega
    | succ fuel ih =>
      have present := List.getElem?_eq_getElem inside
      rw [backupFrom, present, Option.bind_some, laid.witnesses.pre_eq next _ present]
      cases next with
      | zero => rw [if_pos rfl, Nat.min_zero]
      | succ pre =>
        have before : pre < this.witnesses.length := by omega
        have produced := blocked pre _ (List.getElem?_eq_getElem before)
        rw [if_neg pre.succ_ne_zero, Nat.add_sub_cancel]
        dsimp only
        rw [List.getElem?_eq_getElem before, Option.bind_some]
        split
        · next block =>
          have within := produced.mp block
          rw [Nat.min_eq_right (by omega)]
        · next block =>
          have outside : ¬ pre < blocks := fun within => block (produced.mpr within)
          rw [ih pre before (by omega), Nat.min_eq_left (by omega), Nat.min_eq_left (by omega)]
  rw [getBackupWitness, laid.lastWitness, List.getLast?_range]
  split
  · next empty =>
    rw [if_pos (List.length_eq_zero_iff.mp empty)]
    rfl
  · next present =>
    rw [if_neg fun empty => present (List.length_eq_zero_iff.mpr empty)]
    exact walk _ _ (by omega) (by omega)

end WitnessChain

/-- The place of the first witness with a deposit. -/
def First (witnesses : List Mining.Witness) (deposit : Bytes) (place : ℕ) : Prop :=
  (∃ one, witnesses[place]? = some one ∧ one.depositId = deposit) ∧
    ∀ before < place, ∀ one, witnesses[before]? = some one → one.depositId ≠ deposit

/-- The witness in front has the deposit, or it is looked for behind it. -/
theorem first_cons_iff {one : Mining.Witness} {rest : List Mining.Witness} {deposit : Bytes} {place : ℕ} :
    First (one :: rest) deposit place ↔
      if one.depositId = deposit then place = 0 else ∃ later, place = later + 1 ∧ First rest deposit later := by
  split
  · next here =>
    constructor
    · rintro ⟨-, first⟩
      by_contra other
      exact first 0 (Nat.pos_of_ne_zero other) one rfl here
    · rintro rfl
      exact ⟨⟨one, rfl, here⟩, nofun⟩
  · next elsewhere =>
    constructor
    · rintro ⟨⟨other, found, same⟩, first⟩
      cases place with
      | zero =>
        cases found
        exact absurd same elsewhere
      | succ later =>
        exact ⟨later, rfl, ⟨other, found, same⟩, fun before earlier => first (before + 1) (by omega)⟩
    · rintro ⟨later, rfl, found, first⟩
      refine ⟨found, fun before earlier => ?_⟩
      cases before with
      | zero =>
        rintro _ ⟨⟩
        exact elsewhere
      | succ before => exact first before (by omega)

theorem not_first_nil {deposit : Bytes} {place : ℕ} : ¬ First [] deposit place := by
  rintro ⟨⟨one, found, -⟩, -⟩
  cases found

/-- A ballot reaches the first witness with its deposit. -/
theorem findDeposit_eq_some_iff {witnesses : List Witness}
    (chained : Arena.Chained Witness.preWitness Witness.nextWitness witnesses) (deposit : Bytes) (ref : ℕ)
    {fuel start : ℕ} (inside : start < witnesses.length) (enough : witnesses.length ≤ fuel + start) :
    findDeposit witnesses deposit fuel start = some ref ↔
      ∃ place, ref = start + place ∧ First ((witnesses.map Witness.own).drop start) deposit place := by
  induction fuel generalizing start with
  | zero => omega
  | succ fuel ih =>
    have present := List.getElem?_eq_getElem inside
    have split : (witnesses.map Witness.own).drop start =
        (witnesses[start]).own :: (witnesses.map Witness.own).drop (start + 1) := by
      rw [List.drop_eq_getElem_cons (by rwa [List.length_map]), List.getElem_map]
    rw [findDeposit, present, split]
    dsimp only
    simp only [first_cons_iff]
    split
    · next here => simp [eq_comm]
    · next elsewhere =>
      have link := chained.next_eq start _ present
      split at link
      · next more =>
        rw [link]
        refine (ih more (by omega)).trans ⟨?_, ?_⟩
        · rintro ⟨place, rfl, first⟩
          exact ⟨place + 1, by omega, place, rfl, first⟩
        · rintro ⟨_, rfl, place, rfl, first⟩
          exact ⟨place, by omega, first⟩
      · next last =>
        rw [link]
        refine iff_of_false nofun ?_
        rintro ⟨_, -, place, -, first⟩
        rw [List.drop_eq_nil_of_le (by rw [List.length_map]; omega)] at first
        exact not_first_nil first

/-! ## All ballots -/

/-- The reference of the witness that a ballot reaches. -/
def WitnessChain.reached (this : WitnessChain) (bt : BallotTicket) : Option ℕ :=
  this.getBackupWitness.bind (findDeposit this.witnesses bt.deposit this.witnesses.length)

namespace Election

/-- A witness holds the ballots that reach it. -/
theorem addBallotTickets_eq (chain : WitnessChain) (tickets : List BallotTicket) :
    (tickets.foldl addBallotTicket { chain }).chain = chain ∧ ∀ ref,
      (tickets.foldl addBallotTicket { chain }).electionMap ref =
        if (tickets.filter fun bt => chain.reached bt = some ref) = [] then none
        else some (ElectionMap.entered (tickets.filter fun bt => chain.reached bt = some ref)) := by
  induction tickets using List.reverseRecOn with
  | nil => exact ⟨rfl, fun _ => rfl⟩
  | append_singleton tickets bt ih =>
    rw [List.foldl_append, List.foldl_cons, List.foldl_nil]
    generalize tickets.foldl addBallotTicket { chain } = election at ih ⊢
    obtain ⟨rfl, maps⟩ := ih
    rw [addBallotTicket]
    split
    · next missed =>
      refine ⟨rfl, fun ref => ?_⟩
      have nowhere : ¬ election.chain.reached bt = some ref := by
        rw [WitnessChain.reached, missed]
        exact nofun
      rw [maps, List.filter_append, List.filter_singleton, decide_eq_false nowhere]
      simp
    · next witness found =>
      refine ⟨rfl, fun ref => ?_⟩
      have there : election.chain.reached bt = some witness := found
      rw [List.filter_append, List.filter_singleton, there]
      dsimp only
      by_cases same : ref = witness
      · subst same
        rw [Function.update_self, maps, decide_eq_true rfl, cond_true]
        exact ElectionMap.received_concat _ bt
      · rw [Function.update_of_ne same, maps]
        simp [Ne.symm same]

/-! ## The two counts -/

/-- What a witness with ballots adds to a count. -/
def row (this : Election) (ref : ℕ) : Option (Bytes × Option ℕ) := do
  let witness ← this.chain.witnesses[ref]?
  let election ← this.electionMap ref
  some (witness.own.addr, some election.length)

/-- The reference behind a link, if there is a witness. -/
def at_ (this : Election) (ref : ℕ) : Option ℕ := if ref < this.chain.witnesses.length then some ref else none

variable {this : Election}

theorem row_outside {ref : ℕ} (outside : ¬ ref < this.chain.witnesses.length) : this.row ref = none := by
  rw [row, List.getElem?_eq_none (Nat.not_lt.mp outside)]
  rfl

theorem row_of_none {ref : ℕ} (map : this.electionMap ref = none) : this.row ref = none := by
  rw [row, map]
  cases this.chain.witnesses[ref]? with
  | none => rfl
  | some witness => rfl

theorem row_of_some {ref : ℕ} {election : ElectionMap} (inside : ref < this.chain.witnesses.length)
    (map : this.electionMap ref = some election) :
    this.row ref = some (this.chain.witnesses[ref].own.addr, some election.length) := by
  rw [row, List.getElem?_eq_getElem inside, map]
  rfl

/-- The first count ends after its turns, or at the first witness without ballots. -/
theorem countGroup_eq
    (chained : Arena.Chained Witness.preWitness Witness.nextWitness this.chain.witnesses) (turns ref : ℕ)
    (counts : Counts) : ∃ passed, passed ≤ turns ∧ (∀ place < passed, (this.row (ref + place)).isSome) ∧
      (passed < turns → this.row (ref + passed) = none) ∧
      this.countGroup turns (this.at_ ref) counts =
        (counts.replay ((List.range' ref passed).filterMap this.row), this.at_ (ref + passed)) := by
  induction turns generalizing ref counts with
  | zero => exact ⟨0, le_rfl, nofun, nofun, rfl⟩
  | succ turns ih =>
    by_cases inside : ref < this.chain.witnesses.length
    · have present := List.getElem?_eq_getElem inside
      have here : this.at_ ref = some ref := if_pos inside
      cases map : this.electionMap ref with
      | none =>
        have empty := row_of_none map
        obtain ⟨passed, -, ballots, -, done⟩ := ih ref counts
        have stalled : passed = 0 := by
          by_contra more
          have first := ballots 0 (Nat.pos_of_ne_zero more)
          rw [Nat.add_zero, empty] at first
          cases first
        subst stalled
        refine ⟨0, Nat.zero_le _, nofun, fun _ => empty, ?_⟩
        rw [← done, here, countGroup, present, map]
      | some election =>
        have added := row_of_some inside map
        obtain ⟨passed, bound, ballots, stops, done⟩ :=
          ih (ref + 1) (counts.store this.chain.witnesses[ref].own.addr election.length)
        refine ⟨passed + 1, by omega, fun place before => ?_, fun more => ?_, ?_⟩
        · cases place with
          | zero =>
            rw [Nat.add_zero, added]
            rfl
          | succ place =>
            rw [show ref + (place + 1) = ref + 1 + place by omega]
            exact ballots place (by omega)
        · rw [show ref + (passed + 1) = ref + 1 + passed by omega]
          exact stops (by omega)
        · rw [here, countGroup, present, map]
          dsimp only
          rw [chained.next_eq ref _ present, List.range'_succ, List.filterMap_cons_some added,
            show ref + (passed + 1) = ref + 1 + passed by omega]
          exact done
    · have behind : this.at_ ref = none := if_neg inside
      refine ⟨0, Nat.zero_le _, nofun, fun _ => row_outside inside, ?_⟩
      rw [Nat.add_zero, behind]
      exact Prod.ext rfl behind.symm

/-- The second count passes everything else. -/
theorem countRest_eq
    (chained : Arena.Chained Witness.preWitness Witness.nextWitness this.chain.witnesses) {fuel ref : ℕ}
    (enough : this.chain.witnesses.length ≤ fuel + ref) (rest : Counts) :
    this.countRest fuel (this.at_ ref) rest =
      rest.replay ((List.range' ref (this.chain.witnesses.length - ref)).filterMap this.row) := by
  induction fuel generalizing ref rest with
  | zero =>
    rw [Nat.sub_eq_zero_of_le (by omega)]
    rfl
  | succ fuel ih =>
    by_cases inside : ref < this.chain.witnesses.length
    · have present := List.getElem?_eq_getElem inside
      have here : this.at_ ref = some ref := if_pos inside
      have more : this.chain.witnesses.length - ref = this.chain.witnesses.length - (ref + 1) + 1 := by omega
      have link := chained.next_eq ref _ present
      rw [here, countRest, present, more, List.range'_succ]
      cases map : this.electionMap ref with
      | none =>
        have empty := row_of_none map
        dsimp only
        rw [link, List.filterMap_cons_none empty]
        exact ih (by omega) rest
      | some election =>
        have added := row_of_some inside map
        dsimp only
        rw [link, List.filterMap_cons_some added]
        exact ih (by omega) _
    · have behind : this.at_ ref = none := if_neg inside
      rw [behind, Nat.sub_eq_zero_of_le (by omega)]
      rfl

end Election

/-! ## What the counts should be -/

/-- A ballot was given for the deposit of the witness. -/
def Voted (tickets : List BallotTicket) (one : Mining.Witness) : Prop := ∃ bt ∈ tickets, bt.deposit = one.depositId

/-- How many have voted for the deposit of the witness. -/
def voters (tickets : List BallotTicket) (one : Mining.Witness) : ℕ :=
  ((tickets.filter fun bt => bt.deposit = one.depositId).map BallotTicket.addr).dedup.length

/-- The first members are counted in the first map and the others in the second one, each with its voters, and nothing
else is counted. -/
structure Counted (backups : List Mining.Witness) (tickets : List BallotTicket)
    (counts : Election.Counts × Election.Counts) : Prop where
  group : ∀ one ∈ backups.take Config.miningGroupMax, Voted tickets one →
    counts.1.load one.addr = some (voters tickets one)
  rest : ∀ one ∈ backups.drop Config.miningGroupMax, Voted tickets one →
    counts.2.load one.addr = some (voters tickets one)
  only : ∀ addr, (counts.1.load addr).isSome ∨ (counts.2.load addr).isSome →
    ∃ one ∈ backups, Voted tickets one ∧ one.addr = addr
  apart : ∀ addr, counts.1.load addr = none ∨ counts.2.load addr = none

/-- The witness at the place is the first one with the deposit of a ballot. -/
def Receives (witnesses : List Mining.Witness) (tickets : List BallotTicket) (place : ℕ) : Prop :=
  ∃ bt ∈ tickets, First witnesses bt.deposit place

/-- The last of the witnesses that all have blocks has no ballots; among the first members without a block no receiver
of ballots stands behind one that receives none; those with one address are on one side of the limit and have as many
voters; and one that is not the first with its deposit shares its address with a receiver. -/
structure Orderly (produced backups : List Mining.Witness) (tickets : List BallotTicket) : Prop where
  closed : backups = [] → ∀ last, produced.getLast? = some last → ¬ Voted tickets last
  inFront : ∀ place behind : ℕ, place < behind → behind < Config.miningGroupMax → Receives backups tickets behind →
    Receives backups tickets place
  together : ∀ (place other : ℕ) one two, backups[place]? = some one → backups[other]? = some two →
    Voted tickets one → Voted tickets two → one.addr = two.addr →
    (place < Config.miningGroupMax ↔ other < Config.miningGroupMax) ∧ voters tickets one = voters tickets two
  shared : ∀ (place : ℕ) one, backups[place]? = some one → Voted tickets one →
    ∃ (other : ℕ) (two : Mining.Witness), backups[other]? = some two ∧ Receives backups tickets other ∧
      two.addr = one.addr

variable {witnesses produced backups : List Mining.Witness} {tickets : List BallotTicket}
  {counts : Election.Counts × Election.Counts}

theorem Receives.found {place : ℕ} (receives : Receives witnesses tickets place) :
    ∃ one, witnesses[place]? = some one := by
  obtain ⟨_, -, ⟨one, found, -⟩, -⟩ := receives
  exact ⟨one, found⟩

theorem Receives.voted {place : ℕ} {one : Mining.Witness} (receives : Receives witnesses tickets place)
    (found : witnesses[place]? = some one) : Voted tickets one := by
  obtain ⟨bt, member, ⟨two, found', same⟩, -⟩ := receives
  cases found.symm.trans found'
  exact ⟨bt, member, same.symm⟩

/-- A count holds the voters of the receivers at the places, and nothing else. -/
structure Half (witnesses : List Mining.Witness) (tickets : List BallotTicket) (places : ℕ → Prop)
    (half : Election.Counts) : Prop where
  of : ∀ addr count, half.load addr = some count →
    ∃ (place : ℕ) (one : Mining.Witness), places place ∧ witnesses[place]? = some one ∧
      Receives witnesses tickets place ∧ one.addr = addr ∧ voters tickets one = count
  has : ∀ (place : ℕ) one, places place → witnesses[place]? = some one → Receives witnesses tickets place →
    (half.load one.addr).isSome

namespace Half

variable {places others : ℕ → Prop} {half : Election.Counts}

theorem congr (counted : Half witnesses tickets places half)
    (same : ∀ (place : ℕ) one, witnesses[place]? = some one → (places place ↔ others place)) :
    Half witnesses tickets others half := by
  refine ⟨fun addr count entry => ?_, fun place one inside found receives => ?_⟩
  · obtain ⟨place, one, inside, found, entered⟩ := counted.of addr count entry
    exact ⟨place, one, (same place one found).mp inside, found, entered⟩
  · exact counted.has place one ((same place one found).mpr inside) found receives

theorem of_isSome (counted : Half witnesses tickets places half) {addr : Bytes}
    (entered : (half.load addr).isSome) : ∃ (place : ℕ) (one : Mining.Witness), places place ∧
      witnesses[place]? = some one ∧ Receives witnesses tickets place ∧ one.addr = addr := by
  obtain ⟨count, entry⟩ := Option.isSome_iff_exists.mp entered
  obtain ⟨place, one, inside, found, receives, same, -⟩ := counted.of addr count entry
  exact ⟨place, one, inside, found, receives, same⟩

/-- Receivers with one address and as many voters leave their number, whichever is counted last. -/
theorem load_eq (counted : Half witnesses tickets places half) {place voters' : ℕ} {one : Mining.Witness}
    (inside : places place) (found : witnesses[place]? = some one) (receives : Receives witnesses tickets place)
    (equal : ∀ (other : ℕ) two, witnesses[other]? = some two → Voted tickets two → two.addr = one.addr →
      voters tickets two = voters') : half.load one.addr = some voters' := by
  obtain ⟨count, entry⟩ := Option.isSome_iff_exists.mp (counted.has place one inside found receives)
  obtain ⟨other, two, -, found', receives', same, rfl⟩ := counted.of _ _ entry
  rw [entry, equal other two found' (receives'.voted found') same]

theorem load_eq_none (counted : Half witnesses tickets places half)
    (none : ∀ place, ¬ Receives witnesses tickets place) (addr : Bytes) : half.load addr = .none := by
  cases entry : half.load addr with
  | none => rfl
  | some count =>
    obtain ⟨place, -, -, -, receives, -⟩ := counted.of addr count entry
    exact absurd receives (none place)

end Half

/-- What the two loops count among the witnesses that they see: the first `passed` ones, which all have ballots, and
the receivers behind them. -/
structure Tallied (witnesses : List Mining.Witness) (tickets : List BallotTicket)
    (counts : Election.Counts × Election.Counts) (passed : ℕ) : Prop where
  bound : passed ≤ Config.miningGroupMax
  before : ∀ place < passed, Receives witnesses tickets place
  stops : passed < Config.miningGroupMax → ¬ Receives witnesses tickets passed
  group : Half witnesses tickets (· < passed) counts.1
  rest : Half witnesses tickets (passed ≤ ·) counts.2

namespace Tallied

variable {passed : ℕ}

/-- In an orderly chain the first count reaches every receiver among the first members. -/
theorem passed_of_inFront (tallied : Tallied backups tickets counts passed)
    (inFront : ∀ place behind, place < behind → behind < Config.miningGroupMax → Receives backups tickets behind →
      Receives backups tickets place) {place : ℕ} (within : place < Config.miningGroupMax)
    (receives : Receives backups tickets place) : place < passed := by
  by_contra outside
  have stop := tallied.stops (by omega)
  rcases Nat.eq_or_lt_of_le (Nat.not_lt.mp outside) with here | later
  · exact stop (here ▸ receives)
  · exact stop (inFront passed place later within receives)

theorem orderly (tallied : Tallied backups tickets counts passed) (present : backups ≠ [])
    (counted : Counted backups tickets counts) : Orderly produced backups tickets := by
  have group {place : ℕ} {one : Mining.Witness} (within : place < Config.miningGroupMax)
      (found : backups[place]? = some one) (voted : Voted tickets one) :
      counts.1.load one.addr = some (voters tickets one) := by
    apply counted.group one _ voted
    apply List.mem_of_getElem? (i := place)
    rw [List.getElem?_take_of_lt within, found]
  have rest {place : ℕ} {one : Mining.Witness} (outside : ¬ place < Config.miningGroupMax)
      (found : backups[place]? = some one) (voted : Voted tickets one) :
      counts.2.load one.addr = some (voters tickets one) := by
    apply counted.rest one _ voted
    apply List.mem_of_getElem? (i := place - Config.miningGroupMax)
    rw [List.getElem?_drop, Nat.add_sub_cancel' (Nat.not_lt.mp outside), found]
  have exclusive {addr : Bytes} {count other : ℕ} (first : counts.1.load addr = some count)
      (second : counts.2.load addr = some other) : False := by
    rcases counted.apart addr with none | none
    · cases first.symm.trans none
    · cases second.symm.trans none
  refine ⟨fun none => absurd none present, ?_, ?_, ?_⟩
  · intro place behind earlier within receives
    by_contra empty
    obtain ⟨one, found⟩ := receives.found
    have outside : passed ≤ behind := by
      by_contra inside
      exact empty (tallied.before place (by omega))
    obtain ⟨_, second⟩ := Option.isSome_iff_exists.mp (tallied.rest.has behind one outside found receives)
    exact exclusive (group within found (receives.voted found)) second
  · intro place other one two found found' voted voted' same
    by_cases within : place < Config.miningGroupMax <;> by_cases within' : other < Config.miningGroupMax
    · have first := group within found voted
      rw [same, group within' found' voted', Option.some_inj] at first
      exact ⟨iff_of_true within within', first.symm⟩
    · exact (exclusive (same ▸ group within found voted) (rest within' found' voted')).elim
    · exact (exclusive (group within' found' voted') (same ▸ rest within found voted)).elim
    · have second := rest within found voted
      rw [same, rest within' found' voted', Option.some_inj] at second
      exact ⟨iff_of_false within within', second.symm⟩
  · intro place one found voted
    by_cases within : place < Config.miningGroupMax
    · obtain ⟨other, two, -, found', receives, same, -⟩ := tallied.group.of _ _ (group within found voted)
      exact ⟨other, two, found', receives, same⟩
    · obtain ⟨other, two, -, found', receives, same, -⟩ := tallied.rest.of _ _ (rest within found voted)
      exact ⟨other, two, found', receives, same⟩

theorem counted (tallied : Tallied backups tickets counts passed) (orderly : Orderly produced backups tickets) :
    Counted backups tickets counts := by
  obtain ⟨-, inFront, together, shared⟩ := orderly
  have reached {place : ℕ} (within : place < Config.miningGroupMax) := tallied.passed_of_inFront inFront within
  have outside {place : ℕ} (later : passed ≤ place) (receives : Receives backups tickets place) :
      ¬ place < Config.miningGroupMax := by
    intro within
    have inside := reached within receives
    omega
  refine ⟨?_, ?_, ?_, ?_⟩
  · intro one member voted
    obtain ⟨place, found⟩ := List.mem_iff_getElem?.mp member
    have within : place < Config.miningGroupMax := by
      have bound := (List.getElem?_eq_some_iff.mp found).1
      rw [List.length_take] at bound
      omega
    rw [List.getElem?_take_of_lt within] at found
    obtain ⟨other, two, found', receives, same⟩ := shared place one found voted
    have side := (together place other one two found found' voted (receives.voted found') same.symm).1.mp within
    rw [← same]
    apply tallied.group.load_eq (reached side receives) found' receives
    intro last three found'' voted' same'
    exact (together place last one three found found'' voted voted' (same'.trans same).symm).2.symm
  · intro one member voted
    obtain ⟨place, found⟩ := List.mem_iff_getElem?.mp member
    rw [List.getElem?_drop] at found
    obtain ⟨other, two, found', receives, same⟩ := shared _ one found voted
    have side : ¬ other < Config.miningGroupMax := fun within => by
      have both := (together _ other one two found found' voted (receives.voted found') same.symm).1.mpr within
      omega
    rw [← same]
    apply tallied.rest.load_eq (tallied.bound.trans (Nat.not_lt.mp side)) found' receives
    intro last three found'' voted' same'
    exact (together _ last one three found found'' voted voted' (same'.trans same).symm).2.symm
  · rintro addr (entered | entered)
    · obtain ⟨place, one, -, found, receives, same⟩ := tallied.group.of_isSome entered
      exact ⟨one, List.mem_of_getElem? found, receives.voted found, same⟩
    · obtain ⟨place, one, -, found, receives, same⟩ := tallied.rest.of_isSome entered
      exact ⟨one, List.mem_of_getElem? found, receives.voted found, same⟩
  · intro addr
    by_contra both
    obtain ⟨first, second⟩ := not_or.mp both
    obtain ⟨place, one, before, found, receives, same⟩ :=
      tallied.group.of_isSome (Option.isSome_iff_ne_none.mpr first)
    obtain ⟨other, two, later, found', receives', same'⟩ :=
      tallied.rest.of_isSome (Option.isSome_iff_ne_none.mpr second)
    have side := (together place other one two found found' (receives.voted found) (receives'.voted found')
      (same.trans same'.symm)).1.mp (before.trans_le tallied.bound)
    exact outside later receives' side

/-- Nothing is counted when nothing is received. -/
theorem counted_nil_iff (tallied : Tallied witnesses tickets counts passed) :
    Counted [] tickets counts ↔ ∀ place, ¬ Receives witnesses tickets place := by
  constructor
  · intro counted place receives
    obtain ⟨one, found⟩ := receives.found
    have entered : (counts.1.load one.addr).isSome ∨ (counts.2.load one.addr).isSome := by
      rcases Nat.lt_or_ge place passed with before | later
      · exact .inl (tallied.group.has place one before found receives)
      · exact .inr (tallied.rest.has place one later found receives)
    obtain ⟨_, member, -⟩ := counted.only one.addr entered
    cases member
  · intro none
    refine ⟨nofun, nofun, ?_, fun addr => .inl (tallied.group.load_eq_none none addr)⟩
    rintro addr (entered | entered)
    · rw [tallied.group.load_eq_none none] at entered
      cases entered
    · rw [tallied.rest.load_eq_none none] at entered
      cases entered

end Tallied

theorem not_receives_nil {place : ℕ} : ¬ Receives [] tickets place := by
  rintro ⟨_, -, first⟩
  exact not_first_nil first

/-- With all blocks produced the last witness is the only one that could receive ballots. -/
theorem orderly_nil_iff (last : witnesses = produced.getLast?.toList) :
    Orderly produced [] tickets ↔ ∀ place, ¬ Receives witnesses tickets place := by
  subst last
  constructor
  · rintro orderly place ⟨bt, member, ⟨one, found, same⟩, -⟩
    cases ends : produced.getLast? with
    | none =>
      rw [ends] at found
      cases found
    | some last =>
      rw [ends, Option.toList_some, List.getElem?_singleton] at found
      split at found
      · cases found
        exact orderly.closed rfl _ ends ⟨bt, member, same.symm⟩
      · cases found
  · intro none
    refine ⟨?_, fun _ _ _ _ receives => absurd receives not_receives_nil, nofun, nofun⟩
    rintro - last ends ⟨bt, member, same⟩
    apply none 0
    rw [ends]
    exact ⟨bt, member, ⟨last, rfl, same.symm⟩, nofun⟩

/-! ## The counts of a chain -/

namespace WitnessChain

variable {this : WitnessChain} {start : ℕ}

/-- The witnesses that the walks see. -/
def seen (this : WitnessChain) (start : ℕ) : List Mining.Witness := (this.witnesses.map Witness.own).drop start

theorem getElem?_seen (this : WitnessChain) (start place : ℕ) :
    (this.seen start)[place]? = this.witnesses[start + place]?.map Witness.own := by
  rw [seen, List.getElem?_drop, List.getElem?_map]

theorem Laid.reached_iff (laid : this.Laid)
    (backup : this.getBackupWitness = if start < this.witnesses.length then some start else none) (bt : BallotTicket)
    (place : ℕ) : this.reached bt = some (start + place) ↔ First (this.seen start) bt.deposit place := by
  rw [reached, backup]
  split
  · next inside =>
    rw [Option.bind_some, findDeposit_eq_some_iff laid.witnesses _ _ inside (Nat.le_add_right _ _)]
    constructor
    · rintro ⟨other, same, first⟩
      obtain rfl : place = other := by omega
      exact first
    · exact fun first => ⟨place, rfl, first⟩
  · next outside =>
    refine iff_of_false nofun ?_
    rw [seen, List.drop_eq_nil_of_le (by rw [List.length_map]; omega)]
    exact not_first_nil

/-- A receiver of ballots adds the number of its voters. -/
theorem Laid.row_iff (laid : this.Laid)
    (backup : this.getBackupWitness = if start < this.witnesses.length then some start else none)
    (tickets : List BallotTicket) (place : ℕ) (entry : Bytes × Option ℕ) :
    (tickets.foldl Election.addBallotTicket { chain := this }).row (start + place) = some entry ↔
      ∃ one, (this.seen start)[place]? = some one ∧ Receives (this.seen start) tickets place ∧
        entry = (one.addr, some (voters tickets one)) := by
  obtain ⟨chain, maps⟩ := Election.addBallotTickets_eq this tickets
  rw [Election.row, chain, maps]
  cases found : this.witnesses[start + place]? with
  | none =>
    have outside : (this.seen start)[place]? = none := by rw [getElem?_seen, found, Option.map_none]
    refine iff_of_false nofun ?_
    rintro ⟨one, inside, -⟩
    cases inside.symm.trans outside
  | some witness =>
    have shown : (this.seen start)[place]? = some witness.own := by rw [getElem?_seen, found, Option.map_some]
    have own : (tickets.filter fun bt => this.reached bt = some (start + place)) = [] ↔
        ¬ Receives (this.seen start) tickets place := by
      rw [List.filter_eq_nil_iff]
      simp only [decide_eq_true_eq, laid.reached_iff backup, Receives, not_exists, not_and]
    rw [Option.bind_eq_bind, Option.bind_some]
    split
    · next none =>
      refine iff_of_false nofun ?_
      rintro ⟨_, -, receives, -⟩
      exact own.mp none receives
    · next some =>
      have receives : Receives (this.seen start) tickets place := not_not.mp fun none => some (own.mpr none)
      obtain ⟨bt, -, ⟨two, found', same⟩, first⟩ := id receives
      cases shown.symm.trans found'
      have ballots : (tickets.filter fun bt => this.reached bt = .some (start + place)) =
          tickets.filter fun bt => bt.deposit = witness.own.depositId := by
        apply List.filter_congr
        intro other _
        apply decide_eq_decide.mpr
        rw [laid.reached_iff backup]
        constructor
        · rintro ⟨⟨one, found'', same'⟩, -⟩
          cases shown.symm.trans found''
          exact same'.symm
        · intro same'
          rw [same', same]
          exact ⟨⟨witness.own, shown, same⟩, first⟩
      change Option.some (witness.own.addr, Option.some (List.length (ElectionMap.entered _))) = _ ↔ _
      rw [ElectionMap.length_entered, ballots, Option.some_inj]
      constructor
      · exact fun same => ⟨witness.own, shown, receives, same.symm⟩
      · rintro ⟨one, found'', -, rfl⟩
        cases shown.symm.trans found''
        rfl

/-- The entries of a count are those of the witnesses that were passed. -/
theorem load_replay_rows {election : Election} {rows : List ℕ} {addr : Bytes} {count : ℕ}
    (entry : (SyncMap.empty.replay (rows.filterMap election.row)).load addr = some count) :
    ∃ ref ∈ rows, election.row ref = some (addr, some count) := by
  rw [SyncMap.load_replay, SyncMap.load_empty] at entry
  cases last : lastWrite (rows.filterMap election.row) addr with
  | none =>
    rw [last] at entry
    cases entry
  | some value =>
    rw [last, Option.getD_some] at entry
    rw [entry] at last
    exact List.mem_filterMap.mp (mem_of_lastWrite last)

theorem isSome_replay_rows {election : Election} {rows : List ℕ} {ref : ℕ} {addr : Bytes} {count : Option ℕ}
    (member : ref ∈ rows) (row : election.row ref = some (addr, count)) :
    ((SyncMap.empty.replay (rows.filterMap election.row)).load addr).isSome := by
  rw [SyncMap.load_replay]
  cases last : lastWrite (rows.filterMap election.row) addr with
  | none => exact absurd rfl (lastWrite_eq_none_iff.mp last _ (List.mem_filterMap.mpr ⟨ref, member, row⟩))
  | some value =>
    obtain ⟨other, -, entry⟩ := List.mem_filterMap.mp (mem_of_lastWrite last)
    obtain ⟨witness, -, entry⟩ := Option.bind_eq_some_iff.mp entry
    obtain ⟨election, -, entry⟩ := Option.bind_eq_some_iff.mp entry
    cases entry
    rfl

/-- A count of neighbouring witnesses. -/
theorem half_of_rows {election : Election} {witnesses : List Mining.Witness} {tickets : List BallotTicket}
    (rows : ∀ (place : ℕ) entry, election.row (start + place) = some entry ↔ ∃ one, witnesses[place]? = some one ∧
      Receives witnesses tickets place ∧ entry = (one.addr, some (voters tickets one))) (first size : ℕ) :
    Half witnesses tickets (fun place => first ≤ place ∧ place < first + size)
      (SyncMap.empty.replay ((List.range' (start + first) size).filterMap election.row)) := by
  refine ⟨fun addr count entry => ?_, fun place one inside found receives => ?_⟩
  · obtain ⟨ref, member, row⟩ := load_replay_rows entry
    have inside := List.mem_range'_1.mp member
    obtain ⟨place, rfl⟩ := Nat.exists_eq_add_of_le (show start ≤ ref by omega)
    obtain ⟨one, found, receives, same⟩ := (rows place _).mp row
    cases same
    exact ⟨place, one, ⟨by omega, by omega⟩, found, receives, rfl, rfl⟩
  · have row := (rows place _).mpr ⟨one, found, receives, rfl⟩
    exact isSome_replay_rows (List.mem_range'_1.mpr ⟨by omega, by omega⟩) row

/-- The two maps hold what the loops count among the witnesses that they see. -/
theorem Laid.tallied (laid : this.Laid)
    (backup : this.getBackupWitness = if start < this.witnesses.length then some start else none)
    (tickets : List BallotTicket) : ∃ passed, Tallied (this.seen start) tickets
      (tickets.foldl Election.addBallotTicket { chain := this }).countWitness passed := by
  have rows := laid.row_iff backup tickets
  have chain := (Election.addBallotTickets_eq this tickets).1
  generalize tickets.foldl Election.addBallotTicket { chain := this } = election at rows chain ⊢
  subst chain
  obtain ⟨passed, bound, before, stops, group⟩ :=
    election.countGroup_eq laid.witnesses Config.miningGroupMax start SyncMap.empty
  have rest := @Election.countRest_eq election laid.witnesses election.chain.witnesses.length (start + passed)
    (Nat.le_add_right _ _) SyncMap.empty
  have counts : election.countWitness =
      (SyncMap.empty.replay ((List.range' start passed).filterMap election.row),
        SyncMap.empty.replay ((List.range' (start + passed)
          (election.chain.witnesses.length - (start + passed))).filterMap election.row)) := by
    rw [Election.countWitness, backup]
    change (Prod.fst (election.countGroup _ (election.at_ start) _),
      election.countRest _ (Prod.snd (election.countGroup _ (election.at_ start) _)) _) = _
    rw [group, rest]
  rw [counts]
  refine ⟨passed, bound, fun place earlier => ?_, fun more received => ?_, ?_, ?_⟩
  · obtain ⟨entry, row⟩ := Option.isSome_iff_exists.mp (before place earlier)
    obtain ⟨-, -, received, -⟩ := (rows place entry).mp row
    exact received
  · obtain ⟨one, found⟩ := received.found
    have row := (rows passed _).mpr ⟨one, found, received, rfl⟩
    rw [stops more] at row
    cases row
  · apply (half_of_rows rows 0 passed).congr
    intro place one found
    omega
  · apply (half_of_rows rows passed (election.chain.witnesses.length - (start + passed))).congr
    intro place one found
    rw [getElem?_seen] at found
    obtain ⟨_, present, -⟩ := Option.map_eq_some_iff.mp found
    have inside := (List.getElem?_eq_some_iff.mp present).1
    omega

/-- In a chain whose first witnesses have produced their blocks, the ballots are counted for the right witnesses exactly
when they are orderly. -/
theorem counted_iff (laid : this.Laid) {produced backups : List Mining.Witness}
    (split : this.witnesses.map Witness.own = produced ++ backups) (blocked : ∀ one ∈ produced, one.block.isSome)
    (open_ : ∀ one ∈ backups, one.block = none) (tickets : List BallotTicket) :
    Counted backups tickets (tickets.foldl Election.addBallotTicket { chain := this }).countWitness ↔
      Orderly produced backups tickets := by
  have size : this.witnesses.length = produced.length + backups.length := by
    rw [← List.length_map (f := Witness.own), split, List.length_append]
  have backup : this.getBackupWitness =
      if min produced.length (this.witnesses.length - 1) < this.witnesses.length then
        some (min produced.length (this.witnesses.length - 1)) else none := by
    rw [@Laid.getBackupWitness_eq this laid produced.length]
    · split
      · next empty => rw [if_neg (by rw [empty]; exact Nat.not_lt_zero _)]
      · next present =>
        have positive := List.length_pos_iff.mpr present
        rw [if_pos (by omega)]
    · intro ref witness found
      have shown : (this.witnesses.map Witness.own)[ref]? = some witness.own := by
        rw [List.getElem?_map, found, Option.map_some]
      rw [split] at shown
      rcases Nat.lt_or_ge ref produced.length with before | behind
      · rw [List.getElem?_append_left before] at shown
        exact iff_of_true (blocked _ (List.mem_of_getElem? shown)) before
      · rw [List.getElem?_append_right behind] at shown
        rw [open_ _ (List.mem_of_getElem? shown)]
        exact iff_of_false Bool.false_ne_true (Nat.not_lt.mpr behind)
  obtain ⟨passed, tallied⟩ := laid.tallied backup tickets
  rw [seen, split] at tallied
  by_cases present : backups = []
  · subst present
    have last : (produced ++ []).drop (min produced.length (this.witnesses.length - 1)) =
        produced.getLast?.toList := by
      rw [List.append_nil, size, List.length_nil, Nat.add_zero, Nat.min_eq_right (Nat.sub_le _ _)]
      cases produced with
      | nil => rfl
      | cons first rest =>
        rw [List.drop_length_sub_one (List.cons_ne_nil first rest), List.getLast?_eq_getLast_of_ne_nil]
        rfl
    rw [tallied.counted_nil_iff, orderly_nil_iff last]
  · have positive := List.length_pos_iff.mpr present
    rw [Nat.min_eq_left (by omega), List.drop_left] at tallied
    exact ⟨tallied.orderly present, tallied.counted⟩

end WitnessChain

/-! ## Two chains -/

/-- A chain of the given witnesses. -/
def chainOf (witnesses : List Mining.Witness) : WitnessChain := witnesses.foldl WitnessChain.addWitness {}

theorem laid_chainOf (witnesses : List Mining.Witness) : (chainOf witnesses).Laid := by
  induction witnesses using List.reverseRecOn with
  | nil => exact WitnessChain.laid_empty
  | append_singleton witnesses one ih =>
    rw [chainOf, List.foldl_append]
    exact ih.addWitness one

/-- Three witnesses without blocks. -/
def threeWitnesses : List Mining.Witness :=
  [{ depositId := [1], addr := [11] }, { depositId := [2], addr := [12] }, { depositId := [3], addr := [13] }]

/-- Two voters for the first witness and one for the second. -/
def ballotsInFront : List BallotTicket :=
  [{ addr := [21], deposit := [1] }, { addr := [22], deposit := [1] }, { addr := [21], deposit := [2] }]

theorem counted_in_front : Counted threeWitnesses ballotsInFront
      (ballotsInFront.foldl Election.addBallotTicket { chain := chainOf threeWitnesses }).countWitness ↔
    Orderly [] threeWitnesses ballotsInFront :=
  @WitnessChain.counted_iff (chainOf threeWitnesses) (laid_chainOf threeWitnesses) [] threeWitnesses rfl nofun
    (by decide) ballotsInFront

/-- One ballot, for the second witness. -/
def ballotBehind : List BallotTicket := [{ addr := [21], deposit := [2] }]

/-- The only witness, which has produced its block. -/
def producedWitness : Mining.Witness :=
  { depositId := [2], addr := [12], block := some { group := 0, height := 0, id? := some [], depositTx := [] } }

/-- The first count does not pass the witness in front without ballots, and a witness with a block is counted when there
is none without. -/
theorem second_counted_as_rest :
    let counts := (ballotBehind.foldl Election.addBallotTicket { chain := chainOf threeWitnesses }).countWitness
    let closed := (ballotBehind.foldl Election.addBallotTicket { chain := chainOf [producedWitness] }).countWitness
    (counts.1.load [12] = none ∧ counts.2.load [12] = some 1 ∧ closed.1.load [12] = some 1) ∧
      ¬ Counted threeWitnesses ballotBehind counts ∧ ¬ Counted [] ballotBehind closed := by
  refine ⟨⟨by decide, by decide, by decide⟩, fun counted => ?_, fun counted => ?_⟩
  · have second := counted.group { depositId := [2], addr := [12] } (by decide) ⟨_, List.mem_singleton_self _, rfl⟩
    exact absurd second (by decide)
  · obtain ⟨one, member, -⟩ := counted.only [12] (.inl (by decide))
    cases member

end PolarCloud.Mining.Pointers
