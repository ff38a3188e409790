import PolarCloud.Base.Replay
import PolarCloud.Proofs.Mining.WitnessSegments

/-! # Groups that partition the witness chain

A run of calls on an empty chain keeps the groups a partition of the first witnesses, of the requested
sizes and heights, exactly as long as every call is `Sound`: there is a witness to start from, the
current group has one to go on from, the number is not negative as a signed one, and the next height
does not wrap.
-/

namespace PolarCloud.Mining.Pointers

inductive Call where
  | addWitness (newwitness : Mining.Witness)
  | buildWitnessGroupForNum (n height : UInt64)

/-- The chain, until a call panics, with the numbers and heights of the groups that were built. -/
structure History where
  this : Option WitnessChain := some {}
  requests : List (UInt64 × UInt64) := []

/-- The result of building a group. -/
def History.built (history : History) (n height : UInt64) : Option (WitnessChain × Bool) → History
  | none => { history with this := none }
  | some (this, true) => { this := some this, requests := history.requests ++ [(n, height)] }
  | some (this, false) => { history with this := some this }

def History.call (history : History) : Call → History
  | .addWitness newwitness => { history with this := history.this.map (·.addWitness newwitness) }
  | .buildWitnessGroupForNum n height =>
      match history.this with
      | none => history
      | some this => history.built n height (this.buildWitnessGroupForNum n height)

/-- Heights as requested, and one more than before where none was given. -/
inductive Numbered : List UInt64 → List (UInt64 × UInt64) → Prop
  | nil : Numbered [] []
  | given {heights : List UInt64} {requests : List (UInt64 × UInt64)} {n height : UInt64}
    (before : Numbered heights requests)
      (isGiven : height ≠ 0) : Numbered (heights ++ [height]) (requests ++ [(n, height)])
  | next {heights : List UInt64} {requests : List (UInt64 × UInt64)} {n last height : UInt64}
      (before : Numbered heights requests) (isLast : heights.getLast? = some last)
      (isNext : height.toNat = last.toNat + 1) : Numbered (heights ++ [height]) (requests ++ [(n, 0)])

namespace WitnessChain

/-- From the last witness along `PreWitness`. -/
def firstWitness (this : WitnessChain) : Option ℕ :=
  this.lastWitness.bind (Arena.lastRef Witness.preWitness this.witnesses this.witnesses.length)

/-- From the current group along `PreGroup`. -/
def firstGroup (this : WitnessChain) : Option ℕ :=
  this.group.bind (Arena.lastRef WitnessGroup.preGroup this.groups this.groups.length)

/-- The groups that were built, from first to last, are consecutive segments of the witnesses. -/
structure Partition (this : WitnessChain) (requests : List (UInt64 × UInt64)) : Prop where
  /-- along `NextWitness` -/
  onwards : Arena.Path Witness.nextWitness this.witnesses this.firstWitness (List.range this.witnesses.length)
  preWitness : Arena.Inverse Witness.preWitness Witness.nextWitness this.witnesses
  lastWitness : this.lastWitness = (List.range this.witnesses.length).getLast?
  /-- along `NextGroup` -/
  onwardsGroup : Arena.Path WitnessGroup.nextGroup this.groups this.firstGroup (List.range this.groups.length)
  preGroup : Arena.Inverse WitnessGroup.preGroup WitnessGroup.nextGroup this.groups
  newest : this.group = (List.range this.groups.length).getLast?
  segments : this.groups.flatMap WitnessGroup.witness <+: List.range this.witnesses.length
  owner : ∀ ref group, this.groups[ref]? = some group → ∀ witness ∈ group.witness,
    this.witnesses[witness]?.map Witness.group = some (some ref)
  sizes : this.groups.map (fun group => group.witness.length) = requests.map fun request => request.1.toNat
  heights : Numbered (this.groups.map WitnessGroup.height) requests

/-- A call that keeps the groups a partition. -/
def Sound (this : WitnessChain) : Call → Prop
  | .addWitness _ => True
  | .buildWitnessGroupForNum n height =>
      match this.group.bind (this.groups[·]?) with
      | none => height = 0 ∨ this.lastWitness ≠ none ∧ n.toNat < 2 ^ 63
      | some group =>
          group.witness ≠ [] ∧ (this.waiting = 0 ∨
            n.toNat < 2 ^ 63 ∧ (this.waiting < n.toNat ∨ height ≠ 0 ∨ group.height.toNat + 1 < 2 ^ 64))

variable {this : WitnessChain} {requests : List (UInt64 × UInt64)}

/-- Only the sizes and the heights depend on the calls. -/
theorem Laid.partition_iff (laid : Laid this) : this.Partition requests ↔
    this.groups.map (fun group => group.witness.length) = requests.map (fun request => request.1.toNat) ∧
      Numbered (this.groups.map WitnessGroup.height) requests := by
  refine ⟨fun partition_ => ⟨partition_.sizes, partition_.heights⟩, fun ⟨sizes, heights⟩ => ?_⟩
  constructor
  · rw [firstWitness, laid.lastWitness, laid.witnesses.first_eq]
    exact laid.witnesses.path_all
  · exact laid.witnesses.inverse
  · exact laid.lastWitness
  · rw [firstGroup, laid.newest, laid.groups.first_eq]
    exact laid.groups.path_all
  · exact laid.groups.inverse
  · exact laid.newest
  · rw [laid.listed]
    exact List.prefix_iff_eq_take.mpr (by rw [List.length_range, List.take_range, Nat.min_eq_left laid.enough])
  · exact laid.owner
  · exact sizes
  · exact heights

end WitnessChain

/-! ## One call -/

theorem int_eq (n : UInt64) : WitnessChain.int n = if n.toNat < 2 ^ 63 then n.toNat else 0 := by
  have bound := n.toNat_lt
  have signed : n.toInt64.toInt = if 2 * n.toNat < 2 ^ 64 then (n.toNat : ℤ) else (n.toNat : ℤ) - (2 ^ 64 : ℕ) :=
    BitVec.toInt_eq_toNat_cond n.toBitVec
  rw [WitnessChain.int, signed]
  split <;> split <;> omega

theorem numbered_concat_iff {heights : List UInt64} {requests : List (UInt64 × UInt64)} {n given height : UInt64} :
    Numbered (heights ++ [given]) (requests ++ [(n, height)]) ↔ Numbered heights requests ∧
      (height ≠ 0 ∧ given = height ∨ height = 0 ∧
        ∃ last, heights.getLast? = some last ∧ given.toNat = last.toNat + 1) := by
  constructor
  · intro numbered
    generalize whole : heights ++ [given] = all at numbered
    generalize wholeRequests : requests ++ [(n, height)] = allRequests at numbered
    cases numbered with
    | nil => simp at whole
    | given before isGiven =>
      obtain ⟨rfl, same⟩ := List.append_inj' whole rfl
      obtain ⟨rfl, sameRequest⟩ := List.append_inj' wholeRequests rfl
      cases same
      cases sameRequest
      exact ⟨before, .inl ⟨isGiven, rfl⟩⟩
    | next before isLast isNext =>
      obtain ⟨rfl, same⟩ := List.append_inj' whole rfl
      obtain ⟨rfl, sameRequest⟩ := List.append_inj' wholeRequests rfl
      cases same
      cases sameRequest
      exact ⟨before, .inr ⟨rfl, _, isLast, isNext⟩⟩
  · rintro ⟨before, ⟨isGiven, rfl⟩ | ⟨rfl, last, isLast, isNext⟩⟩
    · exact .given before isGiven
    · exact .next before isLast isNext

namespace WitnessChain

variable {this : WitnessChain} {requests : List (UInt64 × UInt64)}

theorem Laid.partition_addWitness (laid : Laid this) (partition_ : this.Partition requests)
    (newwitness : Mining.Witness) :
    (this.addWitness newwitness).Partition requests := by
  rw [(laid.addWitness newwitness).partition_iff, laid.addWitness_eq]
  exact laid.partition_iff.mp partition_

/-- A new group keeps the partition when it has the requested size and height. -/
theorem Laid.partition_grown_iff (laid : Laid this) (partition_ : this.Partition requests) {n given height : UInt64}
    (enough : this.taken + int n ≤ this.witnesses.length) :
    (this.grown (int n) given).Partition (requests ++ [(n, height)]) ↔ int n = n.toNat ∧
      (height ≠ 0 ∧ given = height ∨
        height = 0 ∧
          ∃ last, (this.groups.map WitnessGroup.height).getLast? = some last ∧ given.toNat = last.toNat + 1) := by
  obtain ⟨sizes, heights⟩ := laid.partition_iff.mp partition_
  rw [(laid.grown enough given).partition_iff, WitnessChain.grown, map_linked fun _ _ => rfl,
    map_linked WitnessGroup.height_linkNext, List.map_append, numbered_concat_iff, and_iff_right heights, sizes]
  refine and_congr_left fun _ => ?_
  rw [List.append_cancel_left_eq, List.length_range', List.map_singleton, List.singleton_inj]

/-- A call that returns `false` changes nothing. -/
theorem eq_of_build_false {next : WitnessChain} {n height : UInt64}
    (ran : this.buildWitnessGroupForNum n height = some (next, false)) : next = this := by
  have unbuilt (given : UInt64) (start : ℕ) (ran : this.newGroup n given start = some (next, false)) : next = this := by
    rw [newGroup] at ran
    dsimp only at ran
    split at ran
    · cases ran
      rfl
    · split at ran
      · cases ran
      · obtain ⟨last, -, ran⟩ := Option.bind_eq_some_iff.mp ran
        obtain ⟨group, -, ran⟩ := Option.bind_eq_some_iff.mp ran
        cases ran
  rw [buildWitnessGroupForNum] at ran
  split at ran
  · split at ran
    · cases ran
      rfl
    · obtain ⟨last, -, ran⟩ := Option.bind_eq_some_iff.mp ran
      obtain ⟨start, -, ran⟩ := Option.bind_eq_some_iff.mp ran
      exact unbuilt _ _ ran
  · obtain ⟨given, -, ran⟩ := Option.bind_eq_some_iff.mp ran
    obtain ⟨group, -, ran⟩ := Option.bind_eq_some_iff.mp ran
    obtain ⟨tail, -, ran⟩ := Option.bind_eq_some_iff.mp ran
    obtain ⟨tail, -, ran⟩ := Option.bind_eq_some_iff.mp ran
    split at ran
    · cases ran
      rfl
    · exact unbuilt _ _ ran

end WitnessChain

namespace History

/-- No call has panicked, and the groups are a partition. -/
def Partitioned (history : History) : Prop := ∃ this, history.this = some this ∧ this.Partition history.requests

def Known (history : History) : Prop := ∀ this, history.this = some this → this.Laid

def Safe (history : History) (call : Call) : Prop := ∀ this, history.this = some this → this.Sound call

theorem partitioned_mk {this : WitnessChain} {requests : List (UInt64 × UInt64)} :
    Partitioned { this := some this, requests } ↔ this.Partition requests :=
  ⟨fun ⟨_, same, partition_⟩ => Option.some.inj same ▸ partition_, fun partition_ => ⟨this, rfl, partition_⟩⟩

theorem known_call (history : History) (call : Call) (known : history.Known) : (history.call call).Known := by
  intro next isNext
  cases call with
  | addWitness newwitness =>
    obtain ⟨this, isThis, rfl⟩ := Option.map_eq_some_iff.mp isNext
    exact (known this isThis).addWitness newwitness
  | buildWitnessGroupForNum n height =>
    rw [call] at isNext
    split at isNext
    · next noChain =>
      rw [noChain] at isNext
      cases isNext
    · next this isThis =>
      cases ran : this.buildWitnessGroupForNum n height with
      | none =>
        rw [ran] at isNext
        cases isNext
      | some result =>
        obtain ⟨after, built⟩ := result
        rw [ran] at isNext
        have same : after = next := by cases built <;> exact Option.some.inj isNext
        exact same ▸ (known this isThis).build ran

/-- What a call with witnesses to take keeps. -/
theorem partitioned_granted_iff {history : History} {this : WitnessChain} (laid : this.Laid)
    (partition_ : this.Partition history.requests) {n given height : UInt64} :
    (history.built n height (some (this.granted n given))).Partitioned ↔
      n.toNat < 2 ^ 63 ∧ (this.waiting < n.toNat ∨ (height ≠ 0 ∧ given = height ∨
        height = 0 ∧
          ∃ last, (this.groups.map WitnessGroup.height).getLast? = some last ∧ given.toNat = last.toNat + 1)) := by
  rw [WitnessChain.granted]
  have size := int_eq n
  split
  · next few =>
    refine iff_of_true ⟨this, rfl, partition_⟩ ?_
    split at size
    · next small => exact ⟨small, .inl (size ▸ few)⟩
    · omega
  · next more =>
    rw [built, partitioned_mk, laid.partition_grown_iff partition_ (laid.within more)]
    split at size
    · next small =>
      rw [and_iff_right size, and_iff_right small, or_iff_right (show ¬ this.waiting < n.toNat by omega)]
    · next large => exact iff_of_false (fun kept => by omega) fun kept => large kept.1

/-- The height of a group that follows is the given one, or the next one, which is zero after the greatest. -/
theorem follows_iff (before height : UInt64) :
    (height ≠ 0 ∧ (if height = 0 then before + 1 else height) = height ∨
      height = 0 ∧ ∃ last, some before = some last ∧
        (if height = 0 then before + 1 else height).toNat = last.toNat + 1) ↔
      height ≠ 0 ∨ before.toNat + 1 < 2 ^ 64 := by
  by_cases auto : height = 0
  · rw [if_pos auto, or_iff_right fun given => given.1 auto, or_iff_right fun given => given auto, and_iff_right auto,
      UInt64.toNat_add]
    have bound := before.toNat_lt
    constructor
    · rintro ⟨last, same, next⟩
      cases same
      change (before.toNat + 1) % 2 ^ 64 = _ at next
      omega
    · intro small
      exact ⟨before, rfl, Nat.mod_eq_of_lt small⟩
  · rw [if_neg auto]
    exact iff_of_true (.inl ⟨auto, rfl⟩) (.inl auto)

theorem not_partitioned_none {history : History} {n height : UInt64} : ¬ (history.built n height none).Partitioned := by
  rintro ⟨this, isThis, -⟩
  cases isThis

/-- Building the first group. -/
theorem partitioned_first_iff {history : History} {this : WitnessChain} (laid : this.Laid)
    (partition_ : this.Partition history.requests) (empty : this.groups = []) (n height : UInt64) :
    (history.built n height (this.buildWitnessGroupForNum n height)).Partitioned ↔
      height = 0 ∨ this.lastWitness ≠ none ∧ n.toNat < 2 ^ 63 := by
  have start := laid.lastWitness
  rw [List.getLast?_range] at start
  rw [laid.build_first empty]
  by_cases auto : height = 0
  · rw [if_pos auto]
    exact iff_of_true ⟨this, rfl, partition_⟩ (.inl auto)
  · rw [if_neg auto, or_iff_right auto]
    split at start
    · next zero =>
      rw [if_pos (List.length_eq_zero_iff.mp zero)]
      exact iff_of_false not_partitioned_none fun sound => sound.1 start
    · next someone =>
      have present : this.lastWitness ≠ none := by
        rw [start]
        exact Option.some_ne_none _
      rw [if_neg fun noOne => someone (List.length_eq_zero_iff.mpr noOne), partitioned_granted_iff laid partition_,
        and_iff_right present]
      exact and_iff_left (Or.inr (Or.inl ⟨auto, rfl⟩))

/-- Building a group behind another one. -/
theorem partitioned_next_iff {history : History} {this : WitnessChain} (laid : this.Laid)
    (partition_ : this.Partition history.requests) {group : WitnessGroup} (last : this.groups.getLast? = some group)
    (n height : UInt64) :
    (history.built n height (this.buildWitnessGroupForNum n height)).Partitioned ↔
      group.witness ≠ [] ∧ (this.waiting = 0 ∨
        n.toNat < 2 ^ 63 ∧ (this.waiting < n.toNat ∨ height ≠ 0 ∨ group.height.toNat + 1 < 2 ^ 64)) := by
  rw [laid.build_next last]
  split
  · next empty => exact iff_of_false not_partitioned_none fun sound => sound.1 empty
  · next present =>
    rw [and_iff_right present]
    split
    · next noOne => exact iff_of_true ⟨this, rfl, partition_⟩ (.inl noOne)
    · next someone =>
      rw [or_iff_right someone, partitioned_granted_iff laid partition_, List.getLast?_map, last]
      exact and_congr_right fun _ => or_congr_right (follows_iff group.height height)

/-- A call keeps the partition exactly when it is sound. -/
theorem partitioned_call_iff (history : History) (call : Call) (known : history.Known) (kept : history.Partitioned) :
    (history.call call).Partitioned ↔ history.Safe call := by
  obtain ⟨this, isThis, partition_⟩ := kept
  have laid := known this isThis
  have safe : history.Safe call ↔ this.Sound call :=
    ⟨fun safe => safe this isThis, fun sound other isOther => Option.some.inj (isThis.symm.trans isOther) ▸ sound⟩
  rw [safe]
  cases call with
  | addWitness newwitness =>
    refine iff_of_true ⟨this.addWitness newwitness, ?_, laid.partition_addWitness partition_ newwitness⟩ trivial
    rw [call, isThis]
    rfl
  | buildWitnessGroupForNum n height =>
    have ran : history.call (.buildWitnessGroupForNum n height) =
        history.built n height (this.buildWitnessGroupForNum n height) := by
      rw [call, isThis]
    rw [ran, WitnessChain.Sound, laid.current_eq]
    cases last : this.groups.getLast? with
    | none => exact partitioned_first_iff laid partition_ (List.getLast?_eq_none_iff.mp last) n height
    | some group => exact partitioned_next_iff laid partition_ last n height

end History

/-! ## Runs -/

/-- A call that returns `false` changes nothing, and in a run of calls on an empty chain no call panics and the groups
are a partition after every call, exactly when every call is sound. -/
theorem always_partitioned_iff (calls : List Call) :
    (∀ (this next : WitnessChain) (n height : UInt64),
      this.buildWitnessGroupForNum n height = some (next, false) → next = this) ∧
    (Replay.Always History.call {} History.Partitioned calls ↔ Replay.Each History.call {} History.Safe calls) := by
  refine ⟨fun this next n height => WitnessChain.eq_of_build_false,
    @Replay.always_iff_each _ _ History.call {} History.Partitioned History.Known History.Safe ?_ ?_ ?_ ?_ calls⟩
  · exact History.partitioned_mk.mpr (WitnessChain.laid_empty.partition_iff.mpr ⟨rfl, .nil⟩)
  · rintro this isThis
    cases isThis
    exact WitnessChain.laid_empty
  · exact fun history call known _ => history.known_call call known
  · exact fun history call known kept => history.partitioned_call_iff call known kept

/-- A group is built before any witness is there, or after a group of no witnesses. -/
theorem empty_chain_or_group_panics :
    ¬ Replay.Always History.call {} History.Partitioned [.buildWitnessGroupForNum 1 2] ∧
    ¬ Replay.Always History.call {} History.Partitioned
      [.addWitness { depositId := [], addr := [] }, .buildWitnessGroupForNum 0 2, .buildWitnessGroupForNum 1 0] := by
  constructor
  · refine Replay.not_always rfl ?_
    rintro ⟨this, isThis, -⟩
    cases isThis
  · refine Replay.not_always rfl ?_
    rintro ⟨this, isThis, -⟩
    cases isThis

end PolarCloud.Mining.Pointers
