import PolarCloud.Model.Mining.Pointers

/-! # Groups as segments of the witness chain

The cells of both arenas lie in the order of their links, and the groups list the witnesses from the
first one on. Both operations keep this, and then they do what they do on the chain without pointers.
-/

namespace PolarCloud.Mining.Pointers

namespace WitnessChain

/-! ## The layout of the arenas -/

/-- How many witnesses are in groups. -/
def taken (this : WitnessChain) : ℕ := (this.groups.flatMap WitnessGroup.witness).length

def waiting (this : WitnessChain) : ℕ := this.witnesses.length - this.taken

/-- What every call keeps. -/
structure Laid (this : WitnessChain) : Prop where
  witnesses : Arena.Chained Witness.preWitness Witness.nextWitness this.witnesses
  lastWitness : this.lastWitness = (List.range this.witnesses.length).getLast?
  groups : Arena.Chained WitnessGroup.preGroup WitnessGroup.nextGroup this.groups
  newest : this.group = (List.range this.groups.length).getLast?
  listed : this.groups.flatMap WitnessGroup.witness = List.range this.taken
  enough : this.taken ≤ this.witnesses.length
  owner : ∀ ref group, this.groups[ref]? = some group → ∀ witness ∈ group.witness,
    this.witnesses[witness]?.map Witness.group = some (some ref)

variable {this : WitnessChain}

theorem Laid.within (laid : Laid this) {count : ℕ} (more : ¬ this.waiting < count) :
    this.taken + count ≤ this.witnesses.length := by
  have enough := laid.enough
  rw [waiting] at more
  omega

theorem laid_empty : Laid {} where
  witnesses := Arena.chained_nil
  lastWitness := rfl
  groups := Arena.chained_nil
  newest := rfl
  listed := rfl
  enough := le_rfl
  owner ref group present := by simp at present

/-! ### Adding a witness -/

/-- Both cases of the call at once. -/
theorem Laid.addWitness_eq (laid : Laid this) (newwitness : Mining.Witness) : this.addWitness newwitness =
    { this with
      witnesses := this.witnesses.modify (this.witnesses.length - 1) (.linkNext this.witnesses.length) ++
        [{ preWitness := this.lastWitness, own := newwitness }]
      lastWitness := some this.witnesses.length } := by
  have last := laid.lastWitness
  rw [List.getLast?_range] at last
  rw [addWitness]
  split at last
  · next none =>
    rw [last, List.length_eq_zero_iff.mp none]
    rfl
  · next some =>
    rw [last]

/-- What is not a link is left alone in the witnesses that are there. -/
theorem getElem?_linked {β : Type*} {shown : Witness → β}
    (same : ∀ next witness, shown (.linkNext next witness) = shown witness)
    {witnesses : List Witness} {new : Witness} {ref : ℕ} (inside : ref < witnesses.length) (last next : ℕ) :
    ((witnesses.modify last (.linkNext next) ++ [new])[ref]?).map shown = witnesses[ref]?.map shown := by
  rw [List.getElem?_append_left (by rwa [List.length_modify]), Arena.map_getElem?_modify (same next)]

theorem lt_of_shown {β : Type*} {shown : Witness → β} {witnesses : List Witness} {ref : ℕ} {value : β}
    (found : witnesses[ref]?.map shown = some value) : ref < witnesses.length := by
  by_contra outside
  rw [List.getElem?_eq_none (Nat.not_lt.mp outside)] at found
  cases found

theorem Laid.addWitness (laid : Laid this) (newwitness : Mining.Witness) : Laid (this.addWitness newwitness) := by
  rw [laid.addWitness_eq]
  constructor
  · refine laid.witnesses.snoc ?_ ?_ ?_ ?_
    · exact fun _ => rfl
    · exact fun _ => rfl
    · exact laid.lastWitness
    · rfl
  · rw [List.getLast?_range, List.length_append, List.length_modify]
    rfl
  · exact laid.groups
  · exact laid.newest
  · exact laid.listed
  · rw [List.length_append, List.length_modify]
    exact laid.enough.trans (Nat.le_add_right _ _)
  · intro ref group present witness member
    have owner := laid.owner ref group present witness member
    rw [getElem?_linked Witness.group_linkNext (lt_of_shown owner)]
    exact owner

/-! ### Collecting witnesses -/

/-- The witnesses from one on follow in the arena. -/
theorem collect_eq {witnesses : List Witness} (chained : Arena.Chained Witness.preWitness Witness.nextWitness witnesses)
    (count : ℕ) {start : ℕ} (inside : start < witnesses.length) :
    collect witnesses count start = List.range' start (min count (witnesses.length - start)) := by
  induction count generalizing start with
  | zero => simp [collect]
  | succ count ih =>
    have present : witnesses[start]? = some witnesses[start] := List.getElem?_eq_getElem inside
    have next := chained.next_eq start _ present
    rw [collect, present, Option.bind_some, next]
    by_cases more : start + 1 < witnesses.length
    · have size : min (count + 1) (witnesses.length - start) =
          min count (witnesses.length - (start + 1)) + 1 := by omega
      rw [if_pos more, size, List.range'_succ]
      exact congrArg _ (ih more)
    · have size : min (count + 1) (witnesses.length - start) = 1 := by omega
      rw [if_neg more, size]
      rfl

theorem getElem?_setGroups (group : ℕ) (witness : List ℕ) (witnesses : List Witness) (ref : ℕ) :
    (setGroups group witness witnesses)[ref]? =
      witnesses[ref]?.map fun one => if ref ∈ witness then one.setGroup group else one := by
  induction witness generalizing witnesses with
  | nil => simp [setGroups]
  | cons first rest ih =>
    rw [setGroups, List.foldl_cons]
    change (setGroups group rest (witnesses.modify first (.setGroup group)))[ref]? = _
    rw [ih, List.getElem?_modify]
    cases witnesses[ref]? with
    | none => rfl
    | some one =>
      by_cases here : first = ref
      · subst here
        simp [Witness.setGroup]
      · simp [here, Ne.symm here]

theorem map_setGroups {β : Type*} {shown : Witness → β}
    (same : ∀ group witness, shown (.setGroup group witness) = shown witness)
    (group : ℕ) (witness : List ℕ) (witnesses : List Witness) (ref : ℕ) :
    ((setGroups group witness witnesses)[ref]?).map shown = witnesses[ref]?.map shown := by
  rw [getElem?_setGroups, Option.map_map]
  congr 1
  funext one
  by_cases member : ref ∈ witness <;> simp [member, same]

theorem length_setGroups (group : ℕ) (witness : List ℕ) (witnesses : List Witness) :
    (setGroups group witness witnesses).length = witnesses.length := by
  induction witness generalizing witnesses with
  | nil => rfl
  | cons first rest ih => exact (ih _).trans (List.length_modify ..)

theorem chained_setGroups {witnesses : List Witness}
    (chained : Arena.Chained Witness.preWitness Witness.nextWitness witnesses) (group : ℕ) (witness : List ℕ) :
    Arena.Chained Witness.preWitness Witness.nextWitness (setGroups group witness witnesses) := by
  induction witness generalizing witnesses with
  | nil => exact chained
  | cons first rest ih =>
    have step : Arena.Chained Witness.preWitness Witness.nextWitness (witnesses.modify first (.setGroup group)) := by
      refine chained.modify ?_ ?_ first
      · exact fun _ => rfl
      · exact fun _ => rfl
    exact ih step

/-! ### Building a group -/

/-- The chain with a group of the next witnesses. -/
def grown (this : WitnessChain) (count : ℕ) (height : UInt64) : WitnessChain :=
  { this with
    witnesses := setGroups this.groups.length (List.range' this.taken count) this.witnesses
    groups := this.groups.modify (this.groups.length - 1) (.linkNext this.groups.length) ++
      [{ preGroup := this.group, height, witness := List.range' this.taken count }]
    group := some this.groups.length }

/-- The next witnesses become a group, if there are enough of them. -/
def granted (this : WitnessChain) (n height : UInt64) : WitnessChain × Bool :=
  if this.waiting < int n then (this, false) else (this.grown (int n) height, true)

theorem map_linked {β : Type*} {shown : WitnessGroup → β}
    (same : ∀ next group, shown (.linkNext next group) = shown group)
    (groups : List WitnessGroup) (new : WitnessGroup) (last next : ℕ) :
    (groups.modify last (.linkNext next) ++ [new]).map shown = groups.map shown ++ [shown new] := by
  rw [List.map_append, Arena.map_modify (same next)]
  rfl

/-- The witnesses in groups, with those of a new one. -/
theorem listed_grown (laid : Laid this) (count : ℕ) (height : UInt64) :
    (this.grown count height).groups.flatMap WitnessGroup.witness = List.range (this.taken + count) := by
  rw [grown, List.flatMap_def, map_linked WitnessGroup.witness_linkNext, List.flatten_append, ← List.flatMap_def,
    laid.listed, List.flatten_singleton, List.range_eq_range', List.range_eq_range']
  have joined := @List.range'_append_1 0 this.taken count
  rwa [Nat.zero_add] at joined

theorem taken_grown (laid : Laid this) (count : ℕ) (height : UInt64) :
    (this.grown count height).taken = this.taken + count := by
  rw [taken, listed_grown laid, List.length_range]

/-- A group of the longer chain is one from before, up to its link, or the new one. -/
theorem getElem?_linkedGroup {groups : List WitnessGroup} {new group : WitnessGroup} {last next ref : ℕ}
    (found : (groups.modify last (.linkNext next) ++ [new])[ref]? = some group) :
    (∃ old, groups[ref]? = some old ∧ old.witness = group.witness) ∨ ref = groups.length ∧ group = new := by
  rcases Nat.lt_or_ge ref groups.length with inside | outside
  · rw [List.getElem?_append_left (by rwa [List.length_modify])] at found
    have shown := @Arena.map_getElem?_modify _ groups _ _ _ (WitnessGroup.witness_linkNext next) last ref
    rw [found, Option.map_some] at shown
    exact .inl (Option.map_eq_some_iff.mp shown.symm)
  · rw [List.getElem?_append_right (by rwa [List.length_modify]), List.length_modify, List.getElem?_singleton] at found
    split at found
    · cases found
      exact .inr ⟨by omega, rfl⟩
    · cases found

/-- The witnesses of a group are among those in groups. -/
theorem Laid.lt_taken (laid : Laid this) {group : WitnessGroup} (isGroup : group ∈ this.groups) {witness : ℕ}
    (member : witness ∈ group.witness) : witness < this.taken := by
  have listed : witness ∈ this.groups.flatMap WitnessGroup.witness := List.mem_flatMap.mpr ⟨group, isGroup, member⟩
  rwa [laid.listed, List.mem_range] at listed

theorem Laid.grown (laid : Laid this) {count : ℕ} (enough : this.taken + count ≤ this.witnesses.length)
    (height : UInt64) :
    Laid (this.grown count height) := by
  have taken := taken_grown laid count height
  constructor
  · exact chained_setGroups laid.witnesses _ _
  · rw [WitnessChain.grown, length_setGroups]
    exact laid.lastWitness
  · refine laid.groups.snoc ?_ ?_ ?_ ?_
    · exact fun _ => rfl
    · exact fun _ => rfl
    · exact laid.newest
    · rfl
  · rw [WitnessChain.grown, List.getLast?_range, List.length_append, List.length_modify]
    rfl
  · rw [listed_grown laid, taken]
  · rw [taken, WitnessChain.grown, length_setGroups]
    exact enough
  · intro ref group present witness member
    change ((setGroups this.groups.length _ this.witnesses)[witness]?).map Witness.group = _
    rw [getElem?_setGroups]
    rcases getElem?_linkedGroup present with ⟨old, isOld, same⟩ | ⟨rfl, rfl⟩
    · rw [← same] at member
      have before := laid.lt_taken (List.mem_of_getElem? isOld) member
      have outside : witness ∉ List.range' this.taken count := by
        rw [List.mem_range'_1]
        omega
      rw [Option.map_map, ← laid.owner ref old isOld witness member]
      congr 1
      funext one
      exact congrArg Witness.group (if_neg outside)
    · have inside : witness < this.witnesses.length := by
        have bounds := List.mem_range'_1.mp member
        omega
      rw [List.getElem?_eq_getElem inside, Option.map_some, Option.map_some, if_pos member]
      rfl

/-- The calls of the last group are answered from where the groups end. -/
theorem Laid.newGroup_eq (laid : Laid this) (n height : UInt64) (more : this.taken < this.witnesses.length) :
    newGroup this n height this.taken = some (this.granted n height) := by
  have newest := laid.newest
  rw [List.getLast?_range] at newest
  rw [newGroup, granted, collect_eq laid.witnesses _ more, List.length_range', waiting]
  dsimp only
  by_cases few : this.witnesses.length - this.taken < int n
  · rw [if_pos few, if_pos (by omega)]
  · rw [if_neg few, if_neg (by omega), Nat.min_eq_left (Nat.not_lt.mp few), WitnessChain.grown]
    split at newest
    · next empty =>
      rw [newest, List.length_eq_zero_iff.mp empty]
      rfl
    · next present =>
      have last := laid.groups.lastRef_next (show this.groups.length - 1 < this.groups.length by omega)
        (show this.groups.length ≤ this.groups.length + (this.groups.length - 1) by omega)
      rw [newest]
      dsimp only
      rw [last]
      have inside : this.groups.length - 1 < this.groups.length := by omega
      dsimp only [Option.bind_eq_bind, Option.bind_some]
      rw [List.getElem?_append_left (by rwa [List.length_modify]), List.getElem?_modify_eq,
        List.getElem?_eq_getElem inside]
      rfl

/-- Before the first group the call needs a height, and then a witness. -/
theorem Laid.build_first (laid : Laid this) (empty : this.groups = []) (n height : UInt64) :
    this.buildWitnessGroupForNum n height =
      if height = 0 then some (this, false)
      else if this.witnesses = [] then none
      else some (this.granted n height) := by
  have newest : this.group = none := by
    rw [laid.newest, empty]
    rfl
  have last := laid.lastWitness
  have zero : this.taken = 0 := by
    rw [taken, empty]
    rfl
  rw [List.getLast?_range] at last
  rw [buildWitnessGroupForNum, newest]
  dsimp only
  split
  · rfl
  · split at last
    · next noOne =>
      rw [last, if_pos (List.length_eq_zero_iff.mp noOne)]
      rfl
    · next present =>
      have start := laid.witnesses.lastRef_pre (show this.witnesses.length - 1 < this.witnesses.length by omega)
        (show this.witnesses.length - 1 < this.witnesses.length by omega)
      have built := laid.newGroup_eq n height (by omega)
      rw [last, if_neg fun noOne => present (List.length_eq_zero_iff.mpr noOne)]
      dsimp only [Option.bind_eq_bind, Option.bind_some]
      rw [start, Option.bind_some, ← zero, built]

/-- The last witness of the last group is the last one in groups. -/
theorem Laid.tail_eq (laid : Laid this) {group : WitnessGroup} (last : this.groups.getLast? = some group)
    (present : group.witness ≠ []) : group.witness.getLast? = some (this.taken - 1) ∧ 0 < this.taken := by
  obtain ⟨before, split⟩ := List.getLast?_eq_some_iff.mp last
  have listed := laid.listed
  rw [split, List.flatMap_append, List.flatMap_singleton] at listed
  have ends := congrArg List.getLast? listed
  rw [List.getLast?_append_of_ne_nil _ present, List.getLast?_range] at ends
  split at ends
  · exact absurd (List.getLast?_eq_none_iff.mp ends) present
  · exact ⟨ends, by omega⟩

/-- Behind a group the call needs a witness in it, and then one that waits. -/
theorem Laid.build_next (laid : Laid this) {group : WitnessGroup} (last : this.groups.getLast? = some group)
    (n height : UInt64) : this.buildWitnessGroupForNum n height =
      if group.witness = [] then none
      else if this.waiting = 0 then some (this, false)
      else some (this.granted n (if height = 0 then group.height + 1 else height)) := by
  have present : this.groups.length ≠ 0 := by
    intro empty
    rw [List.length_eq_zero_iff.mp empty] at last
    cases last
  have newest := laid.newest
  rw [List.getLast?_range, if_neg present] at newest
  have found : this.groups[this.groups.length - 1]? = some group := by rw [← List.getLast?_eq_getElem?, last]
  have ends := laid.groups.lastRef_next (show this.groups.length - 1 < this.groups.length by omega)
    (show this.groups.length ≤ this.groups.length + (this.groups.length - 1) by omega)
  have chosen : groupHeight this (this.groups.length - 1) height =
      some (if height = 0 then group.height + 1 else height) := by
    rw [groupHeight, ends]
    dsimp only [Option.bind_eq_bind, Option.bind_some]
    rw [found, ite_not]
    split <;> rfl
  generalize (if height = 0 then group.height + 1 else height) = given at chosen ⊢
  rw [buildWitnessGroupForNum, newest]
  dsimp only [Option.bind_eq_bind]
  rw [chosen, Option.bind_some, found, Option.bind_some]
  by_cases empty : group.witness = []
  · rw [if_pos empty, empty]
    rfl
  · obtain ⟨tail, positive⟩ := laid.tail_eq last empty
    have enough := laid.enough
    have within : this.taken - 1 < this.witnesses.length := by omega
    have cell := List.getElem?_eq_getElem within
    have link := laid.witnesses.next_eq _ _ cell
    rw [if_neg empty, tail, Option.bind_some, cell, Option.bind_some, link, waiting, Nat.sub_add_cancel positive]
    by_cases more : this.taken < this.witnesses.length
    · rw [if_pos more, if_neg (by omega)]
      exact laid.newGroup_eq n _ more
    · rw [if_neg more, if_pos (by omega)]

theorem Laid.current_eq (laid : Laid this) : this.group.bind (this.groups[·]?) = this.groups.getLast? := by
  rw [laid.newest, List.getLast?_range, List.getLast?_eq_getElem?]
  split
  · next empty =>
    rw [List.length_eq_zero_iff.mp empty]
    rfl
  · rfl

theorem laid_granted (laid : Laid this) (n height : UInt64) : Laid (this.granted n height).1 := by
  rw [WitnessChain.granted]
  split
  · exact laid
  · next more => exact laid.grown (laid.within more) height

theorem Laid.build (laid : Laid this) {n height : UInt64} {next : WitnessChain} {built : Bool}
    (ran : this.buildWitnessGroupForNum n height = some (next, built)) : Laid next := by
  cases last : this.groups.getLast? with
  | none =>
    rw [laid.build_first (List.getLast?_eq_none_iff.mp last)] at ran
    split at ran
    · cases ran
      exact laid
    · split at ran
      · cases ran
      · have same : (this.granted n height).1 = next := congrArg Prod.fst (Option.some.inj ran)
        exact same ▸ laid_granted laid n height
  | some group =>
    rw [laid.build_next last] at ran
    split at ran
    · cases ran
    · split at ran
      · cases ran
        exact laid
      · have same : (this.granted n _).1 = next := congrArg Prod.fst (Option.some.inj ran)
        exact same ▸ laid_granted laid n _

/-! ## The chain without pointers -/

/-- What the references of a group stand for. -/
def members (this : WitnessChain) (group : WitnessGroup) : List Mining.Witness :=
  group.witness.filterMap fun ref => this.witnesses[ref]?.map Witness.own

def queue (this : WitnessChain) : Mining.WitnessChain where
  groups := this.groups.map fun group => { height := group.height, witness := this.members group }
  waiting := (this.witnesses.drop this.taken).map Witness.own

theorem Laid.members_eq_nil_iff (laid : Laid this) {group : WitnessGroup} (isGroup : group ∈ this.groups) :
    this.members group = [] ↔ group.witness = [] := by
  rw [members, List.filterMap_eq_nil_iff]
  constructor
  · intro nothing
    rw [List.eq_nil_iff_forall_not_mem]
    intro ref member
    have inside : ref < this.witnesses.length := (laid.lt_taken isGroup member).trans_le laid.enough
    have absent := nothing ref member
    rw [List.getElem?_eq_getElem inside] at absent
    cases absent
  · rintro empty ref member
    rw [empty] at member
    cases member

theorem length_waiting (this : WitnessChain) : this.queue.waiting.length = this.waiting := by
  rw [queue, List.length_map, List.length_drop, waiting]

theorem Laid.queue_addWitness (laid : Laid this) (newwitness : Mining.Witness) :
    (this.addWitness newwitness).queue = this.queue.addWitness newwitness := by
  rw [laid.addWitness_eq]
  have groups (group : WitnessGroup) (isGroup : group ∈ this.groups) : members { this with
      witnesses := this.witnesses.modify (this.witnesses.length - 1) (.linkNext this.witnesses.length) ++
        [{ preWitness := this.lastWitness, own := newwitness }]
      lastWitness := some this.witnesses.length } group = this.members group := by
    refine List.filterMap_congr fun ref member => ?_
    exact getElem?_linked Witness.own_linkNext ((laid.lt_taken isGroup member).trans_le laid.enough) _ _
  have waiting : ((this.witnesses.modify (this.witnesses.length - 1) (.linkNext this.witnesses.length) ++
      [({ preWitness := this.lastWitness, own := newwitness } : Witness)]).drop this.taken).map Witness.own =
        (this.witnesses.drop this.taken).map Witness.own ++ [newwitness] := by
    rw [List.map_drop, List.map_append, Arena.map_modify (Witness.own_linkNext _),
      List.drop_append_of_le_length (by rw [List.length_map]; exact laid.enough), List.map_drop]
    rfl
  rw [queue, Mining.WitnessChain.addWitness, queue]
  congr 1
  exact List.map_congr_left fun group isGroup => by rw [groups group isGroup]

theorem own_grown (this : WitnessChain) (count : ℕ) (height : UInt64) (ref : ℕ) :
    ((this.grown count height).witnesses[ref]?).map Witness.own = this.witnesses[ref]?.map Witness.own :=
  map_setGroups Witness.own_setGroup _ _ _ ref

theorem owns_grown (this : WitnessChain) (count : ℕ) (height : UInt64) :
    (this.grown count height).witnesses.map Witness.own = this.witnesses.map Witness.own := by
  apply List.ext_getElem?
  intro ref
  rw [List.getElem?_map, List.getElem?_map, own_grown]

theorem members_grown (this : WitnessChain) (count : ℕ) (height : UInt64) :
    (this.grown count height).members = this.members := by
  funext group
  simp only [members, own_grown]

/-- A granted group takes the next witnesses of the queue. -/
theorem Laid.queue_granted (laid : Laid this) (n height : UInt64) :
    Prod.map queue id (this.granted n height) =
      if this.queue.waiting.length < int n then (this.queue, false)
      else ({ groups := this.queue.groups ++ [{ height, witness := this.queue.waiting.take (int n) }]
              waiting := this.queue.waiting.drop (int n) }, true) := by
  rw [length_waiting, granted]
  split
  · rfl
  · next more =>
    have enough := laid.within more
    have new : this.members { preGroup := this.group, height, witness := List.range' this.taken (int n) } =
        this.queue.waiting.take (int n) := by
      have inside : this.taken + int n ≤ (this.witnesses.map Witness.own).length := by rwa [List.length_map]
      have found := Arena.filterMap_getElem?_range' inside
      rw [queue, List.map_drop, ← found]
      simp only [members, List.getElem?_map]
    refine Prod.ext ?_ rfl
    change (this.grown (int n) height).queue = _
    have behind : ((this.grown (int n) height).witnesses.drop (this.taken + int n)).map Witness.own =
        this.queue.waiting.drop (int n) := by
      rw [List.map_drop, owns_grown, queue, List.map_drop, List.drop_drop]
    rw [queue, members_grown, taken_grown laid, behind, WitnessChain.grown,
      map_linked fun next group => by simp [members], new]
    rfl

/-- The calls on the pointers are those of the chain without them. -/
theorem Laid.queue_build (laid : Laid this) (n height : UInt64) :
    (this.buildWitnessGroupForNum n height).map (Prod.map queue id) = this.queue.buildWitnessGroupForNum n height := by
  have noOne : this.queue.waiting = [] ↔ this.waiting = 0 := by
    rw [← length_waiting, List.length_eq_zero_iff]
  cases last : this.groups.getLast? with
  | none =>
    have empty := List.getLast?_eq_none_iff.mp last
    have zero : this.taken = 0 := by
      rw [taken, empty]
      rfl
    have none_ : this.waiting = 0 ↔ this.witnesses = [] := by
      rw [waiting, zero, Nat.sub_zero, List.length_eq_zero_iff]
    have current : this.queue.current = none := by
      rw [Mining.WitnessChain.current, queue, List.getLast?_map, last]
      rfl
    rw [laid.build_first empty, Mining.WitnessChain.buildWitnessGroupForNum, current]
    by_cases auto : height = 0
    · rw [if_pos auto]
      exact (if_pos auto).symm
    · rw [if_neg auto]
      refine Eq.trans ?_ (if_neg auto).symm
      by_cases nobody : this.witnesses = []
      · rw [if_pos nobody, if_pos (noOne.mpr (none_.mpr nobody))]
        rfl
      · rw [if_neg nobody, if_neg fun nothing => nobody (none_.mp (noOne.mp nothing)), Option.map_some,
          laid.queue_granted]
        rfl
  | some group =>
    have isGroup := List.mem_of_getLast? last
    have current : this.queue.current = some { height := group.height, witness := this.members group } := by
      rw [Mining.WitnessChain.current, queue, List.getLast?_map, last]
      rfl
    rw [laid.build_next last, Mining.WitnessChain.buildWitnessGroupForNum, current]
    by_cases empty : group.witness = []
    · rw [if_pos empty]
      exact (if_pos ((laid.members_eq_nil_iff isGroup).mpr empty)).symm
    · rw [if_neg empty]
      refine Eq.trans ?_ (if_neg fun nothing => empty ((laid.members_eq_nil_iff isGroup).mp nothing)).symm
      by_cases nobody : this.waiting = 0
      · rw [if_pos nobody, if_pos (noOne.mpr nobody)]
        rfl
      · rw [if_neg nobody, if_neg fun nothing => nobody (noOne.mp nothing), Option.map_some, laid.queue_granted]
        rfl

end WitnessChain

end PolarCloud.Mining.Pointers
