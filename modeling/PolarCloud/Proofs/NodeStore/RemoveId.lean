import PolarCloud.Proofs.NodeStore.Slots
import PolarCloud.Proofs.NodeStore.SuperPeer

/-! # Removing an id from its slots

A slot that held the id gets the second one of the list of all ids, sorted from the slot on. That is the nearest of the
ids that remain as long as the removed one was the nearest of all; and it is made anew from its number. As every slot
is filled with an id that remains, the list is the same at each turn.
-/

namespace PolarCloud.NodeStore.Ids

variable {root id one : Multihash} {idm now later : Ids} {i k : ℕ} {range : List Multihash → List Multihash}

/-- The nearest among the ids other than one. -/
structure NextTo (ids : List Multihash) (target : ℕ) (id one : Multihash) : Prop where
  mem : one ∈ ids
  other : one ≠ id
  least : ∀ two ∈ ids, two ≠ id → target ^^^ one.number ≤ target ^^^ two.number

/-- What the removal of an id promises. Where others remain, no slot holds it, all slots hold ids that they held before,
and where it was there is now the nearest of the others. Where none remains, the table is empty. -/
def Removed (this : Ids) (ranges : ℕ → List Multihash → List Multihash) (id : Multihash) : Prop :=
  ∃ after, this.removeId ranges id = some after ∧
    ((∃ one ∈ this.ids, one ≠ id) → id ∉ after.ids ∧ (∀ one ∈ after.ids, one ∈ this.ids) ∧
      ∀ i, this.ids[i]? = some id → ∃ one, after.ids[i]? = some one ∧ NextTo this.ids (place this.root i) id one) ∧
    ((∀ one ∈ this.ids, one = id) → after.held = [])

/-- A table from which an id can be removed: another one is there, and for each slot that holds it the id is the nearest
of all, and the nearest of the others has a digest that does not begin with a zero byte. -/
structure Removable (this : Ids) (id : Multihash) : Prop where
  others : ∃ one ∈ this.ids, one ≠ id
  nearest : ∀ i, this.ids[i]? = some id → ∀ one ∈ this.ids,
    place this.root i ^^^ id.number ≤ place this.root i ^^^ one.number
  leading : ∀ i, this.ids[i]? = some id → ∀ one, NextTo this.ids (place this.root i) id one → one.data.head? ≠ some 0

/-- A filled table whose ids are made by nodes. -/
structure Standing (this : Ids) : Prop where
  rootId : IsNodeId this.root
  length : this.ids.length = nodeIdLevel
  nodeIds : ∀ one ∈ this.ids, IsNodeId one
  counted : this.count ≠ 0

/-! ## The second of a sorted list -/

section Second

variable {ids : List Multihash} {kl : Kademlia} {target : ℕ}

/-- The second of the list is the nearest of the others, if the first is the id. -/
theorem second_of_nearest (nodeIds : ∀ one ∈ ids, IsNodeId one) (nodup : kl.nodes.Nodup)
    (numbers : ∀ number, number ∈ kl.nodes ↔ ∃ one ∈ ids, one.number = number) (mem : id ∈ ids)
    (nearest : ∀ one ∈ ids, target ^^^ id.number ≤ target ^^^ one.number) (next : NextTo ids target id one) :
    (kl.get target)[1]? = some one.number := by
  have sorted := Kademlia.get_sorted target nodup
  have inside (two : Multihash) (mem : two ∈ ids) : two.number ∈ kl.get target :=
    Kademlia.mem_get.mpr ((numbers _).mpr ⟨two, mem, rfl⟩)
  have owner {number : ℕ} (mem : number ∈ kl.get target) : ∃ two ∈ ids, two.number = number :=
    (numbers _).mp (Kademlia.mem_get.mp mem)
  cases list : kl.get target with
  | nil =>
    have none := inside id mem
    rw [list] at none
    cases none
  | cons first rest =>
    rw [list, List.pairwise_cons] at sorted
    -- the id is the first of the list
    obtain ⟨two, stored, same⟩ := owner (list ▸ List.mem_cons_self)
    have head : first = id.number := by
      have there := inside id mem
      rw [list] at there
      rcases List.mem_cons.mp there with equal | behind
      · exact equal.symm
      · have near := nearest two stored
        rw [same] at near
        exact absurd (sorted.1 _ behind) near.not_gt
    have behind : one.number ∈ rest := by
      have there := inside one next.mem
      rw [list, head] at there
      apply (List.mem_cons.mp there).resolve_left
      exact fun equal => next.other ((nodeIds one next.mem).number_inj (nodeIds id mem) equal)
    cases rest with
    | nil => cases behind
    | cons second rest =>
      obtain ⟨three, stored', same'⟩ := owner (list ▸ List.mem_cons_of_mem _ List.mem_cons_self)
      have apart : three ≠ id := by
        rintro rfl
        exact (sorted.1 second List.mem_cons_self).ne (by rw [head, same'])
      have least := next.least three stored' apart
      rw [same'] at least
      rw [List.getElem?_cons_succ, List.getElem?_cons_zero]
      rcases List.mem_cons.mp behind with equal | farther
      · rw [equal]
      · exact absurd ((List.pairwise_cons.mp sorted.2).1 _ farther) least.not_gt

/-- If the second of the list is the nearest of the others, the first is the id. -/
theorem nearest_of_second (nodup : kl.nodes.Nodup)
    (numbers : ∀ number, number ∈ kl.nodes ↔ ∃ one ∈ ids, one.number = number)
    (second : (kl.get target)[1]? = some one.number) (next : NextTo ids target id one) :
    ∀ two ∈ ids, target ^^^ id.number ≤ target ^^^ two.number := by
  have sorted := Kademlia.get_sorted target nodup
  cases list : kl.get target with
  | nil =>
    rw [list] at second
    cases second
  | cons first rest =>
    rw [list, List.pairwise_cons] at sorted
    rw [list, List.getElem?_cons_succ] at second
    have nearer := sorted.1 _ (List.mem_of_getElem? second)
    obtain ⟨two, stored, rfl⟩ := (numbers first).mp (Kademlia.mem_get.mp (list ▸ List.mem_cons_self))
    have own : two = id := by
      by_contra apart
      exact (next.least two stored apart).not_gt nearer
    intro three stored'
    have there : three.number ∈ kl.get target := Kademlia.mem_get.mpr ((numbers _).mpr ⟨three, stored', rfl⟩)
    rw [list, own] at there
    rw [own] at sorted
    rcases List.mem_cons.mp there with equal | behind
    · rw [equal]
    · exact (sorted.1 _ behind).le

/-- Without another id there is no second. -/
theorem no_second (nodup : kl.nodes.Nodup)
    (numbers : ∀ number, number ∈ kl.nodes ↔ ∃ one ∈ ids, one.number = number) (only : ∀ one ∈ ids, one = id) :
    (kl.get target)[1]? = none := by
  have sorted := Kademlia.get_sorted target nodup
  have same {number : ℕ} (mem : number ∈ kl.get target) : number = id.number := by
    obtain ⟨one, stored, rfl⟩ := (numbers _).mp (Kademlia.mem_get.mp mem)
    rw [only one stored]
  match list : kl.get target with
  | [] => rfl
  | [_] => rfl
  | first :: second :: rest =>
    rw [list] at sorted same
    have nearer := (List.pairwise_cons.mp sorted).1 second List.mem_cons_self
    rw [same List.mem_cons_self, same (List.mem_cons_of_mem _ List.mem_cons_self)] at nearer
    exact absurd nearer (lt_irrefl _)

end Second

/-! ## One turn -/

theorem getNodeNetworkNum_getElem? (root : Multihash) {i : ℕ} (level : i < nodeIdLevel) :
    (getNodeNetworkNum root nodeIdLevel)[i]? = some (Multihash.ofNumber (place root i)) := by
  rw [getNodeNetworkNum, List.getElem?_map, List.getElem?_range level]
  rfl

/-- A slot without the id stays as it is. -/
theorem removeAt_other (present : now.ids[i]? = some one) (filled : one ≠ []) (other : one ≠ id) :
    now.removeAt range id i = some now := by
  rw [removeAt, present, Option.bind_eq_bind, Option.bind_some, if_neg filled, if_neg other]

/-- The list from which a slot is filled. -/
def nearIds (now : Ids) (range : List Multihash → List Multihash) : Kademlia :=
  (now.getIds range).foldl (fun kl one => kl.add one.number) (Kademlia.mk [])

theorem nodup_nearIds (now : Ids) (range : List Multihash → List Multihash) : (now.nearIds range).nodes.Nodup :=
  Kademlia.nodup_addIds List.nodup_nil _

theorem mem_nearIds (counted : now.count ≠ 0) (perm : ∀ ids, (range ids).Perm ids) (number : ℕ) :
    number ∈ (now.nearIds range).nodes ↔ ∃ one ∈ now.ids, one.number = number := by
  rw [nearIds, Kademlia.mem_addIds, getIds, if_neg counted, or_iff_right List.not_mem_nil]
  simp only [(perm _).mem_iff, List.mem_dedup]

/-- A slot with the id gets the second one of the list. -/
theorem removeAt_own (standing : now.Standing) (nodeId : id ≠ []) (present : now.ids[i]? = some id) :
    now.removeAt range id i = ((now.nearIds range).get (place now.root i))[1]?.map
      fun number => { now with ids := now.ids.set i (Multihash.ofNumber number) } := by
  have level : i < nodeIdLevel := by
    rw [← standing.length]
    exact (List.getElem?_eq_some_iff.mp present).1
  rw [removeAt, present, Option.bind_eq_bind, Option.bind_some, if_neg nodeId, if_pos rfl]
  simp only [standing.length, getNodeNetworkNum_getElem? now.root level, Option.bind_some,
    number_networkNum standing.rootId level]
  rw [Option.map_eq_bind]
  rfl

/-- A turn changes no slot but its own, and that one only if it holds the id. -/
theorem removeAt_frame (turn : now.removeAt range id i = some later) :
    later.root = now.root ∧ later.count = now.count ∧ later.ids.length = now.ids.length ∧
      (∀ j, j ≠ i → later.ids[j]? = now.ids[j]?) ∧ (now.ids[i]? ≠ some id → later = now) := by
  rw [removeAt] at turn
  cases present : now.ids[i]? with
  | none =>
    rw [present] at turn
    cases turn
  | some one =>
    rw [present, Option.bind_eq_bind, Option.bind_some] at turn
    split at turn
    · cases turn
    · split at turn
      · next own =>
        obtain ⟨netID, -, turn⟩ := Option.bind_eq_some_iff.mp turn
        obtain ⟨nearId, -, turn⟩ := Option.bind_eq_some_iff.mp turn
        cases turn
        refine ⟨rfl, rfl, List.length_set, fun j other => ?_, fun apart => ?_⟩
        · exact List.getElem?_set_ne other.symm
        · exact absurd (by rw [own]) apart
      · cases turn
        exact ⟨rfl, rfl, rfl, fun _ _ => rfl, fun _ => rfl⟩

/-! ## All turns -/

/-- The first turns of a removal. -/
def turns (idm : Ids) (ranges : ℕ → List Multihash → List Multihash) (id : Multihash) (k : ℕ) : Option Ids :=
  (List.range k).foldlM (fun idm i => idm.removeAt (ranges i) id i) idm

variable {ranges : ℕ → List Multihash → List Multihash}

theorem turns_succ (idm : Ids) (k : ℕ) :
    idm.turns ranges id (k + 1) = (idm.turns ranges id k).bind fun now => now.removeAt (ranges k) id k := by
  rw [turns, List.range_succ, List.foldlM_append]
  simp only [List.foldlM_cons, List.foldlM_nil, bind_pure]
  rfl

/-- What the first turns leave as it was. -/
structure Frame (idm : Ids) (id : Multihash) (k : ℕ) (now : Ids) : Prop where
  root : now.root = idm.root
  count : now.count = idm.count
  length : now.ids.length = idm.ids.length
  behind : ∀ i : ℕ, k ≤ i → now.ids[i]? = idm.ids[i]?
  kept : ∀ i : ℕ, idm.ids[i]? ≠ some id → now.ids[i]? = idm.ids[i]?

theorem turns_frame {k : ℕ} (run : idm.turns ranges id k = some now) : Frame idm id k now := by
  induction k generalizing now with
  | zero =>
    cases run
    exact ⟨rfl, rfl, rfl, fun _ _ => rfl, fun _ _ => rfl⟩
  | succ k ih =>
    rw [turns_succ] at run
    obtain ⟨before, run, turn⟩ := Option.bind_eq_some_iff.mp run
    obtain ⟨root, count, length, behind, kept⟩ := ih run
    obtain ⟨root', count', length', others, same⟩ := removeAt_frame turn
    refine ⟨root'.trans root, count'.trans count, length'.trans length, fun i later => ?_, fun i apart => ?_⟩
    · rw [others i (by omega)]
      apply behind
      omega
    · by_cases here : i = k
      · subst here
        rw [same (by rwa [kept i apart])]
        exact kept i apart
      · rw [others i here]
        exact kept i apart

/-- The slots of the first turns are not touched by later ones. -/
theorem turns_before {n : ℕ} {final : Ids} (run : idm.turns ranges id n = some final) (before : k ≤ n) :
    ∃ now, idm.turns ranges id k = some now ∧ ∀ i < k, now.ids[i]? = final.ids[i]? := by
  induction n generalizing final with
  | zero =>
    rw [Nat.le_zero.mp before]
    exact ⟨final, run, fun _ _ => rfl⟩
  | succ n ih =>
    rcases Nat.le_succ_iff.mp before with earlier | rfl
    · rw [turns_succ] at run
      obtain ⟨middle, run, turn⟩ := Option.bind_eq_some_iff.mp run
      obtain ⟨now, first, same⟩ := ih run earlier
      refine ⟨now, first, fun i inside => ?_⟩
      rw [same i inside, (removeAt_frame turn).2.2.2.1 i (by omega)]
    · exact ⟨final, run, fun _ _ => rfl⟩

namespace Frame

/-- As long as what was filled holds ids that were there, the ids in the slots are the same at each turn. -/
theorem mem_ids_iff (frame : Frame idm id k now) (present : idm.ids[k]? = some id)
    (filled : ∀ i < k, idm.ids[i]? = some id → ∃ one ∈ idm.ids, now.ids[i]? = some one) :
    one ∈ now.ids ↔ one ∈ idm.ids := by
  constructor
  · intro mem
    obtain ⟨i, there⟩ := List.mem_iff_getElem?.mp mem
    by_cases own : idm.ids[i]? = some id
    · by_cases done : i < k
      · obtain ⟨two, mem, now⟩ := filled i done own
        rw [there] at now
        cases now
        exact mem
      · rw [frame.behind i (by omega)] at there
        exact List.mem_of_getElem? there
    · rw [frame.kept i own] at there
      exact List.mem_of_getElem? there
  · intro mem
    by_cases own : one = id
    · rw [own]
      apply List.mem_iff_getElem?.mpr
      exact ⟨k, (frame.behind k le_rfl).trans present⟩
    · obtain ⟨i, there⟩ := List.mem_iff_getElem?.mp mem
      apply List.mem_iff_getElem?.mpr
      refine ⟨i, ?_⟩
      rw [frame.kept i]
      · exact there
      · rw [there, ne_eq, Option.some_inj]
        exact own

theorem standing (frame : Frame idm id k now) (standing : idm.Standing) (same : ∀ one, one ∈ now.ids ↔ one ∈ idm.ids) :
    now.Standing where
  rootId := frame.root ▸ standing.rootId
  length := frame.length.trans standing.length
  nodeIds one mem := standing.nodeIds one ((same one).mp mem)
  counted := frame.count ▸ standing.counted

end Frame

/-- The numbers from which a slot is filled are those of the ids of the table. -/
theorem numbers_iff (same : ∀ one, one ∈ now.ids ↔ one ∈ idm.ids) (counted : now.count ≠ 0)
    (perm : ∀ ids, (range ids).Perm ids) (number : ℕ) :
    number ∈ (now.nearIds range).nodes ↔ ∃ one ∈ idm.ids, one.number = number := by
  rw [mem_nearIds counted perm]
  exact exists_congr fun one => and_congr_left fun _ => same one

/-- One of the others is the nearest. -/
theorem exists_nextTo {ids : List Multihash} (others : ∃ one ∈ ids, one ≠ id) (target : ℕ) :
    ∃ one, NextTo ids target id one := by
  obtain ⟨two, mem, other⟩ := others
  have inside : two ∈ ids.filter (· ≠ id) := List.mem_filter.mpr ⟨mem, decide_eq_true other⟩
  have some : (ids.filter (· ≠ id)).map Multihash.number ≠ [] := List.ne_nil_of_mem (List.mem_map_of_mem inside)
  obtain ⟨number, there, least⟩ := Xor.exists_nearest some target
  obtain ⟨one, mem, rfl⟩ := List.mem_map.mp there
  obtain ⟨stored, apart⟩ := List.mem_filter.mp mem
  refine ⟨one, stored, of_decide_eq_true apart, fun three stored' apart' => least _ ?_⟩
  exact List.mem_map_of_mem (List.mem_filter.mpr ⟨stored', decide_eq_true apart'⟩)

/-- The slots that held the id hold the nearest of the others, up to a turn. -/
def Refilled (idm : Ids) (id : Multihash) (k : ℕ) (now : Ids) : Prop :=
  ∀ i < k, idm.ids[i]? = some id → ∃ one, now.ids[i]? = some one ∧ NextTo idm.ids (place idm.root i) id one

theorem Refilled.filled (refilled : Refilled idm id k now) :
    ∀ i < k, idm.ids[i]? = some id → ∃ one ∈ idm.ids, now.ids[i]? = some one := by
  intro i inside own
  obtain ⟨one, there, next⟩ := refilled i inside own
  exact ⟨one, next.mem, there⟩

variable (standing : idm.Standing) (perms : ∀ i ids, (ranges i ids).Perm ids)
include standing perms

/-- From a table from which an id can be removed, a turn fills its slot with the nearest of the others. -/
theorem turn_of_removable (mem : id ∈ idm.ids) (removable : idm.Removable id) (level : k < nodeIdLevel)
    (frame : Frame idm id k now) (refilled : Refilled idm id k now) :
    ∃ later, now.removeAt (ranges k) id k = some later ∧ Refilled idm id (k + 1) later := by
  by_cases own : idm.ids[k]? = some id
  · have same (one : Multihash) := @Frame.mem_ids_iff id one idm now k frame own refilled.filled
    have standing' := frame.standing standing same
    obtain ⟨one, next⟩ := exists_nextTo removable.others (place idm.root k)
    have second := second_of_nearest standing.nodeIds (nodup_nearIds now (ranges k))
      (numbers_iff same standing'.counted (perms k)) mem (removable.nearest k own) next
    have made := (standing.nodeIds one next.mem).ofNumber_number_iff.mpr (removable.leading k own one next)
    have present : now.ids[k]? = some id := (frame.behind k le_rfl).trans own
    have nodeId : id ≠ [] := by
      rintro rfl
      exact absurd (standing.nodeIds _ mem).data_eq.1 (by decide)
    refine ⟨{ now with ids := now.ids.set k one }, ?_, fun i inside own' => ?_⟩
    · rw [removeAt_own standing' nodeId present, frame.root, second, Option.map_some, made]
    · rcases Nat.lt_succ_iff_lt_or_eq.mp inside with earlier | rfl
      · obtain ⟨two, there, next'⟩ := refilled i earlier own'
        exact ⟨two, (List.getElem?_set_ne (by omega)).trans there, next'⟩
      · refine ⟨one, ?_, next⟩
        apply List.getElem?_set_self
        exact (List.getElem?_eq_some_iff.mp present).1
  · have inside : k < idm.ids.length := by
      rw [standing.length]
      exact level
    have there := List.getElem?_eq_getElem inside
    have present : now.ids[k]? = some idm.ids[k] := (frame.kept k own).trans there
    have nodeId : idm.ids[k] ≠ [] := by
      intro none
      have held := standing.nodeIds _ (List.getElem_mem inside)
      rw [none] at held
      exact absurd held.data_eq.1 (by decide)
    have other : idm.ids[k] ≠ id := fun same => own (same ▸ there)
    refine ⟨now, removeAt_other present nodeId other, fun i inside' own' => ?_⟩
    rcases Nat.lt_succ_iff_lt_or_eq.mp inside' with earlier | rfl
    · exact refilled i earlier own'
    · exact absurd own' own

theorem turns_of_removable (mem : id ∈ idm.ids) (removable : idm.Removable id) :
    ∀ k ≤ nodeIdLevel, ∃ now, idm.turns ranges id k = some now ∧ Refilled idm id k now := by
  intro k
  induction k with
  | zero => exact fun _ => ⟨idm, rfl, fun i inside => absurd inside (Nat.not_lt_zero i)⟩
  | succ k ih =>
    intro below
    obtain ⟨now, run, refilled⟩ := ih (by omega)
    obtain ⟨later, turn, refilled'⟩ := turn_of_removable standing perms mem removable (by omega) (turns_frame run)
      refilled
    exact ⟨later, by rw [turns_succ, run, Option.bind_some, turn], refilled'⟩

theorem removed_of_removable (mem : id ∈ idm.ids) (removable : idm.Removable id) : idm.Removed ranges id := by
  obtain ⟨now, run, refilled⟩ := turns_of_removable standing perms mem removable nodeIdLevel le_rfl
  have frame := turns_frame run
  have slot {i : ℕ} {one : Multihash} (there : now.ids[i]? = some one) : one ≠ id ∧ one ∈ idm.ids := by
    by_cases own : idm.ids[i]? = some id
    · have inside : i < nodeIdLevel := by
        rw [← standing.length]
        exact (List.getElem?_eq_some_iff.mp own).1
      obtain ⟨two, there', next⟩ := refilled i inside own
      rw [there] at there'
      cases there'
      exact ⟨next.other, next.mem⟩
    · rw [frame.kept i own] at there
      refine ⟨?_, List.mem_of_getElem? there⟩
      rintro rfl
      exact own there
  refine ⟨{ now with count := if id ∈ idm.ids then now.count - 1 else now.count }, ?_, fun _ => ⟨?_, ?_, ?_⟩, ?_⟩
  · rw [removeId, standing.length]
    change (idm.turns ranges id nodeIdLevel).bind _ = _
    rw [run]
    rfl
  · intro held
    obtain ⟨i, there⟩ := List.mem_iff_getElem?.mp held
    exact (slot there).1 rfl
  · intro one held
    obtain ⟨i, there⟩ := List.mem_iff_getElem?.mp held
    exact (slot there).2
  · intro i own
    apply refilled i _ own
    rw [← standing.length]
    exact (List.getElem?_eq_some_iff.mp own).1
  · intro only
    obtain ⟨one, stored, other⟩ := removable.others
    exact absurd (only one stored) other

omit perms in
theorem NextTo.unique {target : ℕ} {two : Multihash} (next : NextTo idm.ids target id one)
    (next' : NextTo idm.ids target id two) : one = two := by
  apply (standing.nodeIds _ next.mem).number_inj (standing.nodeIds _ next'.mem)
  exact Xor.inj (le_antisymm (next.least _ next'.mem next'.other) (next'.least _ next.mem next.other))

/-- A turn that fills its slot with the nearest of the others shows that the id was the nearest of all, and that the id
that is put there is made of its number. -/
theorem nearest_of_turn (mem : id ∈ idm.ids) (own : idm.ids[k]? = some id) (frame : Frame idm id k now)
    (refilled : Refilled idm id k now) (turn : now.removeAt (ranges k) id k = some later)
    (there : later.ids[k]? = some one) (next : NextTo idm.ids (place idm.root k) id one) :
    (∀ two ∈ idm.ids, place idm.root k ^^^ id.number ≤ place idm.root k ^^^ two.number) ∧
      one.data.head? ≠ some 0 := by
  have same (two : Multihash) := @Frame.mem_ids_iff id two idm now k frame own refilled.filled
  have standing' := frame.standing standing same
  have numbers := numbers_iff same standing'.counted (perms k)
  have present : now.ids[k]? = some id := (frame.behind k le_rfl).trans own
  have nodeId : id ≠ [] := by
    rintro rfl
    exact absurd (standing.nodeIds _ mem).data_eq.1 (by decide)
  rw [removeAt_own standing' nodeId present, frame.root] at turn
  obtain ⟨number, second, rfl⟩ := Option.map_eq_some_iff.mp turn
  have put : Multihash.ofNumber number = one := by
    dsimp only at there
    rw [List.getElem?_set_self (List.getElem?_eq_some_iff.mp present).1] at there
    exact Option.some.inj there
  obtain ⟨two, stored, rfl⟩ := (numbers number).mp (Kademlia.mem_get.mp (List.mem_of_getElem? second))
  have equal : two = one := by
    apply (standing.nodeIds _ stored).number_inj (standing.nodeIds _ next.mem)
    rw [← put, Multihash.number_ofNumber_number]
  subst equal
  refine ⟨nearest_of_second (nodup_nearIds now (ranges k)) numbers second next, ?_⟩
  exact (standing.nodeIds _ stored).ofNumber_number_iff.mp put

theorem removable_of_removed (mem : id ∈ idm.ids) (removed : idm.Removed ranges id) : idm.Removable id := by
  obtain ⟨after, run, promised, -⟩ := removed
  rw [removeId, standing.length] at run
  obtain ⟨final, run, same⟩ := Option.bind_eq_some_iff.mp run
  change idm.turns ranges id nodeIdLevel = some final at run
  have slots : after.ids = final.ids := by
    cases same
    rfl
  have before {i : ℕ} (level : i < nodeIdLevel) : ∃ now later, idm.turns ranges id i = some now ∧
      now.removeAt (ranges i) id i = some later ∧ ∀ j < i + 1, later.ids[j]? = final.ids[j]? := by
    obtain ⟨later, run', same⟩ := turns_before run level
    rw [turns_succ] at run'
    obtain ⟨now, run', turn⟩ := Option.bind_eq_some_iff.mp run'
    exact ⟨now, later, run', turn, same⟩
  have others : ∃ one ∈ idm.ids, one ≠ id := by
    by_contra none
    have only : ∀ one ∈ idm.ids, one = id := fun one stored => by_contra fun other => none ⟨one, stored, other⟩
    have inside : 0 < idm.ids.length := by
      rw [standing.length]
      decide
    have own : idm.ids[0]? = some id := by
      rw [List.getElem?_eq_getElem inside, only _ (List.getElem_mem inside)]
    have nodeId : id ≠ [] := by
      rintro rfl
      exact absurd (standing.nodeIds _ mem).data_eq.1 (by decide)
    obtain ⟨now, later, start, turn, -⟩ := @before 0 (by decide)
    cases start
    rw [removeAt_own standing nodeId own, no_second (nodup_nearIds idm (ranges 0))
      (mem_nearIds standing.counted (perms 0)) only] at turn
    cases turn
  obtain ⟨-, -, refilled⟩ := promised others
  rw [slots] at refilled
  have turned (i : ℕ) (own : idm.ids[i]? = some id) : ∃ one, NextTo idm.ids (place idm.root i) id one ∧
      (∀ two ∈ idm.ids, place idm.root i ^^^ id.number ≤ place idm.root i ^^^ two.number) ∧
      one.data.head? ≠ some 0 := by
    have level : i < nodeIdLevel := by
      rw [← standing.length]
      exact (List.getElem?_eq_some_iff.mp own).1
    obtain ⟨now, later, run', turn, same⟩ := before level
    obtain ⟨one, there, next⟩ := refilled i own
    have filled : Refilled idm id i now := by
      intro j earlier own'
      obtain ⟨two, there', next'⟩ := refilled j own'
      refine ⟨two, ?_, next'⟩
      rw [← (removeAt_frame turn).2.2.2.1 j (by omega), same j (by omega)]
      exact there'
    refine ⟨one, next, nearest_of_turn standing perms mem own (turns_frame run') filled turn ?_ next⟩
    rw [same i (Nat.lt_succ_self i)]
    exact there
  refine ⟨others, fun i own => ?_, fun i own one next => ?_⟩
  · obtain ⟨-, -, nearest, -⟩ := turned i own
    exact nearest
  · obtain ⟨two, next', -, leading⟩ := turned i own
    rw [next.unique standing next']
    exact leading

omit standing perms

/-! ## Tables that are built by additions -/

theorem addId_root (idm : Ids) (id : Multihash) : (idm.addId id).2.2.root = idm.root := by
  rw [addId]
  split
  · rfl
  · rfl

theorem addAll_root (idm : Ids) (ids : List Multihash) : (idm.addAll ids).root = idm.root := by
  induction ids generalizing idm with
  | nil => rfl
  | cons id ids ih => exact (ih _).trans (addId_root idm id)

theorem standing_addAll (rootId : IsNodeId root) {ids : List Multihash} (nodeIds : ∀ id ∈ ids, IsNodeId id)
    (counted : ((new root nodeIdLevel).addAll ids).count ≠ 0) : ((new root nodeIdLevel).addAll ids).Standing := by
  have slots : Slots IsNodeId ((new root nodeIdLevel).addAll ids) := slots_addAll (slots_new root) nodeIds
  exact ⟨by rw [addAll_root]; exact rootId, slots.length, slots.holds counted, counted⟩

/-- The slots hold ids that were added. -/
theorem mem_of_mem_addAll {ids : List Multihash} (counted : ((new root nodeIdLevel).addAll ids).count ≠ 0)
    (held : one ∈ ((new root nodeIdLevel).addAll ids).ids) : one ∈ ids :=
  (@slots_addAll (· ∈ ids) _ ids (slots_new root) fun _ mem => mem).holds counted one held

/-- With no zero bytes in front, an id can be removed whenever another one is in the table. -/
theorem removable_of_superIds (rootId : IsNodeId root) {ids : List Multihash} (superIds : ∀ id ∈ ids, IsSuperId id)
    (nonempty : ids ≠ []) (others : ∃ one ∈ ((new root nodeIdLevel).addAll ids).ids, one ≠ id) :
    ((new root nodeIdLevel).addAll ids).Removable id := by
  obtain ⟨slot, filled⟩ := exists_filled rootId superIds nonempty
  have member {one : Multihash} := @mem_of_mem_addAll root one ids filled.counted
  refine ⟨others, fun i own one mem => ?_, fun i own one next => (superIds one (member next.mem)).data_head?⟩
  have level : i < nodeIdLevel := by
    have inside := (List.getElem?_eq_some_iff.mp own).1
    rwa [filled.ids_eq, List.length_map, List.length_range] at inside
  rw [filled.getElem?_ids level, Option.some_inj] at own
  rw [filled.root_eq, ← own]
  exact (filled.nearest i level).2 _ (List.mem_map_of_mem (member mem))

/-- The removal of an id from a table that was built by additions does what it promises exactly when the id can be
removed. Without zero bytes in front of the digests, that is when another id is there. -/
theorem removeId_iff (rootId : IsNodeId root) {ids : List Multihash} (nodeIds : ∀ id ∈ ids, IsNodeId id)
    (present : id ∈ ((new root nodeIdLevel).addAll ids).held) (perms : ∀ i slots, (ranges i slots).Perm slots) :
    (((new root nodeIdLevel).addAll ids).Removed ranges id ↔ ((new root nodeIdLevel).addAll ids).Removable id) ∧
      ((∀ id ∈ ids, IsSuperId id) → (((new root nodeIdLevel).addAll ids).Removable id ↔
        ∃ one ∈ ((new root nodeIdLevel).addAll ids).held, one ≠ id)) := by
  have counted : ((new root nodeIdLevel).addAll ids).count ≠ 0 := by
    intro none
    rw [held, if_pos none] at present
    cases present
  have standing := standing_addAll rootId nodeIds counted
  rw [held, if_neg counted] at present ⊢
  refine ⟨⟨?_, ?_⟩, fun superIds => ⟨Removable.others, removable_of_superIds rootId superIds ?_⟩⟩
  · exact removable_of_removed standing perms present
  · exact removed_of_removable standing perms present
  · rintro rfl
    exact counted rfl

/-- What two ids put into a slot. -/
theorem getElem?_addAll_two (root first second : Multihash) {i : ℕ} (level : i < nodeIdLevel) :
    ((new root nodeIdLevel).addAll [first, second]).ids[i]? =
      some (if keeps second first (Multihash.ofNumber (place root i)) then first else second) :=
  (filled_first root first).getElem?_addId level

theorem counted_addAll_two (root first second : Multihash) :
    ((new root nodeIdLevel).addAll [first, second]).count ≠ 0 :=
  (@slots_addId (fun _ => True) _ second
    (@slots_addId (fun _ => True) _ first (slots_new root) trivial).1 trivial).2

/-- An id whose slot is asked for something that lies nearer to it has it. -/
theorem held_addAll_two (rootId : IsNodeId root) {first second : Multihash} {i : ℕ} (level : i < nodeIdLevel)
    (nearer : place root i ^^^ second.number < place root i ^^^ first.number) :
    second ∈ ((new root nodeIdLevel).addAll [first, second]).held := by
  rw [held, if_neg (counted_addAll_two root first second)]
  apply List.mem_iff_getElem?.mpr
  refine ⟨i, ?_⟩
  rw [getElem?_addAll_two root first second level, if_neg]
  rw [keeps_iff, number_networkNum rootId level]
  exact fun kept => kept.2.not_gt nearer

theorem removeId_two :
    (((new (idOf 7) nodeIdLevel).addAll [idOf 1, idOf 2]).Removed (fun _ slots => slots) (idOf 2) ↔
        ((new (idOf 7) nodeIdLevel).addAll [idOf 1, idOf 2]).Removable (idOf 2)) ∧
      ((∀ id ∈ [idOf 1, idOf 2], IsSuperId id) →
        (((new (idOf 7) nodeIdLevel).addAll [idOf 1, idOf 2]).Removable (idOf 2) ↔
          ∃ one ∈ ((new (idOf 7) nodeIdLevel).addAll [idOf 1, idOf 2]).held, one ≠ idOf 2)) := by
  refine removeId_iff (nodeId_idOf 7) ?_ ?_ fun _ slots => .refl slots
  · exact List.forall_mem_cons.mpr ⟨nodeId_idOf 1, List.forall_mem_singleton.mpr (nodeId_idOf 2)⟩
  · exact @held_addAll_two (idOf 7) (nodeId_idOf 7) (idOf 1) (idOf 2) 0 (by decide) (by decide)

/-- The removal of the only id panics, and where one with a zero byte in front remains, its slots get an id that was not
in the table. -/
theorem removeId_fails :
    ¬ ((new (idOf 7) nodeIdLevel).addAll [idOf 1]).Removed (fun _ slots => slots) (idOf 1) ∧
      ¬ ((new (idOf 7) nodeIdLevel).addAll [idOf 2, idOf 0]).Removed (fun _ slots => slots) (idOf 2) := by
  have perms (_ : ℕ) (slots : List Multihash) : ((fun slots : List Multihash => slots) slots).Perm slots := .refl slots
  constructor
  · intro removed
    have nodeIds : ∀ id ∈ [idOf 1], IsNodeId id := List.forall_mem_singleton.mpr (nodeId_idOf 1)
    have filled := filled_first (idOf 7) (idOf 1)
    have standing := standing_addAll (nodeId_idOf 7) nodeIds filled.counted
    have present : idOf 1 ∈ ((new (idOf 7) nodeIdLevel).addAll [idOf 1]).ids :=
      filled.mem_ids.mpr ⟨0, by decide, rfl⟩
    obtain ⟨one, held, other⟩ := (removable_of_removed standing (fun i => perms i) present removed).others
    obtain ⟨_, -, same⟩ := filled.mem_ids.mp held
    exact other same.symm
  · intro removed
    have rootId := nodeId_idOf 7
    have nodeIds : ∀ id ∈ [idOf 2, idOf 0], IsNodeId id :=
      List.forall_mem_cons.mpr ⟨nodeId_idOf 2, List.forall_mem_singleton.mpr (nodeId_idOf 0)⟩
    have counted := counted_addAll_two (idOf 7) (idOf 2) (idOf 0)
    have standing := standing_addAll rootId nodeIds counted
    have zero := @held_addAll_two (idOf 7) rootId (idOf 2) (idOf 0) 249 (by decide) (by decide)
    rw [held, if_neg counted] at zero
    have own : ((new (idOf 7) nodeIdLevel).addAll [idOf 2, idOf 0]).ids[0]? = some (idOf 2) := by
      rw [getElem?_addAll_two (idOf 7) (idOf 2) (idOf 0) (by decide), if_pos]
      rw [keeps_iff, number_networkNum rootId (by decide)]
      decide
    have next : NextTo ((new (idOf 7) nodeIdLevel).addAll [idOf 2, idOf 0]).ids
        (place ((new (idOf 7) nodeIdLevel).addAll [idOf 2, idOf 0]).root 0) (idOf 2) (idOf 0) := by
      refine ⟨zero, by decide, fun two held other => ?_⟩
      rcases List.mem_pair.mp (mem_of_mem_addAll counted held) with equal | equal
      · exact absurd equal other
      · rw [equal]
    have removable := removable_of_removed standing (fun i => perms i) (List.mem_of_getElem? own) removed
    exact removable.leading 0 own (idOf 0) next (by decide)

end PolarCloud.NodeStore.Ids
