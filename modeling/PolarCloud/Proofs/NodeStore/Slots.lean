import PolarCloud.Base.Replay
import PolarCloud.Proofs.NodeStore.Tables

/-! # What is in the slots after each addition

Every slot is asked for the own number with one bit flipped. It holds the nearest of all ids that were added, in
whatever order they came, as long as no id with a digest that begins with a zero byte would have to stay. An id that
stands in two slots is nearest to the own number; when another one takes both of them, it keeps the slot of the bit in
which they differ.
-/

namespace PolarCloud.NodeStore.Ids

variable {root id : Multihash} {idm : Ids} {members : List Multihash} {slot : ℕ → Multihash}

/-- The ids in the slots; at first there are none. -/
def held (this : Ids) : List Multihash := if this.count = 0 then [] else this.ids

/-- A table to which ids are added, and all ids that were added to it. -/
structure Adding where
  ids : Ids
  added : List Multihash := []
deriving DecidableEq, Repr

namespace Adding

def start (root : Multihash) : Adding := { ids := new root nodeIdLevel }

def step (this : Adding) (id : Multihash) : Adding := { ids := (this.ids.addId id).2.2, added := id :: this.added }

/-- What adding an id promises: every slot holds the nearest of all that were added, the id was accepted if some slot
has changed to it or if it is the first one, and what is removed is, once each, what had a slot and has none now. -/
structure Called (root : Multihash) (this : Adding) (id : Multihash) : Prop where
  nearest : ∀ i < nodeIdLevel, ∃ one ∈ (this.step id).added, (this.step id).ids.ids[i]? = some one ∧
    ∀ other ∈ (this.step id).added, place root i ^^^ one.number ≤ place root i ^^^ other.number
  ok : (this.ids.addId id).1 = true ↔
    this.added = [] ∨ ∃ i < nodeIdLevel, this.ids.ids[i]? ≠ some id ∧ (this.step id).ids.ids[i]? = some id
  nodup : (this.ids.addId id).2.1.Nodup
  removed : ∀ one, one ∈ (this.ids.addId id).2.1 ↔ one ∈ this.ids.held ∧ one ∉ (this.step id).ids.ids

/-- Where an id whose digest begins with a zero byte is nearest to what a slot is asked for, the next one is nearer. -/
def Yields (root : Multihash) (this : Adding) (id : Multihash) : Prop :=
  ∀ one ∈ this.added, one.data.head? = some 0 → ∀ i < nodeIdLevel,
    (∀ other ∈ this.added, place root i ^^^ one.number ≤ place root i ^^^ other.number) →
      place root i ^^^ id.number < place root i ^^^ one.number

/-- What is known of a table in which every slot holds the nearest id. -/
def Known (root : Multihash) (this : Adding) : Prop :=
  (∀ id ∈ this.added, IsNodeId id) ∧
    ((this.added = [] ∧ this.ids = new root nodeIdLevel) ∨ ∃ slot, Filled root this.added this.ids slot)

theorem called_first (root id : Multihash) : Called root (start root) id := by
  have first : (new root nodeIdLevel).addId id =
      (true, [], { new root nodeIdLevel with ids := List.replicate nodeIdLevel id, count := 1 }) := by
    simp [addId, new]
  constructor
  · intro i level
    refine ⟨id, List.mem_cons_self, ?_, fun other mem => ?_⟩
    · rw [step, start, first]
      exact List.getElem?_replicate_of_lt level
    · rw [List.mem_singleton.mp mem]
  · rw [start, first]
    exact iff_of_true rfl (.inl rfl)
  · rw [start, first]
    exact List.nodup_nil
  · intro one
    rw [start, first]
    exact iff_of_false List.not_mem_nil fun both => List.not_mem_nil both.1

end Adding

namespace Filled

theorem getElem?_ids (filled : Filled root members idm slot) {i : ℕ} (level : i < nodeIdLevel) :
    idm.ids[i]? = some (slot i) := by
  rw [filled.ids_eq, List.getElem?_map, List.getElem?_range level, Option.map_some]

theorem getElem?_addId (filled : Filled root members idm slot) {i : ℕ} (level : i < nodeIdLevel) :
    (idm.addId id).2.2.ids[i]? = some (next root id slot i) := by
  rw [filled.addId_ids, List.getElem?_map, List.getElem?_range level, Option.map_some]

/-- A slot holds the one id that is nearest. -/
theorem slot_eq (filled : Filled root members idm slot) (memberIds : ∀ member ∈ members, IsNodeId member) {i : ℕ}
    (level : i < nodeIdLevel) {one : Multihash} (mem : one ∈ members)
    (near : ∀ other ∈ members, place root i ^^^ one.number ≤ place root i ^^^ other.number) : slot i = one := by
  have nearest : Xor.Nearest (members.map Multihash.number) (place root i) one.number :=
    ⟨List.mem_map_of_mem mem, List.forall_mem_map.mpr near⟩
  exact (memberIds _ (filled.member i level)).number_inj (memberIds one mem)
    ((filled.nearest i level).unique nearest)

/-- An id that a slot holds is nearer than every other one. -/
theorem slot_lt (filled : Filled root members idm slot) (memberIds : ∀ member ∈ members, IsNodeId member) {i : ℕ}
    (level : i < nodeIdLevel) {other : Multihash} (mem : other ∈ members) (apart : other ≠ slot i) :
    place root i ^^^ (slot i).number < place root i ^^^ other.number := by
  refine lt_of_le_of_ne ((filled.nearest i level).2 _ (List.mem_map_of_mem mem)) fun same => apart ?_
  exact (memberIds other mem).number_inj (memberIds _ (filled.member i level)) (Xor.inj same).symm

/-- An id that stands in two slots stays in the table when both are taken over: the new id is not nearer where the
highest bit that differs is flipped, and no third one stands there. -/
theorem kept_of_two (filled : Filled root members idm slot) (memberIds : ∀ member ∈ members, IsNodeId member)
    (nodeId : IsNodeId id) {i j : ℕ} (level : i < nodeIdLevel) (level' : j < nodeIdLevel) (apart : i ≠ j)
    (same : slot i = slot j) (nearer : place root i ^^^ id.number < place root i ^^^ (slot i).number)
    (nearer' : place root j ^^^ id.number < place root j ^^^ (slot j).number) :
    ∃ m < nodeIdLevel, slot m = slot i ∧ place root m ^^^ (slot m).number ≤ place root m ^^^ id.number := by
  have first : root.number ^^^ id.number < root.number ^^^ (slot i).number :=
    Xor.lt_of_flips apart nearer (by rw [same]; exact nearer')
  have other : id.number ≠ (slot i).number := fun equal => first.ne (by rw [equal])
  have bound : (id.number ^^^ (slot i).number).log2 < nodeIdLevel :=
    (Nat.log2_lt (Xor.pos_of_ne other).ne').mpr
      (Nat.xor_lt_two_pow nodeId.number_lt (memberIds _ (filled.member i level)).number_lt)
  refine ⟨(id.number ^^^ (slot i).number).log2, bound, ?_⟩
  have stays : slot (id.number ^^^ (slot i).number).log2 = slot i := by
    by_contra third
    have mem := filled.member _ bound
    have second : root.number ^^^ (slot i).number <
        root.number ^^^ (slot (id.number ^^^ (slot i).number).log2).number := by
      refine Xor.lt_of_flips apart (filled.slot_lt memberIds level mem third) ?_
      rw [same] at third mem ⊢
      exact filled.slot_lt memberIds level' mem third
    exact (filled.slot_lt memberIds bound (filled.member i level) (Ne.symm third)).asymm
      (Xor.flip_between first second)
  rw [stays]
  exact ⟨rfl, (Xor.flip_highest_farther first).le⟩

end Filled

namespace Adding

variable {this : Adding}

/-- Slots that keep only what is not farther hold the nearest afterwards. -/
theorem stays_of_yields (rootId : IsNodeId root) (yields : Yields root this id)
    (filled : Filled root this.added this.ids slot) {i : ℕ} (level : i < nodeIdLevel) :
    keeps id (slot i) (Multihash.ofNumber (place root i)) = true ↔
      place root i ^^^ (slot i).number ≤ place root i ^^^ id.number := by
  rw [keeps_iff, number_networkNum rootId level]
  refine and_iff_right_of_imp fun near leading => near.not_gt ?_
  exact yields _ (filled.member i level) leading i level fun other mem =>
    (filled.nearest i level).2 _ (List.mem_map_of_mem mem)

theorem mem_taken_iff (rootId : IsNodeId root) (yields : Yields root this id)
    (filled : Filled root this.added this.ids slot) {i : ℕ} : i ∈ Filled.taken root id slot ↔
      i < nodeIdLevel ∧ place root i ^^^ id.number < place root i ^^^ (slot i).number := by
  rw [Filled.mem_taken]
  refine and_congr_right fun level => ?_
  rw [stays_of_yields rootId yields filled level, not_le]

/-- What is removed is removed once. -/
theorem nodup_removeIDs (rootId : IsNodeId root) (memberIds : ∀ member ∈ this.added, IsNodeId member)
    (nodeId : IsNodeId id) (yields : Yields root this id) (filled : Filled root this.added this.ids slot) :
    (this.ids.addId id).2.1.Nodup := by
  rw [filled.addId_eq, List.filter_map]
  refine List.Nodup.map_on ?_ ((List.nodup_range.filter _).filter _)
  intro i mem j mem' same
  by_contra apart
  obtain ⟨taken, lost⟩ := List.mem_filter.mp mem
  obtain ⟨level, nearer⟩ := (mem_taken_iff rootId yields filled).mp taken
  obtain ⟨level', nearer'⟩ := (mem_taken_iff rootId yields filled).mp (List.mem_filter.mp mem').1
  obtain ⟨m, bound, stays, near⟩ := filled.kept_of_two memberIds nodeId level level' apart same nearer nearer'
  refine (decide_eq_true_iff.mp lost) (List.mem_map.mpr ⟨m, List.mem_range.mpr bound, ?_⟩)
  rw [Filled.next, if_pos ((stays_of_yields rootId yields filled bound).mpr near), stays]

/-- A slot changes to an id that was not added before exactly when the id takes it over. -/
theorem ok_iff (filled : Filled root this.added this.ids slot) (fresh : id ∉ this.added) :
    (this.ids.addId id).1 = true ↔
      this.added = [] ∨ ∃ i < nodeIdLevel, this.ids.ids[i]? ≠ some id ∧ (this.step id).ids.ids[i]? = some id := by
  have nonempty : this.added ≠ [] := List.ne_nil_of_mem (filled.member 0 (by decide))
  have taken : (this.ids.addId id).1 = true ↔ ∃ i, i ∈ Filled.taken root id slot := by
    rw [filled.addId_eq, Bool.not_eq_true', List.isEmpty_eq_false_iff_exists_mem]
  rw [taken, or_iff_right nonempty]
  refine exists_congr fun i => ?_
  rw [Filled.mem_taken]
  refine and_congr_right fun level => ?_
  have other : slot i ≠ id := fun same => fresh (same ▸ filled.member i level)
  rw [step, filled.getElem?_ids level, filled.getElem?_addId level, Filled.next]
  split
  · next kept => simp [kept, other]
  · next lost => simp [lost, other]

theorem called_of_yields (rootId : IsNodeId root) (memberIds : ∀ member ∈ this.added, IsNodeId member)
    (nodeId : IsNodeId id) (fresh : id ∉ this.added) (yields : Yields root this id)
    (filled : Filled root this.added this.ids slot) : Called root this id where
  nearest i level := by
    have after := filled.addId_of fun i level => stays_of_yields rootId yields filled level
    refine ⟨_, after.member i level, after.getElem?_ids level, fun other mem => ?_⟩
    exact (after.nearest i level).2 _ (List.mem_map_of_mem mem)
  ok := ok_iff filled fresh
  nodup := nodup_removeIDs rootId memberIds nodeId yields filled
  removed one := by
    rw [held, if_neg filled.counted]
    exact filled.mem_removeIDs id one

theorem yields_of_called (memberIds : ∀ member ∈ this.added, IsNodeId member)
    (nodeId : IsNodeId id) (fresh : id ∉ this.added) (called : Called root this id)
    (filled : Filled root this.added this.ids slot) : Yields root this id := by
  intro one mem leading i level near
  have stood : slot i = one := filled.slot_eq memberIds level mem near
  have lost : ¬ keeps id (slot i) (Multihash.ofNumber (place root i)) = true := fun kept =>
    ((keeps_iff ..).mp kept).1 (stood ▸ leading)
  obtain ⟨now, -, there, least⟩ := called.nearest i level
  rw [step, filled.getElem?_addId level, Filled.next, if_neg lost] at there
  cases there
  refine lt_of_le_of_ne (least one (List.mem_cons_of_mem _ mem)) fun same => fresh ?_
  rwa [nodeId.number_inj (memberIds one mem) (Xor.inj same)]

theorem known_step (rootId : IsNodeId root) (nodeId : IsNodeId id) (fresh : id ∉ this.added)
    (known : Known root this) (called : Called root this id) : Known root (this.step id) := by
  obtain ⟨memberIds, ⟨none, first⟩ | ⟨slot, filled⟩⟩ := known
  · refine ⟨List.forall_mem_cons.mpr ⟨nodeId, memberIds⟩, .inr ⟨fun _ => id, ?_⟩⟩
    rw [step, none, first]
    exact filled_first root id
  · have yields := yields_of_called memberIds nodeId fresh called filled
    exact ⟨List.forall_mem_cons.mpr ⟨nodeId, memberIds⟩,
      .inr ⟨_, filled.addId_of fun i level => stays_of_yields rootId yields filled level⟩⟩

theorem called_iff_yields (rootId : IsNodeId root) (nodeId : IsNodeId id) (fresh : id ∉ this.added)
    (known : Known root this) : Called root this id ↔ Yields root this id := by
  obtain ⟨memberIds, ⟨none, first⟩ | ⟨slot, filled⟩⟩ := known
  · have begins : this = start root := by
      cases this
      cases none
      cases first
      rfl
    subst begins
    exact iff_of_true (called_first root id) nofun
  · exact ⟨fun called => yields_of_called memberIds nodeId fresh called filled,
      fun yields => called_of_yields rootId memberIds nodeId fresh yields filled⟩

theorem added_foldl (this : Adding) (ids : List Multihash) :
    (ids.foldl step this).added = ids.reverse ++ this.added := by
  induction ids generalizing this with
  | nil => rfl
  | cons id ids ih => rw [List.foldl_cons, ih, step, List.reverse_cons, List.append_assoc, List.singleton_append]

/-- Distinct ids are added as promised, each of them, exactly when every id whose digest begins with a zero byte gives
way in the slots to which it is nearest. -/
theorem addId_called_iff (rootId : IsNodeId root) {ids : List Multihash} (nodeIds : ∀ id ∈ ids, IsNodeId id)
    (nodup : ids.Nodup) :
    Replay.Each step (start root) (Called root) ids ↔ Replay.Each step (start root) (Yields root) ids := by
  have given : Replay.Each step (start root) (fun this id => IsNodeId id ∧ id ∉ this.added) ids := by
    rintro front id back rfl
    refine ⟨nodeIds id (List.mem_append_right _ List.mem_cons_self), ?_⟩
    rw [added_foldl, start, List.append_nil, List.mem_reverse]
    exact fun earlier => (List.nodup_append.mp nodup).2.2 id earlier id List.mem_cons_self rfl
  exact (Replay.each_iff_each ⟨nofun, .inl ⟨rfl, rfl⟩⟩
    (fun _ _ ⟨nodeId, fresh⟩ known called => known_step rootId nodeId fresh known called)
    (fun _ _ ⟨nodeId, fresh⟩ known => called_iff_yields rootId nodeId fresh known) ids given).1

theorem addId_called_two :
    Replay.Each step (start (idOf 7)) (Called (idOf 7)) [idOf 1, idOf 2] ↔
      Replay.Each step (start (idOf 7)) (Yields (idOf 7)) [idOf 1, idOf 2] := by
  refine addId_called_iff (nodeId_idOf 7) ?_ (by decide)
  exact List.forall_mem_cons.mpr ⟨nodeId_idOf 1, List.forall_mem_singleton.mpr (nodeId_idOf 2)⟩

/-- An id whose digest begins with a zero byte loses its slots to one that is farther. -/
theorem zero_byte_displaced : ¬ Replay.Each step (start (idOf 1)) (Called (idOf 1)) [idOf 0, idOf 254] := by
  intro called
  rw [Replay.each_cons, Replay.each_cons] at called
  obtain ⟨now, -, there, least⟩ := called.2.1.nearest 0 (by decide)
  have lost : ¬ keeps (idOf 254) (idOf 0) (Multihash.ofNumber (place (idOf 1) 0)) = true := fun kept =>
    ((keeps_iff ..).mp kept).1 (by decide)
  change (((new (idOf 1) nodeIdLevel).addId (idOf 0)).2.2.addId (idOf 254)).2.2.ids[0]? = _ at there
  rw [(filled_first (idOf 1) (idOf 0)).getElem?_addId (by decide), Filled.next, if_neg lost] at there
  cases there
  exact absurd (least (idOf 0) (List.mem_cons_of_mem _ List.mem_cons_self)) (by decide)

end Adding

end PolarCloud.NodeStore.Ids
