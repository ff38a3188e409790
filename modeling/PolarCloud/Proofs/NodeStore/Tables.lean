import PolarCloud.Proofs.NodeStore.Search

/-! # What is in a table

A node adds others to its table one by one, and drops those that are no longer nearest to any of its slots.
In the end the table holds the nearest of all that were added for each slot, whatever the order in which
they came and in which the table was ranged over.
-/

namespace PolarCloud.NodeStore

/-- What slot `i` of a node is asked for. -/
def place (root : Multihash) (i : ℕ) : ℕ := root.number ^^^ 2 ^ i

variable {root id : Multihash} {members : List Multihash}

theorem number_networkNum (rootId : IsNodeId root) {i : ℕ} (level : i < nodeIdLevel) :
    (Multihash.ofNumber (place root i)).number = place root i := by
  have below : place root i < 256 ^ 32 := by
    rw [show 256 ^ 32 = 2 ^ 256 by rfl]
    exact Nat.xor_lt_two_pow rootId.number_lt (Nat.pow_lt_pow_right (by decide) level)
  apply Multihash.number_ofNumber
  exact (BigEndian.length_bytes_le below).trans_lt (by decide)

namespace Ids

variable {idm : Ids} {slot : ℕ → Multihash}

/-- A slot keeps an id that another one is not nearer than, unless its digest begins with a zero byte. -/
theorem keeps_iff (id one netID : Multihash) : keeps id one netID = true ↔
    one.data.head? ≠ some 0 ∧ netID.number ^^^ one.number ≤ netID.number ^^^ id.number := by
  have inside : one.number ∈ (((Kademlia.mk []).add one.number).add id.number).nodes :=
    Kademlia.mem_add.mpr (.inl (Kademlia.mem_add.mpr (.inr rfl)))
  have other : id.number ∈ (((Kademlia.mk []).add one.number).add id.number).nodes := Kademlia.mem_add.mpr (.inr rfl)
  obtain ⟨first, head⟩ := Kademlia.exists_head netID.number inside
  obtain ⟨mem, least⟩ := Kademlia.nearest_head (Kademlia.nodup_add (Kademlia.nodup_add List.nodup_nil)) head
  have nearest : first = one.number ↔ netID.number ^^^ one.number ≤ netID.number ^^^ id.number := by
    constructor
    · rintro rfl
      exact least _ other
    · intro near
      rcases Kademlia.mem_add.mp mem with mem | rfl
      · rcases Kademlia.mem_add.mp mem with none | same
        · cases none
        · exact same
      · exact (Xor.inj (le_antisymm near (least _ inside))).symm
  rw [← nearest, keeps, head, Option.map_some, decide_eq_true_iff, Option.some_inj]
  constructor
  · intro same
    refine ⟨same ▸ BigEndian.head?_bytes first, ?_⟩
    rw [← BigEndian.number_bytes first, same, Multihash.number]
  · rintro ⟨leading, rfl⟩
    exact BigEndian.bytes_number leading

/-- Of two ids a slot keeps the one that it has, unless the other is nearer. -/
theorem keeps_eq_true_iff (id netID : Multihash) {one : Multihash} (oneId : IsSuperId one) :
    keeps id one netID = true ↔ netID.number ^^^ one.number ≤ netID.number ^^^ id.number := by
  rw [keeps_iff]
  exact and_iff_right oneId.data_head?

/-- Every slot holds the nearest member. -/
structure Filled (root : Multihash) (members : List Multihash) (idm : Ids) (slot : ℕ → Multihash) : Prop where
  root_eq : idm.root = root
  ids_eq : idm.ids = (List.range nodeIdLevel).map slot
  counted : idm.count ≠ 0
  member : ∀ i < nodeIdLevel, slot i ∈ members
  nearest : ∀ i < nodeIdLevel, Xor.Nearest (members.map Multihash.number) (place root i) (slot i).number

namespace Filled

theorem mem_ids (filled : Filled root members idm slot) : id ∈ idm.ids ↔ ∃ i < nodeIdLevel, slot i = id := by
  rw [filled.ids_eq]
  simp

/-- The slots with what they are asked for. -/
theorem zip_eq (filled : Filled root members idm slot) :
    idm.ids.zip (getNodeNetworkNum idm.root idm.ids.length) =
      (List.range nodeIdLevel).map fun i => (slot i, Multihash.ofNumber (place root i)) := by
  rw [filled.root_eq, filled.ids_eq, List.length_map, List.length_range, getNodeNetworkNum, List.zip_map']
  rfl

/-- The slots after an id was added. -/
def next (root id : Multihash) (slot : ℕ → Multihash) (i : ℕ) : Multihash :=
  if keeps id (slot i) (Multihash.ofNumber (place root i)) then slot i else id

/-- The slots that an id takes over. -/
def taken (root id : Multihash) (slot : ℕ → Multihash) : List ℕ :=
  (List.range nodeIdLevel).filter fun i => !keeps id (slot i) (Multihash.ofNumber (place root i))

theorem mem_taken {i : ℕ} : i ∈ taken root id slot ↔ i < nodeIdLevel ∧
    ¬ keeps id (slot i) (Multihash.ofNumber (place root i)) = true := by
  rw [taken, List.mem_filter, List.mem_range, Bool.not_eq_true', Bool.not_eq_true]

theorem addId_eq (filled : Filled root members idm slot) :
    idm.addId id = (!(taken root id slot).isEmpty,
      ((taken root id slot).map slot).filter fun one => one ∉ (List.range nodeIdLevel).map (next root id slot),
      { idm with
        ids := (List.range nodeIdLevel).map (next root id slot)
        count := if !(taken root id slot).isEmpty then idm.count + 1 else idm.count }) := by
  rw [addId, if_neg filled.counted, filled.zip_eq]
  simp only [List.filter_map, List.map_map, List.isEmpty_map]
  rfl

theorem addId_ids (filled : Filled root members idm slot) :
    (idm.addId id).2.2.ids = (List.range nodeIdLevel).map (next root id slot) := by
  rw [filled.addId_eq]

theorem mem_addId_ids (filled : Filled root members idm slot) {one : Multihash} :
    one ∈ (idm.addId id).2.2.ids ↔ ∃ i < nodeIdLevel, next root id slot i = one := by
  rw [filled.addId_ids]
  simp

/-- What is removed is what lost its last slot. -/
theorem mem_removeIDs (filled : Filled root members idm slot) (id one : Multihash) :
    one ∈ (idm.addId id).2.1 ↔ one ∈ idm.ids ∧ one ∉ (idm.addId id).2.2.ids := by
  rw [filled.mem_ids, filled.addId_eq, List.mem_filter, decide_eq_true_iff, List.mem_map]
  refine and_congr_left fun lost => exists_congr fun i => ?_
  rw [mem_taken, and_assoc]
  refine and_congr_right fun level => and_iff_right_of_imp fun same kept => lost ?_
  exact List.mem_map.mpr ⟨i, List.mem_range.mpr level, by rw [next, if_pos kept, same]⟩

/-- An id that is accepted has a slot; otherwise nothing changes. -/
theorem addId_ok (filled : Filled root members idm slot) (id : Multihash) :
    ((idm.addId id).1 = true ∧ id ∈ (idm.addId id).2.2.ids) ∨
      ((idm.addId id).1 = false ∧ (idm.addId id).2.2.ids = idm.ids) := by
  rw [filled.mem_addId_ids, filled.addId_ids, filled.ids_eq, filled.addId_eq]
  cases empty : taken root id slot with
  | nil =>
    refine .inr ⟨rfl, List.map_congr_left fun i level => if_pos ?_⟩
    by_contra replaced
    have mem : i ∈ taken root id slot := mem_taken.mpr ⟨List.mem_range.mp level, replaced⟩
    rw [empty] at mem
    cases mem
  | cons i rest =>
    obtain ⟨level, replaced⟩ := mem_taken.mp (empty ▸ List.mem_cons_self : i ∈ taken root id slot)
    exact .inl ⟨rfl, i, level, if_neg replaced⟩

/-- The slots are filled from the members and the added id when each of them keeps what is not farther. -/
theorem addId_of (filled : Filled root members idm slot) {id : Multihash} (stays : ∀ i < nodeIdLevel,
    keeps id (slot i) (Multihash.ofNumber (place root i)) = true ↔
      place root i ^^^ (slot i).number ≤ place root i ^^^ id.number) :
    Filled root (id :: members) (idm.addId id).2.2 (next root id slot) where
  root_eq := by
    rw [filled.addId_eq]
    exact filled.root_eq
  ids_eq := filled.addId_ids
  counted := by
    rw [filled.addId_eq]
    dsimp only
    split
    · exact Nat.succ_ne_zero _
    · exact filled.counted
  member i level := by
    rw [next]
    split
    · exact List.mem_cons_of_mem _ (filled.member i level)
    · exact List.mem_cons_self
  nearest i level := by
    obtain ⟨inside, least⟩ := filled.nearest i level
    rw [next, List.map_cons]
    split
    · next kept =>
      exact ⟨List.mem_cons_of_mem _ inside, List.forall_mem_cons.mpr ⟨(stays i level).mp kept, least⟩⟩
    · next replaced =>
      have nearer := not_le.mp fun near => replaced ((stays i level).mpr near)
      exact ⟨List.mem_cons_self, List.forall_mem_cons.mpr ⟨le_rfl, fun other mem => nearer.le.trans (least other mem)⟩⟩

theorem addId (filled : Filled root members idm slot) (rootId : IsNodeId root)
    (memberIds : ∀ member ∈ members, IsSuperId member) (id : Multihash) :
    Filled root (id :: members) (idm.addId id).2.2 (next root id slot) := by
  refine filled.addId_of fun i level => ?_
  have ids := keeps_eq_true_iff id (Multihash.ofNumber (place root i)) (memberIds _ (filled.member i level))
  rwa [number_networkNum rootId level] at ids

theorem congr (filled : Filled root members idm slot) {others : List Multihash}
    (same : ∀ id, id ∈ others ↔ id ∈ members) :
    Filled root others idm slot where
  root_eq := filled.root_eq
  ids_eq := filled.ids_eq
  counted := filled.counted
  member i level := (same _).mpr (filled.member i level)
  nearest i level := (filled.nearest i level).congr fun number => by simp only [List.mem_map, same]

end Filled

/-- The first id gets all slots. -/
theorem filled_first (root id : Multihash) : Filled root [id] ((new root nodeIdLevel).addId id).2.2 fun _ => id where
  root_eq := rfl
  ids_eq := by
    rw [addId]
    simp [new]
  counted := Nat.one_ne_zero
  member _ _ := List.mem_singleton_self _
  nearest _ _ := ⟨List.mem_singleton_self _, fun other mem => by rw [List.mem_singleton.mp mem]⟩

theorem filled_addAll (rootId : IsNodeId root) (memberIds : ∀ member ∈ members, IsSuperId member)
    (filled : Filled root members idm slot) {ids : List Multihash} (idIds : ∀ id ∈ ids, IsSuperId id) :
    ∃ slot, Filled root (ids.reverse ++ members) (idm.addAll ids) slot := by
  induction ids generalizing members idm slot with
  | nil => exact ⟨slot, filled⟩
  | cons first ids ih =>
    rw [List.forall_mem_cons] at idIds
    obtain ⟨slot, filled⟩ := ih (List.forall_mem_cons.mpr ⟨idIds.1, memberIds⟩)
      (filled.addId rootId memberIds first) idIds.2
    rw [List.reverse_cons, List.append_assoc]
    exact ⟨slot, filled⟩

/-- All of some ids that are added hold the slots in the end. -/
theorem exists_filled (rootId : IsNodeId root) {ids : List Multihash} (idIds : ∀ id ∈ ids, IsSuperId id)
    (nonempty : ids ≠ []) :
    ∃ slot, Filled root ids ((new root nodeIdLevel).addAll ids) slot := by
  cases ids with
  | nil => exact absurd rfl nonempty
  | cons first ids =>
    rw [List.forall_mem_cons] at idIds
    have firstId : ∀ member ∈ [first], IsSuperId member := fun member mem => List.mem_singleton.mp mem ▸ idIds.1
    obtain ⟨slot, filled⟩ := filled_addAll rootId firstId (filled_first root first) idIds.2
    exact ⟨slot, filled.congr fun id => by simp [or_comm]⟩

end Ids

/-- A table that is built by adding nodes one after the other, the last one first. -/
inductive Built (self : Multihash) : List Multihash → NodeManager → Prop
  | start {this : NodeManager} (nodeSelf : this.nodeSelf = self) (empty : this.nodes = []) : Built self [] this
  | add {added : List Multihash} {this : NodeManager} (built : Built self added this) {allNodes : List Multihash}
      (range : allNodes.Perm this.nodes) (node : Multihash) : Built self (node :: added) (this.addNode allNodes node)

namespace NodeManager

variable {this : NodeManager} {allNodes : List Multihash} {node : Multihash} {self : Multihash} {added : List Multihash}

@[simp] theorem addNode_nodeSelf : (this.addNode allNodes node).nodeSelf = this.nodeSelf := by
  rw [addNode]
  split
  · rfl
  · dsimp only
    split
    · rfl
    · rfl

@[simp] theorem addNode_isSuper : (this.addNode allNodes node).isSuper = this.isSuper := by
  rw [addNode]
  split
  · rfl
  · dsimp only
    split
    · rfl
    · rfl

/-- The first node is stored. -/
theorem mem_addNode_first (other : node ≠ this.nodeSelf) (empty : this.nodes = []) {one : Multihash} :
    one ∈ (this.addNode [] node).nodes ↔ one = node := by
  have first : ((Ids.new this.nodeSelf nodeIdLevel).addAll []).addId node =
      (true, [], { Ids.new this.nodeSelf nodeIdLevel with
        ids := (Ids.new this.nodeSelf nodeIdLevel).ids.map fun _ => node, count := 1 }) := rfl
  simp [addNode, other, first, empty]

/-- A table that holds what has slots still does. -/
theorem mem_addNode {members : List Multihash} {slot : ℕ → Multihash} (other : node ≠ this.nodeSelf)
    (filled : Ids.Filled this.nodeSelf members ((Ids.new this.nodeSelf nodeIdLevel).addAll allNodes) slot)
    (held : ∀ one, one ∈ this.nodes ↔ ∃ i < nodeIdLevel, slot i = one) {one : Multihash} :
    one ∈ (this.addNode allNodes node).nodes ↔ ∃ i < nodeIdLevel, Ids.Filled.next this.nodeSelf node slot i = one := by
  have removed := filled.mem_removeIDs node one
  have old : one ∈ ((Ids.new this.nodeSelf nodeIdLevel).addAll allNodes).ids ↔ one ∈ this.nodes := by
    rw [filled.mem_ids, held]
  rw [← filled.mem_addId_ids, addNode, if_neg other]
  rcases filled.addId_ok node with ⟨ok, inside⟩ | ⟨refused, same⟩
  · have stored : one ∈ (if node ∈ this.nodes then this.nodes else this.nodes ++ [node]) ↔
      one ∈ this.nodes ∨ one = node := by
      split
      · next known => exact ⟨.inl, fun mem => mem.elim id fun same => same ▸ known⟩
      · simp
    have kept : one ∈ (((Ids.new this.nodeSelf nodeIdLevel).addAll allNodes).addId node).2.2.ids →
        one ∈ this.nodes ∨ one = node := by
      rw [filled.mem_addId_ids, held]
      rintro ⟨i, level, same⟩
      rw [Ids.Filled.next] at same
      split at same
      · exact .inl ⟨i, level, same⟩
      · exact .inr same.symm
    simp only [ok, if_true, List.mem_filter, stored, decide_eq_true_iff, removed, old]
    constructor
    · rintro ⟨mem | rfl, remains⟩
      · by_contra lost
        exact remains ⟨mem, lost⟩
      · exact inside
    · exact fun mem => ⟨kept mem, fun lost => lost.2 mem⟩
  · simp only [refused, Bool.false_eq_true, if_false, same, old]

end NodeManager

theorem Built.nodeSelf_eq {self : Multihash} {added : List Multihash} {this : NodeManager}
    (built : Built self added this) :
    this.nodeSelf = self := by
  induction built with
  | start nodeSelf => exact nodeSelf
  | add _ _ _ ih => rw [NodeManager.addNode_nodeSelf, ih]

/-- The slots hold of the members those that are nearest for some slot. -/
theorem Ids.Filled.mem_slots_iff {root : Multihash} {members : List Multihash} {idm : Ids} {slot : ℕ → Multihash}
    (filled : Ids.Filled root members idm slot) (memberIds : ∀ id ∈ members, IsSuperId id) {id : Multihash} :
    (∃ i < nodeIdLevel, slot i = id) ↔
      id ∈ members ∧ ∃ i < nodeIdLevel, Xor.Nearest (members.map Multihash.number) (place root i) id.number := by
  constructor
  · rintro ⟨i, level, rfl⟩
    exact ⟨filled.member i level, i, level, filled.nearest i level⟩
  · rintro ⟨mem, i, level, nearest⟩
    have same := (filled.nearest i level).unique nearest
    exact ⟨i, level, (memberIds _ (filled.member i level)).number_inj (memberIds _ mem) same⟩

/-- Where a table holds what is nearest among all that were added, filling slots from the table is filling them
from all that were added. -/
theorem Ids.filled_of_nearest {self : Multihash} (selfId : IsNodeId self) {added nodes allNodes : List Multihash}
    (addedIds : ∀ id ∈ added, IsSuperId id) (nonempty : added ≠ []) (range : allNodes.Perm nodes)
    (holds : ∀ id, id ∈ nodes ↔ id ∈ added ∧
      ∃ i < nodeIdLevel, Xor.Nearest (added.map Multihash.number) (place self i) id.number) :
    ∃ slot, Ids.Filled self added ((Ids.new self nodeIdLevel).addAll allNodes) slot := by
  have stored {i : ℕ} (level : i < nodeIdLevel) : ∃ one ∈ nodes,
      Xor.Nearest (added.map Multihash.number) (place self i) one.number := by
    obtain ⟨number, nearest⟩ := Xor.exists_nearest (fun none => nonempty (List.map_eq_nil_iff.mp none)) (place self i)
    obtain ⟨one, mem, rfl⟩ := List.mem_map.mp nearest.1
    exact ⟨one, (holds one).mpr ⟨mem, i, level, nearest⟩, nearest⟩
  have known {one : Multihash} (mem : one ∈ allNodes) : one ∈ added := ((holds one).mp (range.mem_iff.mp mem)).1
  have some : allNodes ≠ [] := by
    rintro rfl
    obtain ⟨one, mem, -⟩ := stored (show 0 < nodeIdLevel from by decide)
    exact List.not_mem_nil (range.mem_iff.mpr mem)
  obtain ⟨slot, filled⟩ := Ids.exists_filled selfId (fun one mem => addedIds one (known mem)) some
  refine ⟨slot, { filled with member := fun i level => known (filled.member i level), nearest := fun i level => ?_ }⟩
  obtain ⟨one, mem, nearest⟩ := stored level
  have inside : one.number ∈ allNodes.map Multihash.number := List.mem_map_of_mem (range.mem_iff.mpr mem)
  have subset : ∀ number ∈ allNodes.map Multihash.number, number ∈ added.map Multihash.number := by
    intro number mem
    obtain ⟨one, member, rfl⟩ := List.mem_map.mp mem
    exact List.mem_map_of_mem (known member)
  rw [(filled.nearest i level).unique (nearest.anti inside subset)]
  exact nearest

/-- A table holds of all that were added those that are nearest for some slot. -/
theorem Built.mem_nodes {self : Multihash} (selfId : IsSuperId self) {added : List Multihash} {this : NodeManager}
    (built : Built self added this) (addedIds : ∀ id ∈ added, IsSuperId id) (others : self ∉ added) {id : Multihash} :
    id ∈ this.nodes ↔ id ∈ added ∧
      ∃ i < nodeIdLevel, Xor.Nearest (added.map Multihash.number) (place self i) id.number := by
  induction built generalizing id with
  | start _ empty =>
    rw [empty]
    exact iff_of_false List.not_mem_nil fun ⟨mem, _⟩ => List.not_mem_nil mem
  | @add added this built allNodes range node ih =>
    rw [List.forall_mem_cons] at addedIds
    rw [List.mem_cons, not_or] at others
    have selfEq := built.nodeSelf_eq
    have other : node ≠ this.nodeSelf := fun same => others.1 (by rw [same, selfEq])
    have holds := @ih addedIds.2 others.2
    by_cases empty : added = []
    · have none : this.nodes = [] := by
        refine List.eq_nil_iff_forall_not_mem.mpr fun one mem => ?_
        have inside := (holds.mp mem).1
        rw [empty] at inside
        cases inside
      rw [none, List.perm_nil] at range
      rw [range, NodeManager.mem_addNode_first other none, empty, List.mem_singleton]
      refine ⟨?_, fun ⟨same, _⟩ => same⟩
      rintro rfl
      refine ⟨rfl, 0, by decide, List.mem_singleton_self _, fun number mem => ?_⟩
      rw [List.mem_singleton.mp mem]
    · obtain ⟨slot, filled⟩ := Ids.filled_of_nearest selfId.isNodeId addedIds.2 empty range fun id => holds
      have held (one : Multihash) : one ∈ this.nodes ↔ ∃ i < nodeIdLevel, slot i = one :=
        holds.trans (filled.mem_slots_iff addedIds.2).symm
      rw [NodeManager.mem_addNode other (selfEq ▸ filled) held, selfEq]
      exact (filled.addId selfId.isNodeId addedIds.2 node).mem_slots_iff (List.forall_mem_cons.mpr addedIds)

end PolarCloud.NodeStore
