import PolarCloud.Proofs.NodeStore.Slots
import PolarCloud.Proofs.NodeStore.SuperPeer

/-! # Checking a node and adding it

Both build the slots anew from the table. They agree as long as no node of the table has a digest that begins with a
zero byte: such a node gives its slots to anyone, itself included. With an empty table the node's own id is needed too,
and is not added.
-/

namespace PolarCloud.NodeStore.NodeManager

variable {this : NodeManager} {node id : Multihash} {slot : ℕ → Multihash}

/-- The slots that are built from the table, when it is ranged over in one order. -/
def rebuilt (this : NodeManager) (allNodes : List Multihash) : Ids :=
  (Ids.new this.nodeSelf nodeIdLevel).addAll allNodes

/-- An id is needed exactly when adding it puts it into the table, where it was not before; neither the own id is
needed nor one of the table. -/
structure Agrees (this : NodeManager) (id : Multihash) : Prop where
  added : ∀ order order' : TableOrder, this.checkNeedNode (order.visit this.nodes) id = true ↔
    id ∉ this.nodes ∧ id ∈ (this.addNode (order'.visit this.nodes) id).nodes
  refused : ∀ order : TableOrder, id = this.nodeSelf ∨ id ∈ this.nodes →
    this.checkNeedNode (order.visit this.nodes) id = false

/-- The slots hold the nodes of the table. -/
def HeldInSlots (this : NodeManager) : Prop :=
  ∀ order : TableOrder, ∀ id, id ∈ this.nodes ↔ id ∈ (this.rebuilt (order.visit this.nodes)).held

/-- Checks and additions agree, apart from the own id with an empty table. -/
def Agreeing (this : NodeManager) : Prop :=
  (∀ id, IsNodeId id → (id = this.nodeSelf → this.nodes ≠ []) → this.Agrees id) ∧ this.HeldInSlots

/-- A node that is offered has the id of a node. -/
def Offered (_ : NodeManager) : TableEvent → Prop
  | .addNode _ node => IsNodeId node
  | .delNode _ => True
  | .closeConnCallback _ => True

/-- A node with a digest that begins with a zero byte is added only where it is for no slot nearer than all nodes of the
table, or where it is the node itself. -/
def KeepsZeroOut (this : NodeManager) : TableEvent → Prop
  | .addNode _ node => node.data.head? = some 0 → node = this.nodeSelf ∨ ∀ i < nodeIdLevel,
      ∃ one ∈ this.nodes, place this.nodeSelf i ^^^ one.number ≤ place this.nodeSelf i ^^^ node.number
  | .delNode _ => True
  | .closeConnCallback _ => True

/-- What is known of the ids of a node: they are made by nodes, and its own is not in its table. -/
structure KnownIds (this : NodeManager) : Prop where
  nodeSelf : IsNodeId this.nodeSelf
  nodes : ∀ id ∈ this.nodes, IsNodeId id
  others : this.nodeSelf ∉ this.nodes

/-- Every node of the table is the nearest of them for some slot. -/
def Fits (this : NodeManager) : Prop :=
  ∀ id ∈ this.nodes, ∃ i < nodeIdLevel, Xor.Nearest (this.nodes.map Multihash.number) (place this.nodeSelf i) id.number

/-- No node of the table has a digest that begins with a zero byte. -/
def ZeroFree (this : NodeManager) : Prop := ∀ id ∈ this.nodes, id.data.head? ≠ some 0

theorem isSuperId_of (nodeId : IsNodeId id) (leading : id.data.head? ≠ some 0) : IsSuperId id :=
  ⟨id.data, nodeId.data_eq.1, leading, nodeId.data_eq.2⟩

theorem KnownIds.superIds (known : this.KnownIds) (zeroFree : this.ZeroFree) : ∀ id ∈ this.nodes, IsSuperId id :=
  fun id mem => isSuperId_of (known.nodes id mem) (zeroFree id mem)

/-- Slots that are built from a table without zeros hold the nearest of its nodes. -/
theorem exists_slots (known : this.KnownIds) (zeroFree : this.ZeroFree) (nonempty : this.nodes ≠ [])
    {allNodes : List Multihash} (range : allNodes.Perm this.nodes) :
    ∃ slot, Ids.Filled this.nodeSelf this.nodes (this.rebuilt allNodes) slot := by
  have superIds := known.superIds zeroFree
  obtain ⟨slot, filled⟩ := Ids.exists_filled known.nodeSelf (fun id mem => superIds id (range.mem_iff.mp mem))
    fun none => nonempty (by rw [none] at range; exact range.nil_eq.symm)
  exact ⟨slot, filled.congr fun id => range.mem_iff.symm⟩

/-- Whatever the order, a table without zeros gives every slot the same id. -/
theorem slot_unique (known : this.KnownIds) {idm idm' : Ids} {slot' : ℕ → Multihash}
    (filled : Ids.Filled this.nodeSelf this.nodes idm slot) (filled' : Ids.Filled this.nodeSelf this.nodes idm' slot')
    {i : ℕ} (level : i < nodeIdLevel) : slot i = slot' i := by
  apply (known.nodes _ (filled.member i level)).number_inj (known.nodes _ (filled'.member i level))
  exact (filled.nearest i level).unique (filled'.nearest i level)

/-- In a table without zeros all nodes have slots exactly when each is the nearest for one. -/
theorem heldInSlots_iff (known : this.KnownIds) (zeroFree : this.ZeroFree) : this.HeldInSlots ↔ this.Fits := by
  by_cases empty : this.nodes = []
  · refine iff_of_true (fun order id => ?_) fun id mem => absurd mem (by rw [empty]; exact List.not_mem_nil)
    have none : order.visit this.nodes = [] := by
      apply List.Perm.eq_nil
      rw [← empty]
      exact order.perm this.nodes
    rw [none, empty]
    exact Iff.rfl
  · have held (order : TableOrder) (id : Multihash) : id ∈ (this.rebuilt (order.visit this.nodes)).held ↔
        id ∈ this.nodes ∧
          ∃ i < nodeIdLevel, Xor.Nearest (this.nodes.map Multihash.number) (place this.nodeSelf i) id.number := by
      obtain ⟨slot, filled⟩ := exists_slots known zeroFree empty (order.perm this.nodes)
      rw [Ids.held, if_neg filled.counted, filled.mem_ids]
      exact filled.mem_slots_iff (known.superIds zeroFree)
    constructor
    · intro all id mem
      exact ((held anyOrder id).mp ((all anyOrder id).mp mem)).2
    · intro fits order id
      rw [held order id]
      exact (and_iff_left_of_imp (fits id)).symm

/-- A slot of a table without zeros keeps its node unless the other one is nearer. -/
theorem keeps_slot (known : this.KnownIds) (zeroFree : this.ZeroFree) {idm : Ids}
    (filled : Ids.Filled this.nodeSelf this.nodes idm slot) (id : Multihash) {i : ℕ} (level : i < nodeIdLevel) :
    Ids.keeps id (slot i) (Multihash.ofNumber (place this.nodeSelf i)) = true ↔
      place this.nodeSelf i ^^^ (slot i).number ≤ place this.nodeSelf i ^^^ id.number := by
  have mem := filled.member i level
  rw [Ids.keeps_eq_true_iff _ _ (known.superIds zeroFree _ mem), number_networkNum known.nodeSelf level]

theorem checkNeedNode_eq {allNodes : List Multihash} (nonempty : allNodes ≠ []) (other : id ≠ this.nodeSelf) :
    this.checkNeedNode allNodes id = ((this.rebuilt allNodes).addId id).1 := by
  rw [checkNeedNode, if_neg (by simpa using nonempty), if_neg other]
  rfl

theorem visit_eq_nil_iff (order : TableOrder) {nodes : List Multihash} : order.visit nodes = [] ↔ nodes = [] := by
  have length := (order.perm nodes).length_eq
  constructor
  · intro none
    rw [none] at length
    exact List.eq_nil_of_length_eq_zero length.symm
  · rintro rfl
    exact List.eq_nil_of_length_eq_zero length

/-- A table without zeros needs no id for which every slot has a node that is not farther. -/
theorem refused_iff (known : this.KnownIds) (zeroFree : this.ZeroFree) (other : id ≠ this.nodeSelf)
    (order : TableOrder) : this.checkNeedNode (order.visit this.nodes) id = false ↔ ∀ i < nodeIdLevel,
      ∃ one ∈ this.nodes, place this.nodeSelf i ^^^ one.number ≤ place this.nodeSelf i ^^^ id.number := by
  by_cases empty : this.nodes = []
  · rw [(visit_eq_nil_iff order).mpr empty, empty]
    refine iff_of_false nofun fun all => ?_
    obtain ⟨one, mem, -⟩ := all 0 (by decide)
    cases mem
  · obtain ⟨slot, filled⟩ := exists_slots known zeroFree empty (order.perm this.nodes)
    have some : order.visit this.nodes ≠ [] := fun none => empty ((visit_eq_nil_iff order).mp none)
    rw [checkNeedNode_eq some other, filled.addId_eq, Bool.not_eq_false', List.isEmpty_iff,
      List.eq_nil_iff_forall_not_mem]
    refine forall_congr' fun i => ?_
    rw [Ids.Filled.mem_taken, not_and, not_not]
    refine forall_congr' fun level => ?_
    rw [keeps_slot known zeroFree filled id level]
    constructor
    · exact fun near => ⟨_, filled.member i level, near⟩
    · rintro ⟨one, mem, near⟩
      exact ((filled.nearest i level).2 _ (List.mem_map_of_mem mem)).trans near

theorem held_of_fits (known : this.KnownIds) (zeroFree : this.ZeroFree) (fits : this.Fits) {idm : Ids}
    (filled : Ids.Filled this.nodeSelf this.nodes idm slot) (one : Multihash) :
    one ∈ this.nodes ↔ ∃ i < nodeIdLevel, slot i = one := by
  rw [filled.mem_slots_iff (known.superIds zeroFree)]
  exact (and_iff_left_of_imp (fits one)).symm

/-- Where no digest of the table begins with a zero byte, checking and adding agree on every id. -/
theorem agrees_of_zeroFree (known : this.KnownIds) (zeroFree : this.ZeroFree) (fits : this.Fits)
    (other : id = this.nodeSelf → this.nodes ≠ []) : this.Agrees id := by
  by_cases empty : this.nodes = []
  · have apart : id ≠ this.nodeSelf := fun same => other same empty
    have none (order : TableOrder) : order.visit this.nodes = [] := (visit_eq_nil_iff order).mpr empty
    constructor
    · intro order order'
      rw [none order, none order', mem_addNode_first apart empty, empty]
      exact iff_of_true rfl ⟨List.not_mem_nil, rfl⟩
    · rintro order (same | stored)
      · exact absurd same apart
      · rw [empty] at stored
        cases stored
  · have some (order : TableOrder) : order.visit this.nodes ≠ [] := fun none =>
      empty ((visit_eq_nil_iff order).mp none)
    have own (order : TableOrder) (same : id = this.nodeSelf) :
        this.checkNeedNode (order.visit this.nodes) id = false := by
      rw [checkNeedNode, if_neg (by simpa using some order), if_pos same]
    have stored (order : TableOrder) (mem : id ∈ this.nodes) (apart : id ≠ this.nodeSelf) :
        this.checkNeedNode (order.visit this.nodes) id = false :=
      (refused_iff known zeroFree apart order).mpr fun _ _ => ⟨id, mem, le_rfl⟩
    have refused (order : TableOrder) (given : id = this.nodeSelf ∨ id ∈ this.nodes) :
        this.checkNeedNode (order.visit this.nodes) id = false := by
      by_cases same : id = this.nodeSelf
      · exact own order same
      · exact stored order (given.resolve_left same) same
    refine ⟨fun order order' => ?_, refused⟩
    by_cases inside : id = this.nodeSelf ∨ id ∈ this.nodes
    · rw [refused order inside]
      refine iff_of_false Bool.false_ne_true fun ⟨fresh, added⟩ => ?_
      rw [addNode, if_pos (inside.resolve_right fresh)] at added
      exact fresh added
    · obtain ⟨apart, fresh⟩ := not_or.mp inside
      obtain ⟨slot, filled⟩ := exists_slots known zeroFree empty (order.perm this.nodes)
      obtain ⟨slot', filled'⟩ := exists_slots known zeroFree empty (order'.perm this.nodes)
      rw [checkNeedNode_eq (some order) apart, filled.addId_eq, Bool.not_eq_true', List.isEmpty_eq_false_iff_exists_mem,
        and_iff_right fresh, mem_addNode apart filled' (held_of_fits known zeroFree fits filled')]
      refine exists_congr fun i => ?_
      rw [Ids.Filled.mem_taken]
      refine and_congr_right fun level => ?_
      rw [slot_unique known filled filled' level, Ids.Filled.next]
      split
      · next kept =>
        refine iff_of_false (fun replaced => replaced kept) fun same => fresh ?_
        exact same ▸ filled'.member i level
      · next replaced => exact iff_of_true replaced rfl

/-- An id with a zero byte in front that has a slot gives it to itself. -/
theorem addId_of_zero {idm : Ids} (held : id ∈ idm.held) (leading : id.data.head? = some 0) :
    (idm.addId id).1 = true := by
  rw [Ids.held] at held
  split at held
  · cases held
  · next filled =>
    obtain ⟨place, inside, rfl⟩ := List.getElem_of_mem held
    have target : place < (getNodeNetworkNum idm.root idm.ids.length).length := by
      rwa [getNodeNetworkNum, List.length_map, List.length_range]
    have slot : (idm.ids[place], (getNodeNetworkNum idm.root idm.ids.length)[place]) ∈
        idm.ids.zip (getNodeNetworkNum idm.root idm.ids.length) := by
      rw [List.mem_iff_getElem]
      exact ⟨place, by rw [List.length_zip]; omega, List.getElem_zip⟩
    rw [Ids.addId, if_neg filled]
    simp only [List.isEmpty_map, Bool.not_eq_true', List.isEmpty_eq_false_iff_exists_mem]
    refine ⟨_, List.mem_filter.mpr ⟨slot, ?_⟩⟩
    rw [Bool.not_eq_true', Bool.eq_false_iff]
    exact fun kept => ((Ids.keeps_iff ..).mp kept).1 leading

/-- A node of the table whose digest begins with a zero byte has no slot, or it is needed though it is there. -/
theorem zeroFree_of_agreeing (known : this.KnownIds) (agreeing : this.Agreeing) : this.ZeroFree := by
  intro id stored leading
  have nonempty : this.nodes ≠ [] := List.ne_nil_of_mem stored
  have other : id ≠ this.nodeSelf := fun same => known.others (same ▸ stored)
  have refused := (agreeing.1 id (known.nodes id stored) fun _ => nonempty).refused anyOrder (.inr stored)
  have held := (agreeing.2 anyOrder id).mp stored
  rw [checkNeedNode_eq (fun none => nonempty ((visit_eq_nil_iff anyOrder).mp none)) other,
    addId_of_zero held leading] at refused
  cases refused

theorem agreeing_iff (known : this.KnownIds) : this.Agreeing ↔ this.ZeroFree ∧ this.Fits := by
  constructor
  · intro agreeing
    have zeroFree := zeroFree_of_agreeing known agreeing
    exact ⟨zeroFree, (heldInSlots_iff known zeroFree).mp agreeing.2⟩
  · rintro ⟨zeroFree, fits⟩
    exact ⟨fun _ _ other => agrees_of_zeroFree known zeroFree fits other, (heldInSlots_iff known zeroFree).mpr fits⟩

/-! ## Runs -/

/-- A node that is not needed is not added. -/
theorem addNode_refused {allNodes : List Multihash} (refused : this.checkNeedNode allNodes node = false) :
    this.addNode allNodes node = this := by
  rw [checkNeedNode] at refused
  rw [addNode]
  split at refused
  · cases refused
  · split at refused
    · next same => rw [if_pos same]
    · next other =>
      rw [if_neg other]
      simp [refused]

theorem mem_addNode_old {allNodes : List Multihash} (mem : id ∈ (this.addNode allNodes node).nodes) :
    id ∈ this.nodes ∨ id = node := by
  rw [addNode] at mem
  split at mem
  · exact .inl mem
  · dsimp only at mem
    split at mem
    · have stored := (List.mem_filter.mp mem).1
      split at stored
      · exact .inl stored
      · exact (List.mem_append.mp stored).imp_right List.mem_singleton.mp
    · exact .inl mem

/-- What fits stays the nearest in a smaller table. -/
theorem fits_of_nearest {that : NodeManager} {members : List Multihash} (self : that.nodeSelf = this.nodeSelf)
    (fewer : ∀ id ∈ that.nodes, id ∈ members) (fits : ∀ id ∈ that.nodes, ∃ i < nodeIdLevel,
      Xor.Nearest (members.map Multihash.number) (place this.nodeSelf i) id.number) : that.Fits := by
  intro id mem
  obtain ⟨i, level, nearest⟩ := fits id mem
  refine ⟨i, level, self ▸ nearest.anti (List.mem_map_of_mem mem) ?_⟩
  exact List.forall_mem_map.mpr fun one inside => List.mem_map_of_mem (fewer one inside)

/-- A table without zeros takes a node without one, and all fit again. -/
theorem addNode_fits (known : this.KnownIds) (zeroFree : this.ZeroFree) (fits : this.Fits)
    {allNodes : List Multihash} (range : allNodes.Perm this.nodes) (nodeId : IsNodeId node)
    (other : node ≠ this.nodeSelf) (leading : node.data.head? ≠ some 0) : (this.addNode allNodes node).Fits := by
  refine @fits_of_nearest this _ (node :: this.nodes) addNode_nodeSelf (fun id mem => ?_) fun id mem => ?_
  · exact List.mem_cons.mpr (mem_addNode_old mem).symm
  · by_cases empty : this.nodes = []
    · rw [empty, List.perm_nil] at range
      rw [range, mem_addNode_first other empty] at mem
      refine ⟨0, by decide, ?_, fun number inside => ?_⟩
      · rw [mem]
        exact List.mem_cons_self
      · rw [empty, List.map_singleton, List.mem_singleton] at inside
        rw [inside, mem]
    · obtain ⟨slot, filled⟩ := exists_slots known zeroFree empty range
      have superIds := known.superIds zeroFree
      rw [mem_addNode other filled (held_of_fits known zeroFree fits filled)] at mem
      have after := filled.addId known.nodeSelf superIds node
      exact ((after.mem_slots_iff (List.forall_mem_cons.mpr ⟨isSuperId_of nodeId leading, superIds⟩)).mp mem).2

theorem closeConnCallback_tables (this : NodeManager) (name : Sessions.Name) :
    (this.closeConnCallback name).nodeSelf = this.nodeSelf ∧
      (this.closeConnCallback name).nodes = (this.delNode name.fromB58String).nodes := by
  rw [closeConnCallback]
  split
  · exact ⟨rfl, rfl⟩
  · split
    · split
      · exact ⟨rfl, rfl⟩
      · exact ⟨rfl, rfl⟩
    · exact ⟨rfl, rfl⟩

theorem delNode_subset (this : NodeManager) (id : Multihash) : (this.delNode id).nodes ⊆ this.nodes :=
  fun _ mem => (List.mem_filter.mp mem).1

/-- An event changes the table only by deletions, or it adds a node. -/
theorem step_tables (this : NodeManager) (event : TableEvent) : (this.step event).nodeSelf = this.nodeSelf ∧
    ((∃ order node, event = .addNode order node) ∨ (this.step event).nodes ⊆ this.nodes) := by
  cases event with
  | addNode order node => exact ⟨addNode_nodeSelf, .inl ⟨order, node, rfl⟩⟩
  | delNode id => exact ⟨rfl, .inr (delNode_subset this id)⟩
  | closeConnCallback name =>
    obtain ⟨self, nodes⟩ := closeConnCallback_tables this name
    refine ⟨self, .inr ?_⟩
    rw [step, nodes]
    exact delNode_subset this _

/-- What holds of all nodes of a table holds of those that are left. -/
theorem KnownIds.fewer {that : NodeManager} (known : this.KnownIds) (self : that.nodeSelf = this.nodeSelf)
    (fewer : that.nodes ⊆ this.nodes) : that.KnownIds :=
  ⟨self ▸ known.nodeSelf, fun id mem => known.nodes id (fewer mem), fun mem => known.others (self ▸ fewer mem)⟩

theorem fits_of_fewer {that : NodeManager} (zeroFree : this.ZeroFree) (fits : this.Fits)
    (self : that.nodeSelf = this.nodeSelf) (fewer : that.nodes ⊆ this.nodes) : that.ZeroFree ∧ that.Fits :=
  ⟨fun id mem => zeroFree id (fewer mem),
    fits_of_nearest self (fun _ mem => fewer mem) fun id mem => fits id (fewer mem)⟩

theorem known_step {event : TableEvent} (offered : this.Offered event) (known : this.KnownIds) :
    (this.step event).KnownIds := by
  obtain ⟨self, ⟨order, node, rfl⟩ | fewer⟩ := step_tables this event
  · refine ⟨self ▸ known.nodeSelf, fun id mem => ?_, fun mem => ?_⟩
    · rcases mem_addNode_old mem with old | rfl
      · exact known.nodes id old
      · exact offered
    · rw [self] at mem
      by_cases same : node = this.nodeSelf
      · rw [step, addNode, if_pos same] at mem
        exact known.others mem
      · exact (mem_addNode_old mem).elim known.others fun equal => same equal.symm
  · exact known.fewer self fewer

/-- An event keeps checks and additions in agreement exactly when it gives no slot to a node with a zero byte in front.
-/
theorem agreeing_step {event : TableEvent} (offered : this.Offered event) (known : this.KnownIds)
    (agreeing : this.Agreeing) : (this.step event).Agreeing ↔ this.KeepsZeroOut event := by
  obtain ⟨zeroFree, fits⟩ := (agreeing_iff known).mp agreeing
  rw [agreeing_iff (known_step offered known)]
  have deleted (fewer : (this.step event).nodes ⊆ this.nodes) := fits_of_fewer zeroFree fits
    (step_tables this event).1 fewer
  cases event with
  | addNode order node =>
    constructor
    · rintro ⟨zeroFree', -⟩ leading
      by_cases same : node = this.nodeSelf
      · exact .inl same
      · right
        rw [← refused_iff known zeroFree same order, Bool.eq_false_iff]
        intro needed
        have agrees := agreeing.1 node offered fun equal => absurd equal same
        exact zeroFree' node ((agrees.added order order).mp needed).2 leading
    · intro keeps
      by_cases refused : node = this.nodeSelf ∨ this.checkNeedNode (order.visit this.nodes) node = false
      · have unchanged : this.step (.addNode order node) = this := by
          rcases refused with same | refused
          · rw [step, addNode, if_pos same]
          · exact addNode_refused refused
        rw [unchanged]
        exact ⟨zeroFree, fits⟩
      · have leading : node.data.head? ≠ some 0 := by
          intro zero
          obtain ⟨other, needed⟩ := not_or.mp refused
          exact needed ((refused_iff known zeroFree other order).mpr ((keeps zero).resolve_left other))
        refine ⟨fun id mem => ?_, ?_⟩
        · rcases mem_addNode_old mem with old | rfl
          · exact zeroFree id old
          · exact leading
        · exact addNode_fits known zeroFree fits (order.perm _) offered (fun same => refused (.inl same)) leading
  | delNode id => exact iff_of_true (deleted (delNode_subset this id)) trivial
  | closeConnCallback name =>
    refine iff_of_true (deleted ?_) trivial
    rw [step, (closeConnCallback_tables this name).2]
    exact delNode_subset this _

/-- With an empty table the own id is needed and is not added. From such a table on, checks and additions of all other
nodes agree in every state of a run exactly when no node with a zero byte in front of its digest gets a slot. -/
theorem checkNeedNode_agrees_iff (selfId : IsNodeId this.nodeSelf) (empty : this.nodes = []) (events : List TableEvent)
    (offered : Replay.Each step this Offered events) :
    (∀ that : NodeManager, that.nodes = [] → ¬ that.Agrees that.nodeSelf) ∧
      (Replay.Always step this Agreeing events ↔ Replay.Each step this KeepsZeroOut events) := by
  constructor
  · intro that none agrees
    have refused := agrees.refused anyOrder (.inl rfl)
    rw [none] at refused
    cases refused
  · have none {id : Multihash} : id ∉ this.nodes := by
      rw [empty]
      exact List.not_mem_nil
    have known : this.KnownIds := ⟨selfId, fun id mem => absurd mem none, none⟩
    refine (Replay.always_iff_each_of ?_ known ?_ ?_ events offered).1
    · exact (agreeing_iff known).mpr ⟨fun id mem => absurd mem none, fun id mem => absurd mem none⟩
    · exact fun _ _ offered known _ => known_step offered known
    · exact fun _ _ offered known agreeing => agreeing_step offered known agreeing

/-- A node with an empty table, whose digest begins with no zero byte. -/
def alone : NodeManager where
  nodeSelf := idOf 7

/-- It is offered one neighbour and loses it again. -/
def oneNeighbour : List TableEvent := [.addNode anyOrder (idOf 1), .delNode (idOf 1)]

theorem agrees_alone : (∀ that : NodeManager, that.nodes = [] → ¬ that.Agrees that.nodeSelf) ∧
    (Replay.Always step alone Agreeing oneNeighbour ↔ Replay.Each step alone KeepsZeroOut oneNeighbour) := by
  refine @checkNeedNode_agrees_iff alone (nodeId_idOf 7) rfl oneNeighbour ?_
  rw [oneNeighbour, Replay.each_cons, Replay.each_cons]
  exact ⟨nodeId_idOf 1, trivial, Replay.each_nil⟩

/-- The own id is needed at first, and a stored id with a zero byte in front is needed again. -/
theorem needed_again : ¬ alone.Agrees (idOf 7) ∧
    ¬ (alone.step (.addNode anyOrder (idOf 0))).Agrees (idOf 0) := by
  constructor
  · intro agrees
    exact absurd (agrees.refused anyOrder (.inl rfl)) (by decide)
  · intro agrees
    let stored : NodeManager := { nodeSelf := idOf 7, nodes := [idOf 0], superPeerId := some (idOf 0) }
    have after : alone.step (.addNode anyOrder (idOf 0)) = stored := by decide +kernel
    rw [after] at agrees
    have held : idOf 0 ∈ (stored.rebuilt [idOf 0]).held := by
      have filled := Ids.filled_first (idOf 7) (idOf 0)
      change idOf 0 ∈ ((Ids.new (idOf 7) nodeIdLevel).addId (idOf 0)).2.2.held
      rw [Ids.held, if_neg filled.counted, filled.mem_ids]
      exact ⟨0, by decide, rfl⟩
    have needed := @checkNeedNode_eq stored (idOf 0) [idOf 0] (List.cons_ne_nil _ _) (by decide)
    rw [addId_of_zero held (by decide)] at needed
    have refused := agrees.refused anyOrder (.inr (List.mem_singleton_self _))
    exact Bool.false_ne_true (refused.symm.trans needed)

end PolarCloud.NodeStore.NodeManager
