import PolarCloud.Proofs.NodeStore.NeedNode

/-! # Tables after additions

A table that is built of nodes without a zero byte in front takes a node exactly when that is for some slot nearer than
all of the table. Two tables with the same ids stay the same, whatever the order in which they are ranged over.
-/

namespace PolarCloud.NodeStore.NodeManager

variable {this that : NodeManager} {node id one : Multihash} {allNodes allNodes' : List Multihash}

/-- An id that is for some slot nearer than the whole table. -/
def Needs (this : NodeManager) (id : Multihash) : Prop :=
  id ≠ this.nodeSelf ∧ ∃ i < nodeIdLevel, ∀ one ∈ this.nodes,
    place this.nodeSelf i ^^^ id.number < place this.nodeSelf i ^^^ one.number

/-- The node that is nearest to the node itself is the nearest to the first slot too. -/
def NearIsFirst (this : NodeManager) : Prop :=
  ∃ near ∈ this.nodes, ∀ one ∈ this.nodes,
    this.nodeSelf.number ^^^ near.number ≤ this.nodeSelf.number ^^^ one.number ∧
      place this.nodeSelf 0 ^^^ near.number ≤ place this.nodeSelf 0 ^^^ one.number

/-- The super peer is the node that is nearest to the first slot. -/
def FirstPeer (this : NodeManager) : Prop :=
  ∃ first ∈ this.nodes, this.superPeerId = some first ∧
    ∀ one ∈ this.nodes, place this.nodeSelf 0 ^^^ first.number ≤ place this.nodeSelf 0 ^^^ one.number

/-- A table as it is built of nodes without a zero byte in front. -/
structure Sound (this : NodeManager) : Prop where
  known : this.KnownIds
  zeroFree : this.ZeroFree
  fits : this.Fits

/-- Only the own id and the table count. -/
theorem Sound.congr (sound : this.Sound) (nodeSelf : that.nodeSelf = this.nodeSelf) (nodes : that.nodes = this.nodes) :
    that.Sound := by
  refine ⟨⟨nodeSelf ▸ sound.known.nodeSelf, nodes ▸ sound.known.nodes, ?_⟩, ?_, ?_⟩
  · rw [nodeSelf, nodes]
    exact sound.known.others
  · rw [ZeroFree, nodes]
    exact sound.zeroFree
  · rw [Fits, nodeSelf, nodes]
    exact sound.fits

/-- Two tables of one node with the same ids. -/
structure Same (this that : NodeManager) : Prop where
  nodeSelf : this.nodeSelf = that.nodeSelf
  nodes : ∀ id, id ∈ this.nodes ↔ id ∈ that.nodes

namespace Same

theorem needs_iff (same : Same this that) : this.Needs id ↔ that.Needs id := by
  rw [Needs, Needs, same.nodeSelf]
  simp only [same.nodes]

theorem nearIsFirst_iff (same : Same this that) : this.NearIsFirst ↔ that.NearIsFirst := by
  rw [NearIsFirst, NearIsFirst, same.nodeSelf]
  simp only [same.nodes]

theorem trans {other : NodeManager} (same : Same this that) (same' : Same that other) : Same this other :=
  ⟨same.nodeSelf.trans same'.nodeSelf, fun id => (same.nodes id).trans (same'.nodes id)⟩

theorem symm (same : Same this that) : Same that this :=
  ⟨same.nodeSelf.symm, fun id => (same.nodes id).symm⟩

end Same

theorem checkNeedNode_iff_needs (sound : this.Sound) (order : TableOrder) (own : id = this.nodeSelf → this.nodes ≠ []) :
    this.checkNeedNode (order.visit this.nodes) id = true ↔ this.Needs id := by
  by_cases same : id = this.nodeSelf
  · have some : order.visit this.nodes ≠ [] := fun none => own same ((visit_eq_nil_iff order).mp none)
    rw [checkNeedNode, if_neg (by simpa using some), if_pos same, Needs]
    exact iff_of_false Bool.false_ne_true fun needs => needs.1 same
  · have refused := not_congr (refused_iff sound.known sound.zeroFree same order)
    rw [Bool.not_eq_false] at refused
    rw [refused, Needs, and_iff_right same]
    push Not
    exact Iff.rfl

/-- What is in a table after an addition. -/
theorem mem_addNode_iff (sound : this.Sound) (range : allNodes.Perm this.nodes) (superId : IsSuperId node)
    (other : node ≠ this.nodeSelf) : one ∈ (this.addNode allNodes node).nodes ↔ one ∈ node :: this.nodes ∧
      ∃ i < nodeIdLevel,
        Xor.Nearest ((node :: this.nodes).map Multihash.number) (place this.nodeSelf i) one.number := by
  by_cases empty : this.nodes = []
  · rw [empty, List.perm_nil] at range
    rw [range, mem_addNode_first other empty, empty]
    constructor
    · rintro rfl
      refine ⟨List.mem_singleton_self _, 0, by decide, List.mem_singleton_self _, fun number mem => ?_⟩
      rw [List.mem_singleton.mp mem]
    · exact fun both => List.mem_singleton.mp both.1
  · obtain ⟨slot, filled⟩ := exists_slots sound.known sound.zeroFree empty range
    have superIds := sound.known.superIds sound.zeroFree
    rw [mem_addNode other filled (held_of_fits sound.known sound.zeroFree sound.fits filled)]
    exact (filled.addId sound.known.nodeSelf superIds node).mem_slots_iff (List.forall_mem_cons.mpr ⟨superId, superIds⟩)

/-- What is not needed changes nothing. -/
theorem addNode_unneeded (sound : this.Sound) (order : TableOrder) (unneeded : ¬ this.Needs id) :
    this.addNode (order.visit this.nodes) id = this := by
  by_cases own : id = this.nodeSelf
  · rw [addNode, if_pos own]
  · apply addNode_refused
    rw [Bool.eq_false_iff, ne_eq, checkNeedNode_iff_needs sound order fun same => absurd same own]
    exact unneeded

/-- What is needed is in the table afterwards. -/
theorem mem_addNode_needed (sound : this.Sound) (range : allNodes.Perm this.nodes) (superId : IsSuperId id)
    (needs : this.Needs id) : id ∈ (this.addNode allNodes id).nodes := by
  obtain ⟨other, i, level, nearer⟩ := needs
  apply (mem_addNode_iff sound range superId other).mpr
  refine ⟨List.mem_cons_self, i, level, List.mem_cons_self, ?_⟩
  rw [List.map_cons, List.forall_mem_cons]
  exact ⟨le_rfl, List.forall_mem_map.mpr fun one mem => (nearer one mem).le⟩

/-- What was added is not needed again. -/
theorem not_needs_stored (sound : this.Sound) (range : allNodes.Perm this.nodes) (superId : IsSuperId id)
    (needs : this.Needs id) : ¬ (this.addNode allNodes id).Needs id := by
  rintro ⟨-, i, -, nearer⟩
  exact lt_irrefl _ (nearer _ (mem_addNode_needed sound range superId needs))

theorem sound_addNode (sound : this.Sound) (order : TableOrder) (superId : IsSuperId id) :
    (this.addNode (order.visit this.nodes) id).Sound := by
  by_cases own : id = this.nodeSelf
  · rw [addNode, if_pos own]
    exact sound
  · refine ⟨@known_step this (.addNode order id) superId.isNodeId sound.known, fun one mem => ?_, ?_⟩
    · rcases mem_addNode_old mem with old | rfl
      · exact sound.zeroFree one old
      · exact superId.data_head?
    · exact addNode_fits sound.known sound.zeroFree sound.fits (order.perm _) superId.isNodeId own superId.data_head?

theorem same_addNode (sound : this.Sound) (sound' : that.Sound) (same : Same this that) (superId : IsSuperId id)
    (range : allNodes.Perm this.nodes) (range' : allNodes'.Perm that.nodes) :
    Same (this.addNode allNodes id) (that.addNode allNodes' id) := by
  refine ⟨by rw [addNode_nodeSelf, addNode_nodeSelf, same.nodeSelf], fun one => ?_⟩
  by_cases own : id = this.nodeSelf
  · rw [addNode, if_pos own, addNode, if_pos (own.trans same.nodeSelf)]
    exact same.nodes one
  · rw [mem_addNode_iff sound range superId own, mem_addNode_iff sound' range' superId (same.nodeSelf ▸ own),
      ← same.nodeSelf]
    have members (two : Multihash) : two ∈ id :: this.nodes ↔ two ∈ id :: that.nodes := by
      rw [List.mem_cons, List.mem_cons, same.nodes]
    have numbers (number : ℕ) : number ∈ (id :: this.nodes).map Multihash.number ↔
        number ∈ (id :: that.nodes).map Multihash.number := by
      simp only [List.mem_map, members]
    rw [members]
    refine and_congr_right fun _ => exists_congr fun i => and_congr_right fun _ => ?_
    exact ⟨fun near => near.congr fun number => (numbers number).symm, fun near => near.congr numbers⟩

theorem sound_step (sound : this.Sound) {event : TableEvent}
    (superIds : ∀ order node, event = .addNode order node → IsSuperId node) : (this.step event).Sound := by
  obtain ⟨self, ⟨order, node, rfl⟩ | fewer⟩ := step_tables this event
  · exact sound_addNode sound order (superIds order node rfl)
  · obtain ⟨zeroFree, fits⟩ := fits_of_fewer sound.zeroFree sound.fits self fewer
    exact ⟨sound.known.fewer self fewer, zeroFree, fits⟩

/-- All tables that come from an empty one by additions of nodes without a zero byte in front and by deletions. -/
theorem sound_run (selfId : IsNodeId this.nodeSelf) (empty : this.nodes = []) {events : List TableEvent}
    (superIds : ∀ event ∈ events, ∀ order node, event = .addNode order node → IsSuperId node) :
    (events.foldl step this).Sound := by
  have none {id : Multihash} : id ∉ this.nodes := by
    rw [empty]
    exact List.not_mem_nil
  have start : this.Sound := ⟨⟨selfId, fun id mem => absurd mem none, none⟩, fun id mem => absurd mem none,
    fun id mem => absurd mem none⟩
  induction events using List.reverseRecOn with
  | nil => exact start
  | append_singleton events event ih =>
    rw [Replay.foldl_concat]
    apply sound_step
    · exact ih fun one mem => superIds one (List.mem_append_left _ mem)
    · exact superIds event (List.mem_append_right _ (List.mem_singleton_self _))

/-- A later table has something at least as near to each slot. -/
theorem near_addNode (sound : this.Sound) (order : TableOrder) (superId : IsSuperId id) {i : ℕ}
    (level : i < nodeIdLevel) (mem : one ∈ this.nodes) : ∃ two ∈ (this.addNode (order.visit this.nodes) id).nodes,
      place this.nodeSelf i ^^^ two.number ≤ place this.nodeSelf i ^^^ one.number := by
  by_cases own : id = this.nodeSelf
  · rw [addNode, if_pos own]
    exact ⟨one, mem, le_rfl⟩
  · obtain ⟨number, inside, least⟩ := @Xor.exists_nearest ((id :: this.nodes).map Multihash.number)
      (List.cons_ne_nil _ _) (place this.nodeSelf i)
    obtain ⟨two, member, rfl⟩ := List.mem_map.mp inside
    refine ⟨two, (mem_addNode_iff sound (order.perm _) superId own).mpr ⟨member, i, level, inside, least⟩, ?_⟩
    exact least _ (List.mem_map_of_mem (List.mem_cons_of_mem _ mem))

/-- After an addition the super peer is the node that is nearest to the first slot. -/
theorem firstPeer_addNode (sound : this.Sound) (order : TableOrder) (superId : IsSuperId id) (needs : this.Needs id) :
    (this.addNode (order.visit this.nodes) id).FirstPeer := by
  rw [FirstPeer, addNode_nodeSelf]
  have needed := (checkNeedNode_iff_needs sound order fun own => absurd own needs.1).mpr needs
  have fewer {one : Multihash} (mem : one ∈ (this.addNode (order.visit this.nodes) id).nodes) :
      one ∈ id :: this.nodes := List.mem_cons.mpr (mem_addNode_old mem).symm
  by_cases empty : this.nodes = []
  · have none : order.visit this.nodes = [] := (visit_eq_nil_iff order).mpr empty
    refine ⟨id, mem_addNode_needed sound (order.perm _) superId needs, ?_, fun one mem => ?_⟩
    · rw [none, addNode, if_neg needs.1]
      rfl
    · have only := fewer mem
      rw [empty, List.mem_singleton] at only
      rw [only]
  · obtain ⟨slot, filled⟩ := exists_slots sound.known sound.zeroFree empty (order.perm this.nodes)
    have after := filled.addId sound.known.nodeSelf (sound.known.superIds sound.zeroFree) id
    have some : order.visit this.nodes ≠ [] := fun none => empty ((visit_eq_nil_iff order).mp none)
    rw [checkNeedNode_eq some needs.1] at needed
    refine ⟨Ids.Filled.next this.nodeSelf id slot 0, ?_, ?_, fun one mem => ?_⟩
    · rw [mem_addNode needs.1 filled (held_of_fits sound.known sound.zeroFree sound.fits filled)]
      exact ⟨0, by decide, rfl⟩
    · rw [addNode, if_neg needs.1]
      change (if ((this.rebuilt (order.visit this.nodes)).addId id).1 then _ else this).superPeerId = _
      rw [if_pos needed]
      exact after.getElem?_ids (by decide)
    · exact (after.nearest 0 (by decide)).2 _ (List.mem_map_of_mem (fewer mem))

end PolarCloud.NodeStore.NodeManager
