import PolarCloud.Base.Replay
import PolarCloud.Model.NodeStore.SuperPeer
import PolarCloud.Proofs.NodeStore.Search

/-! # The super peer

A new node makes the id in slot 0 the super peer, and what has a slot is in the table. A lost node leaves the table at
once, while the super peer is replaced only when its own connection closes and another node is found, whose id is then
made anew from its number.
-/

namespace PolarCloud.NodeStore

namespace Ids

/-- All slots are there, and those that were filled hold ids with a property. -/
structure Slots (P : Multihash → Prop) (idm : Ids) : Prop where
  length : idm.ids.length = nodeIdLevel
  holds : idm.count ≠ 0 → ∀ one ∈ idm.ids, P one

variable {P : Multihash → Prop} {idm : Ids} {id : Multihash}

theorem slots_new (root : Multihash) : Slots P (new root nodeIdLevel) :=
  ⟨List.length_replicate, fun filled => absurd rfl filled⟩

theorem slots_addId (slots : Slots P idm) (there : P id) :
    Slots P (idm.addId id).2.2 ∧ (idm.addId id).2.2.count ≠ 0 := by
  rw [addId]
  by_cases empty : idm.count = 0
  · rw [if_pos empty]
    refine ⟨⟨(List.length_map _).trans slots.length, fun _ one member => ?_⟩, Nat.one_ne_zero⟩
    obtain ⟨_, -, rfl⟩ := List.mem_map.mp member
    exact there
  · rw [if_neg empty]
    dsimp only
    refine ⟨⟨?_, fun _ one member => ?_⟩, ?_⟩
    · rw [List.length_map, List.length_zip, getNodeNetworkNum, List.length_map, List.length_range, min_self]
      exact slots.length
    · obtain ⟨slot, inside, rfl⟩ := List.mem_map.mp member
      split
      · exact slots.holds empty _ (List.of_mem_zip inside).1
      · exact there
    · split
      · exact Nat.succ_ne_zero _
      · exact empty

theorem slots_addAll {ids : List Multihash} (slots : Slots P idm) (all : ∀ id ∈ ids, P id) :
    Slots P (idm.addAll ids) := by
  induction ids generalizing idm with
  | nil => exact slots
  | cons id rest ih =>
    obtain ⟨first, all⟩ := List.forall_mem_cons.mp all
    exact ih (slots_addId slots first).1 all

/-- What is left without a slot has none. -/
theorem not_mem_removeIDs {one : Multihash} (held : one ∈ (idm.addId id).2.2.ids) : one ∉ (idm.addId id).2.1 := by
  rw [addId] at held ⊢
  split at held
  · next empty =>
    rw [if_pos empty]
    exact List.not_mem_nil
  · next filled =>
    rw [if_neg filled]
    exact fun removed => of_decide_eq_true (List.mem_filter.mp removed).2 held

end Ids

namespace NodeManager

variable {this : NodeManager}

/-- The super peer is a node of the table, and there is one when the table has a node. -/
def SuperPeerKnown (this : NodeManager) : Prop :=
  match this.superPeerId with
  | none => this.nodes = []
  | some superPeerId => superPeerId ∈ this.nodes

/-- A table that takes a node knows its super peer. -/
theorem addNode_known (known : this.SuperPeerKnown) {allNodes : List Multihash} (range : allNodes.Perm this.nodes)
    (node : Multihash) : (this.addNode allNodes node).SuperPeerKnown := by
  rw [addNode]
  split
  · exact known
  · dsimp only
    split
    · let P (one : Multihash) : Prop := one ∈ this.nodes ∨ one = node
      obtain ⟨slots, filled⟩ := @Ids.slots_addId P ((Ids.new this.nodeSelf nodeIdLevel).addAll allNodes) node
        (Ids.slots_addAll (Ids.slots_new _) fun id member => .inl (range.mem_iff.mp member)) (.inr rfl)
      have inside : 0 < (((Ids.new this.nodeSelf nodeIdLevel).addAll allNodes).addId node).2.2.ids.length := by
        rw [slots.length]
        decide
      have held := List.getElem_mem inside
      rw [SuperPeerKnown, List.getElem?_eq_getElem inside]
      refine List.mem_filter.mpr ⟨?_, decide_eq_true (Ids.not_mem_removeIDs held)⟩
      rcases slots.holds filled _ held with old | new
      · split
        · exact old
        · exact List.mem_append_left _ old
      · rw [new]
        split
        · next stored => exact stored
        · exact List.mem_append_right _ (List.mem_singleton_self _)
    · exact known

/-- What a search that leaves out nobody, and the node itself, finds: the id of the nearest number in the table. The
empty id is left out, as it has the empty text. -/
theorem findNearInSuper_others (this : NodeManager) (target : Multihash) :
    (∀ one ∈ this.nodes, one = []) ∧ this.findNearInSuper target none false = none ∨
      ∃ near ∈ this.nodes, near ≠ [] ∧
        (∀ one ∈ this.nodes, one ≠ [] → target.number ^^^ near.number ≤ target.number ^^^ one.number) ∧
        this.findNearInSuper target none false = some (Multihash.ofNumber near.number) := by
  have mem (number : ℕ) : number ∈ (this.candidates none false).nodes ↔
      ∃ id ∈ this.nodes, id ≠ [] ∧ id.number = number := by
    rw [candidates]
    simp [Kademlia.mem_addIds, and_assoc]
  by_cases only : ∀ one ∈ this.nodes, one = []
  · left
    refine ⟨only, ?_⟩
    have none : (this.candidates none false).nodes = [] := by
      refine List.eq_nil_iff_forall_not_mem.mpr fun number member => ?_
      obtain ⟨id, inside, apart, -⟩ := (mem number).mp member
      exact apart (only id inside)
    rw [findNearInSuper, Kademlia.get, none]
    rfl
  · right
    obtain ⟨one, inside, apart⟩ : ∃ one ∈ this.nodes, one ≠ [] := by
      by_contra none
      exact only fun one inside => by_contra fun apart => none ⟨one, inside, apart⟩
    obtain ⟨number, first⟩ := Kademlia.exists_head target.number ((mem _).mpr ⟨one, inside, apart, rfl⟩)
    obtain ⟨searched, least⟩ := Kademlia.nearest_head (Kademlia.nodup_addIds List.nodup_nil _) first
    obtain ⟨near, known, present, rfl⟩ := (mem number).mp searched
    refine ⟨near, known, present, fun other there given => least _ ((mem _).mpr ⟨other, there, given, rfl⟩), ?_⟩
    rw [findNearInSuper, first]
    rfl

/-- The id that is made of the number nearest to the node itself is the id of a node. -/
def NearestKnown (this : NodeManager) : Prop :=
  ∃ near ∈ this.nodes, near ≠ [] ∧
    (∀ one ∈ this.nodes, one ≠ [] →
      this.nodeSelf.number ^^^ near.number ≤ this.nodeSelf.number ^^^ one.number) ∧
    Multihash.ofNumber near.number ∈ this.nodes

/-- An event after which the super peer is known: a node that is deleted is not the super peer, and when the connection
of the super peer closes, the id made of the number that is then nearest is the id of a node that is left. -/
def KeepsSuperPeer (this : NodeManager) : TableEvent → Prop
  | .addNode _ _ => True
  | .delNode id => this.superPeerId ≠ some id
  | .closeConnCallback name => ∀ superPeerId, this.superPeerId = some superPeerId →
      if name = .b58 superPeerId then (this.delNode name.fromB58String).NearestKnown
      else name.fromB58String ≠ superPeerId

theorem delNode_known (known : this.SuperPeerKnown) (id : Multihash) :
    (this.delNode id).SuperPeerKnown ↔ this.superPeerId ≠ some id := by
  rw [SuperPeerKnown] at known ⊢
  rw [show (this.delNode id).superPeerId = this.superPeerId from rfl]
  cases peer : this.superPeerId with
  | none =>
    rw [peer] at known
    dsimp only at known ⊢
    rw [delNode, known]
    exact iff_of_true rfl nofun
  | some superPeerId =>
    rw [peer] at known
    dsimp only at known ⊢
    rw [delNode, List.mem_filter, and_iff_right known, decide_eq_true_iff, ne_eq, ne_eq, Option.some.injEq]

theorem closeConnCallback_known (known : this.SuperPeerKnown) (name : Sessions.Name) :
    (this.closeConnCallback name).SuperPeerKnown ↔ this.KeepsSuperPeer (.closeConnCallback name) := by
  have deleted := delNode_known known name.fromB58String
  rw [closeConnCallback, KeepsSuperPeer]
  rw [show (this.delNode name.fromB58String).superPeerId = this.superPeerId from rfl]
  cases peer : this.superPeerId with
  | none => exact iff_of_true (deleted.mpr (by rw [peer]; nofun)) nofun
  | some superPeerId =>
    simp only [Option.some.injEq, forall_eq']
    by_cases own : name = .b58 superPeerId
    · rw [if_pos own, if_pos own]
      have emptied : name.fromB58String = [] ∨ name.fromB58String = superPeerId := by
        rw [own, Sessions.Name.fromB58String, Utils.cast]
        cases Utils.decode superPeerId with
        | none => exact .inl rfl
        | some dm =>
          rw [Option.bind_eq_bind, Option.bind_some]
          split
          · exact .inr rfl
          · exact .inl rfl
      have lost : ∀ one ∈ (this.delNode name.fromB58String).nodes, one ≠ name.fromB58String := fun one member =>
        of_decide_eq_true (List.mem_filter.mp member).2
      rcases findNearInSuper_others (this.delNode name.fromB58String) (this.delNode name.fromB58String).nodeSelf with
        ⟨only, none⟩ | ⟨near, member, present, least, found⟩
      · rw [none]
        refine iff_of_false (fun there => ?_) fun ⟨near, member, present, _⟩ => present (only near member)
        rw [SuperPeerKnown, show (this.delNode name.fromB58String).superPeerId = some superPeerId from peer] at there
        rcases emptied with none | same
        · exact lost _ there (none ▸ only _ there)
        · exact lost _ there same.symm
      · rw [found]
        constructor
        · exact fun there => ⟨near, member, present, least, there⟩
        · rintro ⟨other, member', present', least', there⟩
          have same := Xor.inj (le_antisymm (least other member' present') (least' near member present))
          rw [same]
          exact there
    · rw [if_neg own, if_neg own, deleted, peer, ne_eq, Option.some.injEq, eq_comm]

/-- From an empty table on, the super peer is known in every state of a run exactly when every event keeps it. -/
theorem superPeer_known_iff (nodeSelf : Multihash) (isSuper : Bool) (events : List TableEvent) :
    Replay.Always step { nodeSelf, isSuper } SuperPeerKnown events ↔
      Replay.Each step { nodeSelf, isSuper } KeepsSuperPeer events := by
  refine @Replay.always_iff_each NodeManager TableEvent step { nodeSelf, isSuper } SuperPeerKnown (fun _ => True)
    KeepsSuperPeer rfl trivial (fun _ _ _ _ => trivial) (fun this event _ known => ?_) events
  cases event with
  | addNode order node => exact iff_of_true (addNode_known known (order.perm _) node) trivial
  | delNode id => exact delNode_known known id
  | closeConnCallback name => exact closeConnCallback_known known name

/-! ## Super peers that are lost -/

def anyOrder : TableOrder := ⟨id, fun _ => .refl _⟩

/-- A neighbour, and one whose digest begins with a zero. -/
def onlyNode : Multihash := [0x16, 1, 4]

def zeroNode : Multihash := [0x16, 2, 0, 8]

/-- The connection of the only neighbour closes. -/
def lastCloses : List TableEvent := [.addNode anyOrder onlyNode, .closeConnCallback (.b58 onlyNode)]

/-- The connection of the super peer closes, and a node whose digest begins with a zero is left. -/
def zeroLeft : List TableEvent :=
  [.addNode anyOrder onlyNode, .addNode anyOrder zeroNode, .closeConnCallback (.b58 onlyNode)]

/-- The super peer is a node that is no longer there, or an id that no node has. -/
theorem superPeer_lost :
    ¬ Replay.Always step { nodeSelf := [0x16, 1, 1] } SuperPeerKnown lastCloses ∧
      ¬ Replay.Always step { nodeSelf := [0x16, 1, 1] } SuperPeerKnown zeroLeft := by
  let gone : NodeManager := { nodeSelf := [0x16, 1, 1], superPeerId := some onlyNode }
  let renamed : NodeManager := { nodeSelf := [0x16, 1, 1], nodes := [zeroNode], superPeerId := some [0x16, 1, 8] }
  have first : lastCloses.foldl step { nodeSelf := [0x16, 1, 1] } = gone := by decide +kernel
  have second : zeroLeft.foldl step { nodeSelf := [0x16, 1, 1] } = renamed := by decide +kernel
  refine ⟨Replay.not_always first nofun, Replay.not_always second fun there => ?_⟩
  exact absurd (List.mem_singleton.mp there) (by decide)

end NodeManager

end PolarCloud.NodeStore
