import PolarCloud.Proofs.MessageCenter.Flooding

/-! # Whom a broadcast reaches

A broadcast goes to the table of the node where it began, and from every node that receives it for the first
time to the farther nodes of its table. It reaches exactly the nodes that stand in the table of a node nearer
to the origin, one after the other; so it reaches all nodes exactly when each of them stands in such a table.
-/

namespace PolarCloud.MessageCenter

open NodeStore

namespace Network

variable {network : Network} {origin : Multihash}

/-- The nodes of the network to which a node passes a broadcast on. -/
def relays (network : Network) (origin id : Multihash) : List Multihash :=
  ((network.peer? id).elim [] fun peer => peer.multicastRecv origin).filter (· ∈ network.ids)

/-- The nodes of the network to which a broadcast is sent where it begins. -/
def starts (network : Network) (origin : Multihash) : List Multihash :=
  ((network.peer? origin).elim [] Peer.multicast).filter (· ∈ network.ids)

/-- A broadcast whose every message has been received: the nodes that had one. -/
def Done (network : Network) (origin : Multihash) (seen : List Multihash) : Prop :=
  Relation.ReflTransGen (Descent.Filtered (network.relays origin)) ([], ↑(network.starts origin)) (seen, 0)

/-- The node has a neighbour in whose table it stands and who is nearer to the origin. -/
def Covered (network : Network) (origin id : Multihash) : Prop :=
  ∃ source ∈ network.ids, origin.number ^^^ source.number < origin.number ^^^ id.number ∧ network.Slot source id

/-- The peer of an id of the network. -/
theorem exists_peer {id : Multihash} (inside : id ∈ network.ids) :
    ∃ peer ∈ network.peers, peer.nodeSelf = id ∧ network.peer? id = some peer := by
  obtain ⟨peer, member, rfl⟩ := List.mem_map.mp inside
  cases found : network.peer? peer.nodeSelf with
  | none =>
    have other := List.find?_eq_none.mp found peer member
    simp at other
  | some first =>
    have same := List.find?_some found
    exact ⟨first, List.mem_of_find?_eq_some found, by simpa using same, rfl⟩

/-- In a full network a broadcast begins with the nodes that have a slot at the origin. -/
theorem Full.mem_starts (full : network.Full) (inside : origin ∈ network.ids) {id : Multihash} :
    id ∈ network.starts origin ↔ network.Slot origin id := by
  obtain ⟨peer, member, rfl, found⟩ := exists_peer inside
  rw [starts, found, List.mem_filter, decide_eq_true_iff, Option.elim_some, Peer.multicast, full.super peer member,
    if_pos rfl, List.mem_filter, decide_eq_true_iff, full.mem_nodes member]
  refine ⟨fun mem => mem.1.1, fun slot => ⟨⟨slot, full.live peer member id ((full.mem_nodes member).mpr slot)⟩, slot.1⟩⟩

/-- In a full network a node passes a broadcast on to those that have a slot there and are farther away. -/
theorem Full.mem_relays (full : network.Full) {source id : Multihash} (inside : source ∈ network.ids) :
    id ∈ network.relays origin source ↔
      network.Slot source id ∧ origin.number ^^^ source.number < origin.number ^^^ id.number := by
  obtain ⟨peer, member, rfl, found⟩ := exists_peer inside
  have selfId := full.superIds _ inside
  rw [relays, found, List.mem_filter, decide_eq_true_iff, Option.elim_some, Peer.multicastRecv, full.super peer member,
    if_pos rfl, List.mem_filter, decide_eq_true_iff, NodeManager.mem_getIdsForFar, ← full.mem_nodes member]
  constructor
  · rintro ⟨⟨⟨-, one, stored, rfl, farther⟩, -⟩, -⟩
    have oneId := full.superIds _ ((full.mem_nodes member).mp stored).1
    rw [oneId.ofNumber_number]
    exact ⟨stored, farther⟩
  · rintro ⟨stored, farther⟩
    have slot := (full.mem_nodes member).mp stored
    refine ⟨⟨⟨selfId.bytes_number, id, stored, ?_, farther⟩, full.live peer member id stored⟩, slot.1⟩
    exact (full.superIds _ slot.1).ofNumber_number.symm

theorem starts_inside {id : Multihash} (started : id ∈ network.starts origin) : id ∈ network.ids :=
  of_decide_eq_true (List.mem_filter.mp started).2

theorem relays_inside {source id : Multihash} (passed : id ∈ network.relays origin source) : id ∈ network.ids :=
  of_decide_eq_true (List.mem_filter.mp passed).2

theorem mem_ids_of_reached {id : Multihash}
    (reached : Descent.Reached (network.relays origin) (network.starts origin) id) :
    id ∈ network.ids := by
  obtain ⟨first, started, path⟩ := reached
  cases path with
  | refl => exact starts_inside started
  | tail _ step => exact relays_inside step

/-- Another node of a full network is at a distance. -/
theorem Full.away (full : network.Full) (inside : origin ∈ network.ids) {id : Multihash} (idInside : id ∈ network.ids)
    (other : id ≠ origin) : origin.number ^^^ origin.number < origin.number ^^^ id.number := by
  rw [Nat.xor_self]
  exact Xor.pos_of_ne fun same => other ((full.superIds _ idInside).number_inj (full.superIds _ inside) same.symm)

theorem Full.covered_of_reached (full : network.Full) (inside : origin ∈ network.ids) {id : Multihash}
    (reached : Descent.Reached (network.relays origin) (network.starts origin) id) : network.Covered origin id := by
  obtain ⟨first, started, path⟩ := reached
  cases path with
  | refl =>
    have slot := (full.mem_starts inside).mp started
    exact ⟨origin, inside, full.away inside slot.1 slot.2.1, slot⟩
  | @tail source _ path step =>
    have sourceInside := mem_ids_of_reached ⟨first, started, path⟩
    obtain ⟨slot, farther⟩ := (full.mem_relays sourceInside).mp step
    exact ⟨source, sourceInside, farther, slot⟩

/-- When every node stands in the table of a nearer one, the broadcast comes to each of them. -/
theorem Full.reached_of_covered (full : network.Full) (inside : origin ∈ network.ids)
    (covered : ∀ id ∈ network.ids, id ≠ origin → network.Covered origin id) {id : Multihash}
    (idInside : id ∈ network.ids)
    (other : id ≠ origin) : Descent.Reached (network.relays origin) (network.starts origin) id := by
  induction distance : origin.number ^^^ id.number using Nat.strong_induction_on generalizing id with
  | h bound ih =>
    obtain ⟨source, sourceInside, nearer, slot⟩ := covered id idInside other
    by_cases same : source = origin
    · subst same
      exact ⟨id, (full.mem_starts inside).mpr slot, .refl⟩
    · obtain ⟨first, started, path⟩ := ih _ (distance ▸ nearer) sourceInside same rfl
      exact ⟨first, started, path.tail ((full.mem_relays sourceInside).mpr ⟨slot, nearer⟩)⟩

/-- Every broadcast comes to its end. -/
theorem exists_done (network : Network) (origin : Multihash) : ∃ seen, network.Done origin seen := by
  have inside : ∀ id ∈ (↑(network.starts origin) : Multiset Multihash), id ∈ network.ids.toFinset :=
    fun id started => List.mem_toFinset.mpr (starts_inside (Multiset.mem_coe.mp started))
  exact Descent.exists_done (fun source id passed => List.mem_toFinset.mpr (relays_inside passed)) inside

theorem Full.covered_of_seen (full : network.Full) (inside : origin ∈ network.ids) {seen : List Multihash}
    (done : network.Done origin seen) {id : Multihash} (mem : id ∈ seen) : network.Covered origin id :=
  full.covered_of_reached inside ((Descent.mem_seen_iff done).mp mem)

/-- The broadcast of a full network reaches all nodes exactly when every node stands in the table of a node that
is nearer to the origin. -/
theorem broadcast_covers_iff (full : network.Full) (inside : origin ∈ network.ids) :
    (∀ seen, network.Done origin seen → ∀ id ∈ network.ids, id ≠ origin → id ∈ seen) ↔
      ∀ id ∈ network.ids, id ≠ origin → network.Covered origin id := by
  constructor
  · intro reaches id idInside other
    obtain ⟨seen, done⟩ := network.exists_done origin
    exact full.covered_of_seen inside done (reaches seen done id idInside other)
  · intro covered seen done id idInside other
    exact (Descent.mem_seen_iff done).mpr (full.reached_of_covered inside covered idInside other)

end Network

/-- Of two nodes each reaches the other. -/
theorem broadcast_covers_pair :
    nodeOf 2 ≠ nodeOf 1 ∧ ∀ seen, (networkOf [nodeOf 1, nodeOf 2] (by decide)).Done (nodeOf 1) seen →
    ∀ id ∈ (networkOf [nodeOf 1, nodeOf 2] (by decide)).ids, id ≠ nodeOf 1 → id ∈ seen := by
  have inside : nodeOf 1 ∈ (networkOf [nodeOf 1, nodeOf 2] (by decide)).ids ∧
      nodeOf 2 ∈ (networkOf [nodeOf 1, nodeOf 2] (by decide)).ids := by
    rw [ids_networkOf]
    decide
  refine ⟨by decide,
    (Network.broadcast_covers_iff (full_networkOf (by simp [superId_nodeOf])) inside.1).mpr fun id mem other => ?_⟩
  rw [ids_networkOf] at mem
  have second : id = nodeOf 2 := by simpa [other] using mem
  have others : (networkOf [nodeOf 1, nodeOf 2] (by decide)).others (nodeOf 1) = [nodeOf 2] := by
    rw [Network.others, ids_networkOf]
    decide
  subst second
  refine ⟨nodeOf 1, inside.1, by decide, inside.2, other, 0, by decide, ?_⟩
  rw [others]
  exact ⟨List.mem_singleton_self _, fun number mem => by rw [List.mem_singleton.mp mem]⟩

/-! ## A node that is left out -/

/-- Six super nodes whose ids differ in the last four bits. -/
def six : List Multihash := [0, 1, 9, 11, 12, 13].map nodeOf

theorem superIds_six : ∀ id ∈ six, IsSuperId id := List.forall_mem_map.mpr fun last _ => superId_nodeOf last

theorem number_nodeOf (last : UInt8) : (nodeOf last).number = 2 ^ 248 + last.toNat := by
  have data : (nodeOf last).data = [1] ++ List.replicate 30 0 ++ [last] := rfl
  have high : 256 * LittleEndian.get (List.replicate 30 0 ++ [1]) = 2 ^ 248 := by decide
  rw [Multihash.number, data, BigEndian.number, List.reverse_append, List.reverse_singleton, List.reverse_append,
    List.reverse_replicate, List.reverse_singleton, List.singleton_append, LittleEndian.get, high, Nat.add_comm]

/-- The node 12 stands in no table of a node that is nearer to the node 0. -/
theorem not_covered_six : ¬ (networkOf six (by decide)).Covered (nodeOf 0) (nodeOf 12) := by
  have far : ∀ source ∈ [(0 : UInt8), 1, 9, 11, 12, 13],
    2 ^ 248 ^^^ (2 ^ 248 + source.toNat) < 2 ^ 248 ^^^ (2 ^ 248 + 12) →
      ∀ i < 256, ¬ Xor.Nearest (([0, 1, 9, 11, 12, 13].filter fun last => nodeOf last ≠ nodeOf source).map
        fun last : UInt8 => 2 ^ 248 + last.toNat) ((2 ^ 248 + source.toNat) ^^^ 2 ^ i) (2 ^ 248 + 12) := by
    decide +kernel
  rintro ⟨source, inside, nearer, -, -, i, level, nearest⟩
  rw [ids_networkOf] at inside
  obtain ⟨last, mem, rfl⟩ := List.mem_map.mp inside
  have others : ((networkOf six (by decide)).others (nodeOf last)).map Multihash.number =
      ([0, 1, 9, 11, 12, 13].filter fun other => nodeOf other ≠ nodeOf last).map
        fun other : UInt8 => 2 ^ 248 + other.toNat := by
    rw [Network.others, ids_networkOf, six, List.filter_map, List.map_map]
    exact List.map_congr_left fun other _ => number_nodeOf other
  rw [others, place, number_nodeOf, number_nodeOf] at nearest
  rw [number_nodeOf, number_nodeOf, number_nodeOf] at nearer
  exact far last mem nearer i level nearest

/-- The broadcast of the node 0 does not reach the node 12. -/
theorem broadcast_leaves_out : (networkOf six (by decide)).Full ∧ nodeOf 12 ∈ (networkOf six (by decide)).ids ∧
    ∃ seen, (networkOf six (by decide)).Done (nodeOf 0) seen ∧ nodeOf 12 ∉ seen := by
  have full : (networkOf six (by decide)).Full := full_networkOf superIds_six
  have inside : nodeOf 0 ∈ (networkOf six (by decide)).ids ∧ nodeOf 12 ∈ (networkOf six (by decide)).ids := by
    rw [ids_networkOf]
    decide
  obtain ⟨seen, done⟩ := (networkOf six (by decide)).exists_done (nodeOf 0)
  exact ⟨full, inside.2, seen, done, fun mem => not_covered_six (full.covered_of_seen inside.1 done mem)⟩

end PolarCloud.MessageCenter
