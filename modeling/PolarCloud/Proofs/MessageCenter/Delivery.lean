import PolarCloud.Base.Descent
import PolarCloud.Model.MessageCenter
import PolarCloud.Proofs.NodeStore.Tables

/-! # Messages reach their super node

In a network of super nodes whose tables were built of all the others, the slot of the highest bit in which
a node differs from the target holds a node that is nearer to the target. It is not the node from which the
message came, which is farther away; so a message comes closer until it is there.
-/

namespace PolarCloud.MessageCenter

open NodeStore

/-- What a super node sends on: to the target behind it, to the target that it knows as its proxied node, or
to the nearest node of its table. -/
inductive Sent (peer : Peer) (head : MessageHead) (form : Option Multihash) (target : Multihash) : Prop
  | behind (own : head.recvSuperId = some peer.nodeSelf) (recv : head.recvId = some target)
      (other : target ≠ peer.nodeSelf) (proxy : target ∈ peer.proxys)
  | proxied (recv : head.recvId = some target) (super : head.recvSuperId = some target) (other : target ≠ peer.nodeSelf)
      (proxy : target ∈ peer.proxys) (near : peer.findNearInSuper target form true = some peer.nodeSelf)
  | nearer (recvSuperId : Multihash) (super : head.recvSuperId = some recvSuperId) (other : target ≠ peer.nodeSelf)
      (near : peer.findNearInSuper recvSuperId form true = some target)

namespace Peer

variable {peer : Peer} {head : MessageHead} {form : Option Multihash} {target : Multihash}

theorem send_eq_sent {name : Multihash} : peer.send name = .sent target ↔ name = target ∧ target ∈ peer.sessions := by
  rw [send]
  split
  · next live =>
    rw [Outcome.sent.injEq]
    exact ⟨fun same => ⟨same, same ▸ live⟩, And.left⟩
  · next dead => exact iff_of_false (by simp) fun ⟨same, live⟩ => dead (same ▸ live)

/-- Every way in which a super node sends a message on. -/
theorem sent_cases (super : peer.isSuper = true) (sent : peer.isSendToOtherSuperToo head form = .sent target) :
    target ∈ peer.sessions ∧ Sent peer head form target := by
  rw [isSendToOtherSuperToo, super] at sent
  cases recv : head.recvId with
  | none => simp [recv] at sent
  | some recvId =>
    cases superId : head.recvSuperId with
    | none => simp [recv, superId] at sent
    | some recvSuperId =>
      simp only [recv, superId, Bool.not_true, Bool.false_eq_true, if_false] at sent
      obtain ⟨number, -, near⟩ := peer.findNearInSuper_self recvSuperId form
      rw [near] at sent
      by_cases same : recvId = recvSuperId
      · rw [if_pos same] at sent
        by_cases own : recvId = peer.nodeSelf
        · rw [if_pos own] at sent
          cases sent
        · rw [if_neg own] at sent
          by_cases here : Multihash.ofNumber number = peer.nodeSelf
          · by_cases proxy : recvId ∈ peer.proxys
            · simp only [here, if_true, if_pos proxy] at sent
              obtain ⟨rfl, live⟩ := send_eq_sent.mp sent
              exact ⟨live, .proxied recv (same ▸ superId) own proxy (by rw [same, near, here])⟩
            · cases accurate : head.accurate with
              | false => simp [here, proxy, accurate] at sent
              | true => simp [here, proxy, accurate] at sent
          · simp only [if_neg here] at sent
            obtain ⟨rfl, live⟩ := send_eq_sent.mp sent
            exact ⟨live, .nearer recvSuperId superId here near⟩
      · rw [if_neg same] at sent
        by_cases own : peer.nodeSelf = recvSuperId
        · rw [if_pos own] at sent
          by_cases proxy : recvId ∈ peer.proxys
          · rw [if_pos proxy] at sent
            obtain ⟨rfl, live⟩ := send_eq_sent.mp sent
            exact ⟨live, .behind (own ▸ superId) recv (own ▸ same) proxy⟩
          · rw [if_neg proxy] at sent
            cases sent
        · rw [if_neg own] at sent
          by_cases here : Multihash.ofNumber number = peer.nodeSelf
          · cases accurate : head.accurate with
            | false => simp [here, accurate] at sent
            | true => simp [here, accurate] at sent
          · simp only [if_neg here] at sent
            obtain ⟨rfl, live⟩ := send_eq_sent.mp sent
            exact ⟨live, .nearer recvSuperId superId here near⟩

/-- Over a live session a message goes to the nearest node, when that is not the node itself. -/
theorem sent_of_near (super : peer.isSuper = true) {recvId recvSuperId : Multihash} (recv : head.recvId = some recvId)
    (superId : head.recvSuperId = some recvSuperId) (away : recvSuperId ≠ peer.nodeSelf)
    (near : peer.findNearInSuper recvSuperId form true = some target) (other : target ≠ peer.nodeSelf)
    (live : target ∈ peer.sessions) : peer.isSendToOtherSuperToo head form = .sent target := by
  rw [isSendToOtherSuperToo, super]
  simp only [recv, superId, near, Bool.not_true, Bool.false_eq_true, if_false, if_neg other]
  rw [if_neg away.symm, send, if_pos live]
  split
  · next same =>
    rw [if_neg (by rwa [same])]
  · rfl

end Peer

namespace Network

variable {network : Network} {head : MessageHead}

def ids (network : Network) : List Multihash := network.peers.map (·.nodeSelf)

/-- Every node is a super node that has added all the others, in some order, and is connected to all nodes of
its table. -/
structure Full (network : Network) : Prop where
  superIds : ∀ id ∈ network.ids, IsSuperId id
  super : ∀ peer ∈ network.peers, peer.isSuper = true
  built : ∀ peer ∈ network.peers, ∃ added, Built peer.nodeSelf added peer.toNodeManager ∧
    ∀ id, id ∈ added ↔ id ∈ network.ids ∧ id ≠ peer.nodeSelf
  live : ∀ peer ∈ network.peers, ∀ id ∈ peer.nodes, id ∈ peer.sessions

/-- The other nodes of a network. -/
def others (network : Network) (id : Multihash) : List Multihash := network.ids.filter (· ≠ id)

theorem mem_others {id other : Multihash} : other ∈ network.others id ↔ other ∈ network.ids ∧ other ≠ id := by
  rw [others, List.mem_filter, decide_eq_true_iff]

/-- A node of the network is nearest to what a slot is asked for. -/
def Slot (network : Network) (id other : Multihash) : Prop :=
  other ∈ network.ids ∧ other ≠ id ∧
    ∃ i < nodeIdLevel, Xor.Nearest ((network.others id).map Multihash.number) (place id i) other.number

/-- A full network's tables hold what is nearest for some slot. -/
theorem Full.mem_nodes (full : network.Full) {peer : Peer} (inside : peer ∈ network.peers) {id : Multihash} :
    id ∈ peer.nodes ↔ network.Slot peer.nodeSelf id := by
  obtain ⟨added, built, all⟩ := full.built peer inside
  have same : ∀ number, number ∈ added.map Multihash.number ↔
    number ∈ (network.others peer.nodeSelf).map Multihash.number := by
    intro number
    simp only [List.mem_map, all, mem_others]
  rw [built.mem_nodes (full.superIds _ (List.mem_map_of_mem inside))
    (fun id mem => full.superIds id ((all id).mp mem).1)
    (fun mem => ((all _).mp mem).2 rfl), all, and_assoc, Slot]
  refine and_congr_right fun _ => and_congr_right fun _ => exists_congr fun i => and_congr_right fun _ => ?_
  exact ⟨fun nearest => nearest.congr fun number => (same number).symm, fun nearest => nearest.congr same⟩

/-- The slot of the highest differing bit holds a node that is nearer to the target. -/
theorem Full.nearer (full : network.Full) {peer : Peer} (inside : peer ∈ network.peers) {target : Multihash}
    (targetInside : target ∈ network.ids) (away : target ≠ peer.nodeSelf) :
    ∃ id ∈ peer.nodes, target.number ^^^ id.number < target.number ^^^ peer.nodeSelf.number := by
  have selfId := full.superIds _ (List.mem_map_of_mem inside : peer.nodeSelf ∈ network.ids)
  have targetId := full.superIds _ targetInside
  have differ : peer.nodeSelf.number ≠ target.number := fun same => away (targetId.number_inj selfId same.symm)
  have mem : target.number ∈ (network.others peer.nodeSelf).map Multihash.number :=
    List.mem_map_of_mem (mem_others.mpr ⟨targetInside, away⟩)
  obtain ⟨number, nearest⟩ := Xor.exists_nearest (List.ne_nil_of_mem mem)
    (peer.nodeSelf.number ^^^ 2 ^ (peer.nodeSelf.number ^^^ target.number).log2)
  obtain ⟨id, other, rfl⟩ := List.mem_map.mp nearest.1
  refine ⟨id, (full.mem_nodes inside).mpr ⟨(mem_others.mp other).1, (mem_others.mp other).2, _, ?_, nearest⟩,
    Xor.nearer_of_flip differ mem nearest⟩
  rw [Nat.log2_lt (Xor.pos_of_ne differ).ne']
  exact Nat.xor_lt_two_pow selfId.number_lt targetId.number_lt

/-- One node sends a message on to the next, which takes it as coming from there. -/
def Forward (network : Network) (head : MessageHead) (here next : Option Multihash × Multihash) : Prop :=
  network.Hop head here.1 here.2 next.2 ∧ next.1 = some here.2

/-- The message is started at a node, comes from outside the network, or was sent on by a node of it. -/
inductive CameFrom (network : Network) (head : MessageHead) (id : Multihash) : Option Multihash → Prop
  | started : CameFrom network head id none
  | outside {form : Multihash} (away : form ∉ network.ids) : CameFrom network head id (some form)
  | forwarded {before : Option Multihash} {form : Multihash} (hop : network.Hop head before form id) :
      CameFrom network head id (some form)

/-- A node sends a message away from its target only when it is the target itself. -/
theorem Hop.not_farther {before : Option Multihash} {form target id : Multihash}
    (super : head.recvSuperId = some target)
    (hop : network.Hop head before form id) :
    form = target ∨ target.number ^^^ id.number ≤ target.number ^^^ form.number := by
  obtain ⟨peer, -, rfl, superPeer, sent, -⟩ := hop
  cases (peer.sent_cases superPeer sent).2 with
  | behind own => exact .inl (Option.some.inj (own.symm.trans super))
  | proxied _ super' =>
    cases super'.symm.trans super
    rw [Nat.xor_self]
    exact .inr (Nat.zero_le _)
  | nearer recvSuperId super' _ near =>
    cases super'.symm.trans super
    exact .inr (NodeManager.near_spec near).2

/-- A message that is not there yet goes to a node nearer to its target, which is not the one it came from. -/
theorem Full.forward (full : network.Full) {recvId target id : Multihash} {form : Option Multihash}
    (recv : head.recvId = some recvId) (super : head.recvSuperId = some target) (targetInside : target ∈ network.ids)
    (inside : id ∈ network.ids) (away : target ≠ id)
    (farther : ∀ before ∈ form, before ∈ network.ids → target.number ^^^ id.number ≤ target.number ^^^ before.number) :
    ∃ next ∈ network.ids, network.Hop head form id next ∧
      target.number ^^^ next.number < target.number ^^^ id.number := by
  obtain ⟨peer, member, rfl⟩ := List.mem_map.mp inside
  obtain ⟨neighbour, stored, closer⟩ := full.nearer member targetInside away
  obtain ⟨neighbourInside, -⟩ := (full.mem_nodes member).mp stored
  have kept : neighbour ≠ form.getD [] := by
    cases form with
    | none =>
      rintro rfl
      obtain ⟨length, -⟩ := (full.superIds _ neighbourInside).isNodeId.data_eq
      exact absurd length (by decide)
    | some before =>
      rintro rfl
      exact absurd closer (not_lt.mpr (farther _ rfl neighbourInside))
  obtain ⟨number, ⟨searched, least⟩, near⟩ := peer.findNearInSuper_self target form
  have closer' : target.number ^^^ number < target.number ^^^ peer.nodeSelf.number :=
    (least _ (NodeManager.mem_searched.mpr (.inr ⟨neighbour, stored, kept, rfl⟩))).trans_lt closer
  rcases NodeManager.mem_searched.mp searched with rfl | ⟨next, stored, -, rfl⟩
  · exact absurd closer' (lt_irrefl _)
  · obtain ⟨nextInside, other, -⟩ := (full.mem_nodes member).mp stored
    rw [(full.superIds _ nextInside).ofNumber_number] at near
    obtain ⟨nextPeer, nextMember, rfl⟩ := List.mem_map.mp nextInside
    refine ⟨nextPeer.nodeSelf, nextInside, ⟨peer, member, rfl, full.super peer member, ?_, nextPeer, nextMember, rfl,
      full.super nextPeer nextMember⟩, closer'⟩
    exact Peer.sent_of_near (full.super peer member) recv super away near other (full.live peer member _ stored)

/-- In a full network a message gets to the super node it names, wherever it is, unless it comes from there. -/
theorem message_arrives (full : network.Full) {recvId target id : Multihash} {form : Option Multihash}
    (recv : head.recvId = some recvId) (super : head.recvSuperId = some target) (targetInside : target ∈ network.ids)
    (inside : id ∈ network.ids) (came : network.CameFrom head id form) :
    form = some target ∨ ∃ before, Relation.ReflTransGen (network.Forward head) (form, id) (before, target) := by
  by_cases back : form = some target
  · exact .inl back
  · right
    let valid (here : Option Multihash × Multihash) : Prop := here.2 ∈ network.ids ∧
      ∀ before ∈ here.1, before ∈ network.ids → target.number ^^^ here.2.number ≤ target.number ^^^ before.number
    have start : valid (form, id) := by
      refine ⟨inside, ?_⟩
      cases came with
      | started => exact fun before mem => by cases mem
      | outside away => exact fun before mem here => by cases mem; exact absurd here away
      | @forwarded _ form hop =>
        rintro before ⟨⟩ -
        exact (hop.not_farther super).resolve_left fun same => back (congrArg some same)
    obtain ⟨⟨before, place⟩, path, rfl⟩ := Descent.reaches (network.Forward head)
      (fun here => target.number ^^^ here.2.number) valid (fun here => here.2 = target)
        (fun here ⟨inside, farther⟩ => by
        by_cases there : here.2 = target
        · exact .inl there
        · obtain ⟨next, nextInside, hop, closer⟩ := full.forward recv super targetInside inside (Ne.symm there) farther
          refine .inr ⟨(some here.2, next), ⟨hop, rfl⟩, ⟨nextInside, ?_⟩, closer⟩
          rintro before ⟨⟩ -
          exact closer.le) start
    exact ⟨before, path⟩

end Network

/-! ## Full networks exist -/

/-- A node that has added others, the last of the list first. -/
def joined (self : Multihash) (others : List Multihash) : NodeManager :=
  others.foldr (fun node this => this.addNode this.nodes node) { nodeSelf := self }

theorem built_joined (self : Multihash) (others : List Multihash) : Built self others (joined self others) := by
  induction others with
  | nil => exact .start rfl rfl
  | cons node others ih => exact .add ih (List.Perm.refl _) node

theorem isSuper_joined (self : Multihash) (others : List Multihash) : (joined self others).isSuper = true := by
  induction others with
  | nil => rfl
  | cons node others ih => exact NodeManager.addNode_isSuper.trans ih

/-- A node that has added all others of a list and is connected to its table. -/
def memberOf (ids : List Multihash) (self : Multihash) : Peer :=
  let joined := joined self (ids.filter (· ≠ self))
  { joined with sessions := joined.nodes }

theorem nodeSelf_memberOf (ids : List Multihash) (self : Multihash) : (memberOf ids self).nodeSelf = self :=
  (built_joined self _).nodeSelf_eq

/-- The network of super nodes that know each other. -/
def networkOf (ids : List Multihash) (distinct : ids.Nodup) : Network where
  peers := ids.map (memberOf ids)
  distinct := by
    rw [List.map_map]
    simpa only [Function.comp_def, nodeSelf_memberOf, List.map_id'] using distinct

variable {ids : List Multihash} {distinct : ids.Nodup}

theorem ids_networkOf : (networkOf ids distinct).ids = ids := by
  rw [Network.ids, networkOf, List.map_map]
  simp only [Function.comp_def, nodeSelf_memberOf, List.map_id']

theorem full_networkOf (superIds : ∀ id ∈ ids, IsSuperId id) : (networkOf ids distinct).Full where
  superIds := by rwa [ids_networkOf]
  super := List.forall_mem_map.mpr fun self _ => isSuper_joined self _
  built := by
    rw [ids_networkOf]
    refine List.forall_mem_map.mpr fun self _ => ?_
    rw [nodeSelf_memberOf]
    exact ⟨_, built_joined self _, fun id => by rw [List.mem_filter, decide_eq_true_iff]⟩
  live := List.forall_mem_map.mpr fun _ _ _ mem => mem

/-- The id of a digest whose other bytes are zero. -/
def nodeOf (last : UInt8) : Multihash := [0x16, 32, 1] ++ List.replicate 30 0 ++ [last]

theorem superId_nodeOf (last : UInt8) : IsSuperId (nodeOf last) :=
  ⟨[1] ++ List.replicate 30 0 ++ [last], rfl, by simp, rfl⟩

/-- A message for the second of two nodes, started at the first. -/
theorem message_arrives_pair : ∃ before, Relation.ReflTransGen
    ((networkOf [nodeOf 1, nodeOf 2] (by decide)).Forward { recvId := some (nodeOf 2), recvSuperId := some (nodeOf 2) })
    (none, nodeOf 1) (before, nodeOf 2) :=
  (Network.message_arrives (full_networkOf (by simp [superId_nodeOf])) rfl rfl (by rw [ids_networkOf]; decide)
    (by rw [ids_networkOf]; decide) .started).resolve_left (by simp)

end PolarCloud.MessageCenter
