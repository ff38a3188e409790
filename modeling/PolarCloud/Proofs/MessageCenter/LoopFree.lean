import PolarCloud.Proofs.MessageCenter.Delivery

/-! # Messages that come back

A search finds a number that is nearer than the node's own, or the own one. So a message comes nearer to its
super node at every hop, unless a node hands it to a super node that it takes for one of its proxied nodes,
or takes the id made of its own number for another node. These are the networks in which a message can be
sent away from its target; in all others no path comes to a node twice.
-/

namespace PolarCloud.MessageCenter

open NodeStore

namespace Network

variable {network : Network} {head : MessageHead}

/-- How far a node is from the super node of a message. -/
def toSuper (head : MessageHead) (id : Multihash) : ℕ := (head.recvSuperId.getD []).number ^^^ id.number

/-- A path along which super nodes send a message on, each of them having it from anywhere. -/
def Path (network : Network) (head : MessageHead) (path : List Multihash) : Prop :=
  path.IsChain fun source target => ∃ form, network.Hop head form source target

/-- Every hop of every message comes nearer to its super node; no path comes to a node twice or goes on for
ever. -/
structure LoopFree (network : Network) : Prop where
  nearer : ∀ head form source target, network.Hop head form source target → toSuper head target < toSuper head source
  once : ∀ head path, network.Path head path → path.Nodup
  ends : ∀ head (places : ℕ → Multihash), ¬ ∀ time, ∃ form, network.Hop head form (places time) (places (time + 1))

/-- A super node is connected to another super node that it takes for one of its proxied nodes, or whose id is
made of its own number. -/
def Confused (network : Network) : Prop :=
  ∃ peer ∈ network.peers, peer.isSuper = true ∧ ∃ other ∈ network.peers, other.isSuper = true ∧
    other.nodeSelf ≠ peer.nodeSelf ∧ other.nodeSelf ∈ peer.sessions ∧
    (other.nodeSelf ∈ peer.proxys ∨ other.nodeSelf = Multihash.ofNumber peer.nodeSelf.number)

/-- A hop comes nearer when it does not go to a node that is taken for another. -/
theorem Hop.nearer (clear : ¬ network.Confused) {form : Option Multihash} {source target : Multihash}
    (hop : network.Hop head form source target) : toSuper head target < toSuper head source := by
  obtain ⟨peer, member, rfl, super, sent, next, nextMember, rfl, nextSuper⟩ := hop
  obtain ⟨live, sent⟩ := peer.sent_cases super sent
  cases sent with
  | behind _ _ other proxy =>
    exact absurd ⟨peer, member, super, next, nextMember, nextSuper, other, live, .inl proxy⟩ clear
  | proxied _ _ other proxy =>
    exact absurd ⟨peer, member, super, next, nextMember, nextSuper, other, live, .inl proxy⟩ clear
  | nearer recvSuperId superId other near =>
    obtain ⟨made, least⟩ := NodeManager.near_spec near
    have foreign : next.nodeSelf.number ≠ peer.nodeSelf.number := by
      intro same
      rw [same] at made
      exact clear ⟨peer, member, super, next, nextMember, nextSuper, other, live, .inr made⟩
    rw [toSuper, toSuper, superId, Option.getD_some]
    exact lt_of_le_of_ne least fun equal => foreign (Xor.inj equal)

theorem descends (clear : ¬ network.Confused) (head : MessageHead) :
    ∀ source target, (∃ form, network.Hop head form source target) → toSuper head target < toSuper head source :=
  fun _ _ ⟨_, hop⟩ => hop.nearer clear

/-- Without confusion no message comes back. -/
theorem loopFree_of_clear (clear : ¬ network.Confused) : network.LoopFree where
  nearer _ _ _ _ hop := hop.nearer clear
  once head _ path := Descent.path_nodup (toSuper head) (descends clear head) path
  ends head := Descent.not_forever (descends clear head)

/-- A super node that is taken for a proxied node gets the messages for the node's own clients. -/
theorem hop_proxied {peer other : Peer} (member : peer ∈ network.peers) (super : peer.isSuper = true)
    (otherMember : other ∈ network.peers) (otherSuper : other.isSuper = true) (away : other.nodeSelf ≠ peer.nodeSelf)
    (live : other.nodeSelf ∈ peer.sessions) (proxy : other.nodeSelf ∈ peer.proxys) :
    network.Hop { recvId := some other.nodeSelf,
                  recvSuperId := some peer.nodeSelf } none peer.nodeSelf other.nodeSelf := by
  refine ⟨peer, member, rfl, super, ?_, other, otherMember, rfl, otherSuper⟩
  simp [Peer.isSendToOtherSuperToo, super, away, proxy, Peer.send, live]

/-- The id made of a node's own number gets the messages for it. -/
theorem hop_twin {peer other : Peer} (member : peer ∈ network.peers) (super : peer.isSuper = true)
    (otherMember : other ∈ network.peers) (otherSuper : other.isSuper = true) (away : other.nodeSelf ≠ peer.nodeSelf)
    (live : other.nodeSelf ∈ peer.sessions) (twin : other.nodeSelf = Multihash.ofNumber peer.nodeSelf.number) :
    network.Hop { recvId := some other.nodeSelf,
                  recvSuperId := some other.nodeSelf } none peer.nodeSelf other.nodeSelf := by
  refine ⟨peer, member, rfl, super, ?_, other, otherMember, rfl, otherSuper⟩
  obtain ⟨number, -, near⟩ := peer.findNearInSuper_self other.nodeSelf none
  obtain ⟨made, least⟩ := NodeManager.near_spec near
  have same : other.nodeSelf.number = peer.nodeSelf.number := by
    rw [twin, Multihash.number_ofNumber_number]
  have found : Multihash.ofNumber number = other.nodeSelf := by
    rw [same, Nat.xor_self, Nat.le_zero, Nat.xor_eq_zero_iff] at least
    rw [made, ← least, twin]
  rw [found] at near
  exact peer.sent_of_near super rfl rfl away near away live

/-- Messages come nearer at every hop in exactly the networks without confusion. -/
theorem loopFree_iff_clear (network : Network) : network.LoopFree ↔ ¬ network.Confused := by
  refine ⟨?_, loopFree_of_clear⟩
  rintro ⟨nearer, -, -⟩ ⟨peer, member, super, other, otherMember, otherSuper, away, live, proxy | twin⟩
  · have closer := nearer _ _ _ _ (hop_proxied member super otherMember otherSuper away live proxy)
    rw [toSuper, toSuper, Option.getD_some, Nat.xor_self] at closer
    exact Nat.not_lt_zero _ closer
  · have closer := nearer _ _ _ _ (hop_twin member super otherMember otherSuper away live twin)
    have same : other.nodeSelf.number = peer.nodeSelf.number := by
      rw [twin, Multihash.number_ofNumber_number]
    rw [toSuper, toSuper, Option.getD_some, same] at closer
    exact lt_irrefl _ closer

end Network

/-! ## A message that goes in circles -/

/-- Three super nodes; the first takes the third for one of its proxied nodes. -/
def circle : Network where
  peers := [
    { nodeSelf := nodeOf 1, nodes := [nodeOf 0, nodeOf 3], proxys := [nodeOf 3], sessions := [nodeOf 0, nodeOf 3] },
    { nodeSelf := nodeOf 3, nodes := [nodeOf 0, nodeOf 1], sessions := [nodeOf 0, nodeOf 1] },
    { nodeSelf := nodeOf 0, nodes := [nodeOf 1, nodeOf 3], sessions := [nodeOf 1, nodeOf 3] }]
  distinct := by decide

/-- A message for the third node behind the first goes from the first to the third, from there to the second
and back to the first, and so on. -/
theorem message_circles :
    circle.Forward { recvId := some (nodeOf 3), recvSuperId := some (nodeOf 1) } (some (nodeOf 0), nodeOf 1)
        (some (nodeOf 1), nodeOf 3) ∧
      circle.Forward { recvId := some (nodeOf 3), recvSuperId := some (nodeOf 1) } (some (nodeOf 1), nodeOf 3)
        (some (nodeOf 3), nodeOf 0) ∧
      circle.Forward { recvId := some (nodeOf 3), recvSuperId := some (nodeOf 1) } (some (nodeOf 3), nodeOf 0)
        (some (nodeOf 0), nodeOf 1) ∧ ¬ circle.LoopFree := by
  have hops : circle.Hop { recvId := some (nodeOf 3), recvSuperId := some (nodeOf 1) } (some (nodeOf 0)) (nodeOf 1)
        (nodeOf 3) ∧
      circle.Hop { recvId := some (nodeOf 3), recvSuperId := some (nodeOf 1) } (some (nodeOf 1)) (nodeOf 3) (nodeOf 0) ∧
      circle.Hop { recvId := some (nodeOf 3), recvSuperId := some (nodeOf 1) } (some (nodeOf 3)) (nodeOf 0)
        (nodeOf 1) := by
    decide
  refine ⟨⟨hops.1, rfl⟩, ⟨hops.2.1, rfl⟩, ⟨hops.2.2, rfl⟩, fun loopFree => ?_⟩
  have nearer := loopFree.nearer _ _ _ _ hops.1
  exact absurd nearer (by decide)

end PolarCloud.MessageCenter
