import PolarCloud.Proofs.MessageCenter.LoopFree

/-! # Broadcasts stop

A broadcast is passed on to nodes that are farther from where it began, by any tables. So it comes to no node
twice on its way, and a flood in which every message that is received is passed on comes to an end.
-/

namespace PolarCloud.MessageCenter

open NodeStore

namespace Network

variable {network : Network} {origin : Multihash}

/-- A node of the network passes a broadcast on to another. -/
def Relay (network : Network) (origin source target : Multihash) : Prop :=
  ∃ peer ∈ network.peers, peer.nodeSelf = source ∧ target ∈ peer.multicastRecv origin ∧ target ∈ network.ids

/-- What a node passes on goes farther from the origin. -/
theorem farther_of_mem {peer : Peer} {target : Multihash} (passed : target ∈ peer.multicastRecv origin) :
    origin.number ^^^ peer.nodeSelf.number < origin.number ^^^ target.number := by
  rw [Peer.multicastRecv] at passed
  split at passed
  · obtain ⟨-, one, -, rfl, farther⟩ := NodeManager.mem_getIdsForFar.mp (List.mem_of_mem_filter passed)
    rwa [Multihash.number_ofNumber_number]
  · cases passed

theorem Relay.farther {source target : Multihash} (relay : network.Relay origin source target) :
    origin.number ^^^ source.number < origin.number ^^^ target.number := by
  obtain ⟨peer, -, rfl, passed, -⟩ := relay
  exact farther_of_mem passed

/-- Broadcasts go farther from their origin with every step, come to no node twice on any way, and stop. -/
theorem broadcast_stops (network : Network) (origin : Multihash) :
    (∀ source target, network.Relay origin source target →
        origin.number ^^^ source.number < origin.number ^^^ target.number) ∧
      (∀ path : List Multihash, path.IsChain (network.Relay origin) → path.Nodup) ∧
      ∀ floods : ℕ → Multiset Multihash, ¬ ∀ time,
        Descent.Flood (network.Relay origin) (floods time) (floods (time + 1)) := by
  refine ⟨fun source target => Relay.farther, fun path steps => ?_, fun floods => ?_⟩
  · exact Descent.path_nodup (fun id => OrderDual.toDual (origin.number ^^^ id.number))
      (fun source target relay => relay.farther) steps
  · exact Descent.flood_stops network.ids.toFinset (fun id => origin.number ^^^ id.number)
      (fun source target ⟨_, _, _, _, inside⟩ => List.mem_toFinset.mpr inside)
        (fun source target relay => relay.farther) floods

end Network

end PolarCloud.MessageCenter
