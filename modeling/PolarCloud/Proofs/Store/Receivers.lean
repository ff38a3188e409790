import PolarCloud.Base.Repeats
import PolarCloud.Proofs.NodeStore.Search
import PolarCloud.Proofs.Store.Places
import PolarCloud.Proofs.Store.Sync

/-! # Which nodes a record is sent to

A record goes to the nodes nearest to the four places of its chunk. Only the node that was last sent to is remembered,
so a node that is nearest to two places, but not to one between them, is sent to twice.
-/

namespace PolarCloud

open NodeStore

theorem Multihash.ofNumber_ne_nil (x : ℕ) : Multihash.ofNumber x ≠ [] := by
  intro none
  have length := congrArg List.length none
  have code := Utils.putUvarint_length_pos Config.hashCode
  rw [ofNumber, Utils.encode, if_pos (by decide), Option.getD_some, List.length_append, List.length_append,
    List.length_nil] at length
  omega

namespace Store

open MessageCenter Repeats

namespace StoreNode

variable {this : StoreNode} {cid : ChunkInfoData} {peer : Multihash}

/-- The node that is known to be nearest to a place. -/
def near (this : StoreNode) (id : Multihash) : Option Multihash := this.peer.findNearNodeId this.apps id none false

/-- Where nothing is near to one place, nothing is to any. -/
theorem near_eq_none_iff (id other : Multihash) : this.near id = none ↔ this.near other = none := by
  have empty (id : Multihash) : this.near id = none ↔
      ((this.peer.proxys.filter fun one => one ≠ Option.getD none [] ∧ one ∉ this.apps).foldl
        (fun kl (one : Multihash) => kl.add one.number) (this.peer.candidates none false)).nodes = [] := by
    rw [near, NodeManager.findNearNodeId, Option.map_eq_none_iff, List.head?_eq_none_iff, Kademlia.get,
      ← List.length_eq_zero_iff, List.length_insertionSort, List.length_eq_zero_iff]
  rw [empty id, empty other]

theorem ne_nil_of_near {id : Multihash} (found : this.near id = some peer) : peer ≠ [] := by
  obtain ⟨number, -, rfl⟩ := Option.map_eq_some_iff.mp found
  exact Multihash.ofNumber_ne_nil number

/-! ## Receivers -/

theorem receivers_eq (this : StoreNode) (idtmp : Multihash) (ids : List Multihash) :
    idtmp :: this.receivers idtmp ids = (ids.map fun id => (this.near id).getD id).destutter' (· ≠ ·) idtmp := by
  induction ids generalizing idtmp with
  | nil => rfl
  | cons id ids ih =>
    rw [receivers, List.map_cons]
    split_ifs with same
    · rw [List.destutter'_cons_neg _ (not_not.mpr same), ih]
    · rw [List.destutter'_cons_pos _ same, ← ih]
      rfl

/-- A node that is nearest to some place receives once exactly when it comes once, or several times in a row. -/
theorem count_receivers_eq_one_iff {ids : List Multihash} (found : ∃ id ∈ ids, this.near id = some peer) :
    (this.receivers [] ids).count peer = 1 ↔ Together (some peer) (ids.map this.near) := by
  obtain ⟨id, inside, nearest⟩ := found
  have first : [] ≠ peer := (ne_nil_of_near nearest).symm
  have all : ids.map this.near = (ids.map fun id => (this.near id).getD id).map some := by
    rw [List.map_map]
    apply List.map_congr_left
    intro other _
    cases known : this.near other with
    | none => cases nearest.symm.trans ((near_eq_none_iff other id).mp known)
    | some peer' => simp [known]
  have counted : (this.receivers [] ids).count peer =
      ((ids.map fun id => (this.near id).getD id).destutter' (· ≠ ·) []).count peer := by
    rw [← receivers_eq, List.count_cons_of_ne first]
  have comes : 0 < (this.receivers [] ids).count peer := by
    rw [counted, List.count_pos_iff, mem_destutter']
    exact List.mem_cons_of_mem _ (List.mem_map.mpr ⟨id, inside, by rw [nearest, Option.getD_some]⟩)
  rw [all, together_map_some, ← together_cons_of_ne first, ← count_destutter'_le_one_iff, ← counted]
  omega

/-! ## Messages -/

theorem length_messages_to (stamps : ℕ → Stamp) (sends : List (Multihash × SyncData))
    (other : peer ≠ this.peer.nodeSelf) :
    ((this.messages stamps sends).filter fun message => message.head.recvId = some peer).length =
      (sends.map Prod.fst).count peer := by
  induction sends generalizing stamps with
  | nil => rfl
  | cons send sends ih =>
    obtain ⟨id, data⟩ := send
    rw [messages, List.filter_append, List.length_append, ih, List.map_cons, List.count_cons, Nat.add_comm]
    congr 1
    rw [sendData]
    by_cases self : id = this.peer.nodeSelf
    · rw [if_pos self, if_neg (by rintro same; exact other (by rw [← self]; exact (beq_iff_eq.mp same).symm))]
      rfl
    · rw [if_neg self]
      by_cases same : id = peer
      · subst same
        simp [Peer.newMessageHead]
      · simp [Peer.newMessageHead, same]

theorem content_of_mem_messages {stamps : ℕ → Stamp} {sends : List (Multihash × SyncData)} {message : Message}
    {content : Bytes} (same : ∀ send ∈ sends, send.2.json = content) (sent : message ∈ this.messages stamps sends) :
    message.body.content = some content := by
  induction sends generalizing stamps with
  | nil => cases sent
  | cons send sends ih =>
    obtain ⟨first, rest⟩ := List.forall_mem_cons.mp same
    rw [messages, List.mem_append, Option.mem_toList] at sent
    rcases sent with built | sent
    · rw [(eq_of_sendData built).2, first]
    · exact ih rest sent

/-- One message is addressed to the peer, and it carries the record. -/
def ContactedOnce (this : StoreNode) (cid : ChunkInfoData) (sends : List (Multihash × SyncData)) (peer : Multihash) :
    Prop :=
  ∀ stamps, ∃ message,
    ((this.messages stamps sends).filter fun message => message.head.recvId = some peer) = [message] ∧
      message.body.content = some (SyncData.json { type := fileChunkType, data := cid.json })

/-- A record is sent to each other node that is nearest to a place of its chunk, and to each of them once. -/
def OncePerPeer (this : StoreNode) (cid : ChunkInfoData) : Prop :=
  ∃ hash sends, cid.cHash = some hash ∧ this.sendChunkInfoToPeer cid = some sends ∧
    ∀ peer ≠ this.peer.nodeSelf, (∃ id ∈ getQuarterLogicIds hash, this.near id = some peer) →
      this.ContactedOnce cid sends peer

theorem contactedOnce_iff {sends : List (Multihash × SyncData)} (made : this.sendChunkInfoToPeer cid = some sends)
    (other : peer ≠ this.peer.nodeSelf) : this.ContactedOnce cid sends peer ↔ (sends.map Prod.fst).count peer = 1 := by
  constructor
  · intro contacted
    obtain ⟨message, only, -⟩ := contacted fun _ => plainStamp
    rw [← length_messages_to (fun _ => plainStamp) sends other, only]
    rfl
  · intro once stamps
    rw [← length_messages_to stamps sends other, List.length_eq_one_iff] at once
    obtain ⟨message, only⟩ := once
    refine ⟨message, only, content_of_mem_messages (fun send sent => ?_)
      (List.mem_of_mem_filter (only ▸ List.mem_singleton_self message))⟩
    obtain ⟨hash, -, same⟩ := @eq_of_mem_sends this cid sends send.1 send.2 made sent
    rw [same]

theorem sends_eq {sends : List (Multihash × SyncData)} {hash : Multihash} (own : cid.cHash = some hash)
    (made : this.sendChunkInfoToPeer cid = some sends) :
    sends.map Prod.fst = this.receivers [] (getQuarterLogicIds hash) := by
  rw [sendChunkInfoToPeer, own, Option.map_some, Option.some_inj] at made
  rw [← made, List.map_map]
  exact List.map_id _

/-- A record is sent to every peer once exactly when it has a hash and a node that is nearest to two places is nearest
to those between them. -/
theorem oncePerPeer_iff (this : StoreNode) (cid : ChunkInfoData) : this.OncePerPeer cid ↔
    ∃ hash, cid.cHash = some hash ∧ ∀ peer ≠ this.peer.nodeSelf,
      Together (some peer) ((getQuarterLogicIds hash).map this.near) := by
  constructor
  · rintro ⟨hash, sends, own, made, contacted⟩
    refine ⟨hash, own, fun peer other => ?_⟩
    by_cases found : ∃ id ∈ getQuarterLogicIds hash, this.near id = some peer
    · rw [← count_receivers_eq_one_iff found, ← sends_eq own made]
      exact (contactedOnce_iff made other).mp (contacted peer other found)
    · exact together_of_not_mem fun inside => found (List.mem_map.mp inside)
  · rintro ⟨hash, own, together⟩
    obtain ⟨sends, made⟩ : ∃ sends, this.sendChunkInfoToPeer cid = some sends := by
      rw [sendChunkInfoToPeer, own]
      exact ⟨_, rfl⟩
    refine ⟨hash, sends, own, made, fun peer other found => ?_⟩
    rw [contactedOnce_iff made other, sends_eq own made, count_receivers_eq_one_iff found]
    exact together peer other

/-- A node that knows three others. -/
def threeOthers : StoreNode where
  peer := { nodeSelf := idOf 0x80, nodes := [idOf 0x01, idOf 0x3f, idOf 0x7f] }

/-- The record of a chunk that is named by a SHA-1 sum. -/
def sumRecord : ChunkInfoData := { cHash := some (sums [97]) }

theorem near_threeOthers : (getQuarterLogicIds (sums [97])).map threeOthers.near =
    [some (idOf 0x01), some (idOf 0x3f), some (idOf 0x7f), some (idOf 0x3f)] := by
  decide

/-- One of the nodes is nearest to the second place and to the last, and two messages are sent to it. -/
theorem second_contacted_twice : ¬ threeOthers.OncePerPeer sumRecord ∧ ∃ sends,
    threeOthers.sendChunkInfoToPeer sumRecord = some sends ∧ ∀ stamps, ((threeOthers.messages stamps sends).filter
      fun message => message.head.recvId = some (idOf 0x3f)).length = 2 := by
  obtain ⟨sends, made⟩ : ∃ sends, threeOthers.sendChunkInfoToPeer sumRecord = some sends := ⟨_, rfl⟩
  have received : threeOthers.receivers [] (getQuarterLogicIds (sums [97])) =
      [idOf 0x01, idOf 0x3f, idOf 0x7f, idOf 0x3f] := by decide
  have twice (stamps : ℕ → Stamp) : ((threeOthers.messages stamps sends).filter
      fun message => message.head.recvId = some (idOf 0x3f)).length = 2 := by
    rw [length_messages_to stamps sends (by decide), @sends_eq _ sumRecord sends _ rfl made, received]
    decide
  refine ⟨?_, sends, made, twice⟩
  rintro ⟨hash, sends', own, made', contacted⟩
  cases own
  cases made.symm.trans made'
  have second : some (idOf 0x3f) ∈ (getQuarterLogicIds (sums [97])).map threeOthers.near := by
    rw [near_threeOthers]
    exact List.mem_cons_of_mem _ (List.mem_cons_self ..)
  obtain ⟨message, only, -⟩ := contacted (idOf 0x3f) (by decide) (List.mem_map.mp second) fun _ => plainStamp
  have length := twice fun _ => plainStamp
  rw [only] at length
  cases length

end StoreNode

end Store

end PolarCloud
