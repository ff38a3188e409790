import PolarCloud.Model.NodeStore.NodeManager

/-! # Messages between super nodes

A message names the node it is for and that node's super node. Who has it passes it on to the nearest
node of its table or keeps it. Broadcasts go to all nodes of the table first, and from there to those that
are farther from where the broadcast began.
-/

namespace PolarCloud.MessageCenter

open NodeStore

structure MessageHead where
  recvId : Option Multihash
  recvSuperId : Option Multihash
  accurate : Bool := false
deriving DecidableEq, Repr

/-- What becomes of a message at a node. An id that is missing is a panic when it is read. -/
inductive Outcome where
  | handled
  | kept
  | sent (name : Multihash)
  | panicked
deriving DecidableEq, Repr

/-- A node's tables and the names of its live sessions. -/
structure Peer extends NodeManager where
  sessions : List Multihash := []
deriving DecidableEq, Repr

namespace Peer

/-- Send over the session of a name, if there is one. -/
def send (this : Peer) (name : Multihash) : Outcome := if name ∈ this.sessions then .sent name else .kept

/-- The part of `IsSendToOtherSuperToo` for nodes that are no super nodes. -/
def sendToSuper (this : Peer) (head : MessageHead) : Outcome :=
  match head.recvId with
  | none => .panicked
  | some recvId =>
      if this.nodeSelf = recvId then .handled
      else if head.accurate then if head.recvSuperId = none then .panicked else .kept
      else
        match this.superPeerId with
        | none => .panicked
        | some superPeerId => this.send superPeerId

/-- Whether a message is for the node itself; if not, it is sent on. -/
def isSendToOtherSuperToo (this : Peer) (head : MessageHead) (form : Option Multihash) : Outcome :=
  if !this.isSuper then this.sendToSuper head
  else
    match head.recvId, head.recvSuperId with
    | some recvId, some recvSuperId =>
        if recvId = recvSuperId then
          if recvId = this.nodeSelf then .handled
          else
            match this.findNearInSuper recvSuperId form true with
            | none => .panicked
            | some targetId =>
                if targetId = this.nodeSelf then
                  if recvId ∈ this.proxys then this.send recvId
                  else if !head.accurate then .handled else .kept
                else this.send targetId
        else if this.nodeSelf = recvSuperId then
          if recvId ∈ this.proxys then this.send recvId else .kept
        else
          match this.findNearInSuper recvSuperId form true with
          | none => .panicked
          | some targetId =>
              if targetId = this.nodeSelf then if head.accurate then .kept else .handled
              else this.send targetId
    | _, _ => .panicked

/-- A broadcast of a super node goes to all nodes of its table. -/
def multicast (this : Peer) : List Multihash :=
  if this.isSuper then this.nodes.filter fun one => one ∈ this.sessions else []

/-- A broadcast that is received goes on to those farther from where it began. -/
def multicastRecv (this : Peer) (origin : Multihash) : List Multihash :=
  if this.isSuper then (this.getIdsForFar origin).filter fun one => one ∈ this.sessions else []

end Peer

/-- Finitely many nodes, each known by its id. -/
structure Network where
  peers : List Peer
  distinct : (peers.map (·.nodeSelf)).Nodup

namespace Network

/-- The peer of an id. -/
def peer? (this : Network) (id : Multihash) : Option Peer := this.peers.find? fun peer => peer.nodeSelf = id

/-- A super node sends a message on to a super node, wherever it came from. -/
def Hop (this : Network) (head : MessageHead) (form : Option Multihash) (source target : Multihash) : Prop :=
  ∃ peer ∈ this.peers, peer.nodeSelf = source ∧ peer.isSuper = true ∧
    peer.isSendToOtherSuperToo head form = .sent target ∧
      ∃ next ∈ this.peers, next.nodeSelf = target ∧ next.isSuper = true

instance (this : Network) (head : MessageHead) (form : Option Multihash) (source target : Multihash) :
    Decidable (this.Hop head form source target) :=
  inferInstanceAs (Decidable (∃ peer ∈ this.peers, peer.nodeSelf = source ∧ peer.isSuper = true ∧
    peer.isSendToOtherSuperToo head form = .sent target ∧
      ∃ next ∈ this.peers, next.nodeSelf = target ∧ next.isSuper = true))

end Network

end PolarCloud.MessageCenter
