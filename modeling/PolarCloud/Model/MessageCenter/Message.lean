import PolarCloud.Model.Auth
import PolarCloud.Model.MessageCenter

/-! # What a message is made of

A message travels as two JSON texts: the head, which every node on the way reads, and the body, which only the node
it is for reads. Before a message or a reply is sent, a random number, the time and a hash over the whole are put
into its body.
-/

namespace PolarCloud.MessageCenter

open NodeStore Json Auth

/-- A head with the side the message comes from. -/
structure SenderHead extends MessageHead where
  sender : Option Multihash
  senderSuperId : Option Multihash
deriving DecidableEq, Repr

structure MessageBody where
  createTime : String := ""
  replyTime : String := ""
  hash : Option Multihash := none
  replyHash : Option Multihash := none
  sendRand : UInt64 := 0
  recvRand : UInt64 := 0
  content : Option Bytes := none
deriving DecidableEq, Repr

/-- What is put into a body before it is sent. -/
structure Stamp where
  hash : Multihash
  rand : UInt64
  time : String

structure Message where
  head : SenderHead
  body : MessageBody
deriving DecidableEq, Repr

namespace SenderHead

def members (head : SenderHead) : List (String × Json) :=
  [("r_id", ofBytes? head.recvId), ("r_s_id", ofBytes? head.recvSuperId), ("s_id", ofBytes? head.sender),
    ("s_s_id", ofBytes? head.senderSuperId), ("accurate", .bool head.accurate)]

def setMember (head : SenderHead) (key : String) (value : Json) : Option SenderHead :=
  if named key "r_id" then (getBytes? value).map fun recvId => { head with recvId }
  else if named key "r_s_id" then (getBytes? value).map fun recvSuperId => { head with recvSuperId }
  else if named key "s_id" then (getBytes? value).map fun sender => { head with sender }
  else if named key "s_s_id" then (getBytes? value).map fun senderSuperId => { head with senderSuperId }
  else if named key "accurate" then (getBool head.accurate value).map fun accurate => { head with accurate }
  else some head

def empty : SenderHead := { recvId := none, recvSuperId := none, sender := none, senderSuperId := none }

def json (head : SenderHead) : Bytes := (obj head.members).bytes

theorem decode_members (head : SenderHead) : decodeMembers setMember empty (.obj head.members) = some head := by
  simp [members, decodeMembers, setMember, named, foldChar, getBool]

end SenderHead

namespace MessageBody

def members (body : MessageBody) : List (String × Json) :=
  [("c_time", .str body.createTime), ("r_time", .str body.replyTime), ("hash", ofBytes? body.hash),
    ("r_hash", ofBytes? body.replyHash), ("s_rand", ofUInt64 body.sendRand), ("r_rand", ofUInt64 body.recvRand),
    ("content", ofBytes? body.content)]

def setMember (body : MessageBody) (key : String) (value : Json) : Option MessageBody :=
  if named key "c_time" then (getString body.createTime value).map fun createTime => { body with createTime }
  else if named key "r_time" then (getString body.replyTime value).map fun replyTime => { body with replyTime }
  else if named key "hash" then (getBytes? value).map fun hash => { body with hash }
  else if named key "r_hash" then (getBytes? value).map fun replyHash => { body with replyHash }
  else if named key "s_rand" then (getUInt64 body.sendRand value).map fun sendRand => { body with sendRand }
  else if named key "r_rand" then (getUInt64 body.recvRand value).map fun recvRand => { body with recvRand }
  else if named key "content" then (getBytes? value).map fun content => { body with content }
  else some body

def json (body : MessageBody) : Bytes := (obj body.members).bytes

theorem decode_members (body : MessageBody) : decodeMembers setMember {} (.obj body.members) = some body := by
  simp [members, decodeMembers, setMember, named, foldChar, getString]

/-- `NewMessageBody` -/
def new (content : Option Bytes) (creatTime : String) (hash : Option Multihash) (sendRand : UInt64) : MessageBody :=
  { createTime := creatTime, hash, sendRand, content }

def buildHash (body : MessageBody) (stamp : Stamp) : MessageBody :=
  { body with
    replyHash := none, hash := some stamp.hash, sendRand := stamp.rand, recvRand := 0, createTime := stamp.time }

def buildReplyHash (body : MessageBody) (stamp : Stamp) : MessageBody :=
  { body with replyHash := some stamp.hash, recvRand := stamp.rand, replyTime := stamp.time }

end MessageBody

/-- The sender and his super node are the node's own. -/
def Peer.newMessageHead (this : Peer) (recvId recvSuperId : Option Multihash) (accurate : Bool) : SenderHead :=
  { recvId, recvSuperId, accurate, sender := some this.nodeSelf,
    senderSuperId := if this.isSuper then some this.nodeSelf else this.superPeerId }

def parserMessage (rt : Runtime) (data : Bytes) : Option SenderHead :=
  (rt.unmarshal data).bind (decodeMembers SenderHead.setMember .empty)

def parserContent (rt : Runtime) (dataPlus : Bytes) : Option MessageBody :=
  (rt.unmarshal dataPlus).bind (decodeMembers MessageBody.setMember {})

section

variable {rt : Runtime} (reads : ∀ value : Json, rt.unmarshal value.bytes = some value)

include reads

theorem parserMessage_json (head : SenderHead) : parserMessage rt head.json = some head := by
  rw [parserMessage, SenderHead.json, reads, Option.bind_some, SenderHead.decode_members]

theorem parserContent_json (body : MessageBody) : parserContent rt body.json = some body := by
  rw [parserContent, MessageBody.json, reads, Option.bind_some, MessageBody.decode_members]

end

end PolarCloud.MessageCenter
