import PolarCloud.Model.Engine.Sessions

/-! # Handshakes

Both sides send their node as JSON text behind its length. The id, the public key and the signature in it are what
the peer says they are; `CheckIdInfo` looks at them before the peer is put into a node table and its id becomes the
name of the session.
-/

namespace PolarCloud.Auth

open NodeStore Json

structure IdInfo where
  id : Option Multihash := none
  puk : Bytes := []
  sign : String := ""
  ctype : String := ""
deriving DecidableEq, Repr

structure Node where
  idInfo : IdInfo := {}
  isSuper : Bool := false
  addr : String := ""
  tcpPort : ℕ := 0
  isApp : Bool := false
deriving DecidableEq, Repr

def getString (old : String) : Json → Option String
  | null => some old
  | str value => some value
  | _ => none

def getBool (old : Bool) : Json → Option Bool
  | null => some old
  | Json.bool value => some value
  | _ => none

def getUint16 (old : ℕ) : Json → Option ℕ
  | null => some old
  | num value => if 0 ≤ value ∧ value < 2 ^ 16 then some value.toNat else none
  | _ => none

def IdInfo.setMember (info : IdInfo) (key : String) (value : Json) : Option IdInfo :=
  if named key "id" then (getBytes? value).map fun id => { info with id }
  else if named key "puk" then (getBytes value).map fun puk => { info with puk }
  else if named key "sign" then (getString info.sign value).map fun sign => { info with sign }
  else if named key "ctype" then (getString info.ctype value).map fun ctype => { info with ctype }
  else some info

def Node.setMember (node : Node) (key : String) (value : Json) : Option Node :=
  if named key "idinfo" then (decodeMembers IdInfo.setMember node.idInfo value).map fun idInfo => { node with idInfo }
  else if named key "issuper" then (getBool node.isSuper value).map fun isSuper => { node with isSuper }
  else if named key "addr" then (getString node.addr value).map fun addr => { node with addr }
  else if named key "tcpport" then (getUint16 node.tcpPort value).map fun tcpPort => { node with tcpPort }
  else if named key "isapp" then (getBool node.isApp value).map fun isApp => { node with isApp }
  else some node

def parseNode (rt : Runtime) (bs : Bytes) : Option Node := (rt.unmarshal bs).bind (decodeMembers Node.setMember {})

/-- The signatures of the curve's library: key pairs, which texts are signatures made with a key, and the check of
one, which accepts those and no others. -/
structure Scheme where
  Key : Type
  pukBytes : Key → Bytes
  Signs : Key → Bytes → String → Prop
  verifyS256 : Bytes → Bytes → String → Bool
  verify_iff : ∀ message puk sign, verifyS256 message puk sign = true ↔
    ∃ key, pukBytes key = puk ∧ Signs key message sign

/-- The id of a public key: the double hash of its base64 text. -/
def idOfPuk (rt : Runtime) (puk : Bytes) : Option Multihash :=
  let pukStrings := (Base64.encode puk).flatMap String.utf8EncodeChar
  Utils.encode (rt.sha3 (rt.sha3 pukStrings)) Config.hashCode

/-- What a node says of itself; `signText` is the text of the signature that it makes. -/
def buildIdinfo (rt : Runtime) (scheme : Scheme) (key : scheme.Key) (signText : Bytes → String) : Option IdInfo := do
  let puk := scheme.pukBytes key
  let id ← idOfPuk rt puk
  some { id, puk, sign := signText id }

/-- Whether the signature is right; a missing id is a panic. -/
def checkIdInfo (scheme : Scheme) (idInfo : IdInfo) : Option Bool :=
  idInfo.id.map fun id => scheme.verifyS256 id idInfo.puk idInfo.sign

inductive AuthError where
  | io
  | json
  | panic
  | text (value : String)
deriving DecidableEq, Repr

namespace AuthError

def otherNet : AuthError := text "网络id不相同"
def illegal : AuthError := text "非法的 idinfo"
def itself : AuthError := text "自己连接自己，断开连接"
def exists' : AuthError := text "这个链接已经存在"
def probe : AuthError := text "这是一个验证是否有公网ip地址的超级节点的连接"

end AuthError

/-- A node's tables, with the nodes that are stored in them under their ids. -/
structure Peers where
  manager : NodeManager
  nodes : SyncMap Multihash Node := .empty
  proxys : SyncMap Multihash Node := .empty

namespace Peers

/-- `AddNode`: the ids that the node takes the place of are deleted. -/
def addNode (this : Peers) (allNodes : List Multihash) (id : Multihash) (node : Node) : Peers :=
  if id = this.manager.nodeSelf then this
  else
    let idm := (Ids.new this.manager.nodeSelf nodeIdLevel).addAll allNodes
    let (ok, removeIDs, _) := idm.addId id
    if ok then
      { this with
        manager := this.manager.addNode allNodes id
        nodes := removeIDs.foldl SyncMap.delete (this.nodes.store id node) }
    else this

def addProxyNode (this : Peers) (id : Multihash) (node : Node) : Peers :=
  { this with manager := this.manager.addProxyNode id, proxys := this.proxys.store id node }

end Peers

/-- Read so many bytes, or fail. -/
def readFull (count : ℕ) (input : Bytes) : Except AuthError (Bytes × Bytes) :=
  if count ≤ input.length then .ok (input.take count, input.drop count) else .error .io

/-- Read the peer's node and check it; both sides do it in the same words. -/
def readNode (rt : Runtime) (scheme : Scheme) (input : Bytes) : Except AuthError (Node × Multihash × Bytes) := do
  let (sizebs, input) ← readFull 2 input
  let (nodeBs, input) ← readFull (BigEndian.number sizebs) input
  match parseNode rt nodeBs with
  | none => .error .json
  | some node =>
      match checkIdInfo scheme node.idInfo with
      | none => .error .panic
      | some false => .error .illegal
      | some true => .ok (node, node.idInfo.id.getD [], input)

/-- The side that was connected to, and what the peer sends from its host. `wrote` tells whether the two writes
succeed, `isSuper` whether the peer can be connected to. The name is given only with no error; tables may have changed
with one. -/
def recvKey (rt : Runtime) (scheme : Scheme) (netid : ℕ) (this : Peers) (input : Bytes) (host : String)
    (wrote : Bool × Bool) (isSuper : Bool) (allNodes : List Multihash) : Except AuthError Multihash × Peers :=
  match readFull 4 input with
  | .error err => (.error err, this)
  | .ok (netIdBs, input) =>
      if BigEndian.number netIdBs ≠ netid then (.error .otherNet, this)
      else
        match readNode rt scheme input with
        | .error err => (.error err, this)
        | .ok (node, remoteName, _) =>
            if remoteName = this.manager.nodeSelf then (.error .itself, this)
            -- a session of that name sets an error that the next write takes away
            else if !wrote.1 then (.error .io, this)
            else if node.isSuper then (.error .probe, this)
            else
              let node := { node with addr := host, isSuper }
              let this :=
                if isSuper then this.addNode allNodes remoteName node else this.addProxyNode remoteName node
              if !wrote.2 then (.error .io, this) else (.ok remoteName, this)

/-- The side that connects to a host. `linked` tells which names have sessions; only the first write is checked. -/
def sendKey (rt : Runtime) (scheme : Scheme) (linked : Multihash → Bool) (this : Peers) (input : Bytes) (host : String)
    (wrote : Bool) (allNodes : List Multihash) : Except AuthError Multihash × Peers :=
  if !wrote then (.error .io, this)
  else
    match readNode rt scheme input with
    | .error err => (.error err, this)
    | .ok (node, remoteName, input) =>
        if linked remoteName then (.error .exists', this)
        else
          let this := this.addNode allNodes remoteName { node with addr := host, isSuper := true }
          match readFull 2 input with
          | .error err => (.error err, this)
          | .ok (isSuperBs, _) =>
              let manager := { this.manager with isSuper := BigEndian.number isSuperBs = 1 }
              (.ok remoteName, { this with manager })

end PolarCloud.Auth
