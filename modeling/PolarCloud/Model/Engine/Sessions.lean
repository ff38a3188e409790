import PolarCloud.Base.SyncMap
import PolarCloud.Model.NodeStore.NodeManager

/-! # Sessions by name

A handshake gives the connection the name of the peer's id and puts the peer into a node table; the session is
found under its name only once it has been added to the store, and its reader runs before that. The store knows
names alone. Closing calls the engine's callback first, which removes the node, and the session of its name, and
then removes the name once more.
-/

namespace PolarCloud

namespace NodeStore.NodeManager

def addProxyNode (this : NodeManager) (node : Multihash) : NodeManager :=
  { this with proxys := if node ∈ this.proxys then this.proxys else this.proxys ++ [node] }

/-- Forget a node in both tables. -/
def delNode (this : NodeManager) (id : Multihash) : NodeManager :=
  { this with nodes := this.nodes.filter fun one => one ≠ id, proxys := this.proxys.filter fun one => one ≠ id }

end NodeStore.NodeManager

namespace Sessions

open NodeStore

/-- A name: the base58 text of some bytes, or any other text. -/
inductive Name where
  | b58 (id : Multihash)
  | text (name : String)
deriving DecidableEq, Repr

/-- The id that a name is the text of; the empty one when there is none. -/
def Name.fromB58String : Name → Multihash
  | b58 id => (Utils.cast id).getD []
  | text _ => []

/-- A connection on either side. The numbers of registrations grow; one that was not added yet has number 0. -/
structure Session where
  server : Bool
  name : Name
  remoteName : Name
  registered : ℕ := 0
  isOpen : Bool := true
deriving DecidableEq, Repr

/-- Sessions are known by their positions, as objects are by their addresses. -/
structure Engine where
  name : Name
  sessions : List Session := []
  nameStore : SyncMap Name ℕ := .empty
  registrations : ℕ := 0
  manager : NodeManager

/-- What can happen: a handshake ends well on either side, the new session is added to the store, a session is
renamed, and the two halves of closing one, up to the return of the callback and from there on. -/
inductive Event where
  | recvKey (id : Multihash) (isSuper : Bool) (allNodes : List Multihash)
  | sendKey (id : Multihash) (isSuper : Bool) (allNodes : List Multihash)
  | addSession (session : ℕ)
  | setName (session : ℕ) (name : Name)
  | closeConnCallback (session : ℕ)
  | close (session : ℕ)
deriving DecidableEq, Repr

namespace Engine

def getSession (this : Engine) (name : Name) : Option ℕ := this.nameStore.load name

/-- `RecvKey` and the session of `newConnect`. A session of that name is noticed, and changes nothing; whether the
peer is a super node is found out by connecting to it. -/
def recvKey (this : Engine) (id : Multihash) (isSuper : Bool) (allNodes : List Multihash) : Engine :=
  if id = this.manager.nodeSelf then this
  else
    { this with
      sessions := this.sessions ++ [{ server := true, name := .b58 id, remoteName := .b58 id }],
      manager := if isSuper then this.manager.addNode allNodes id else this.manager.addProxyNode id }

/-- `SendKey` and the client of `Connect`, whose name is that of the engine at first. The peer says whether this
node is a super node. -/
def sendKey (this : Engine) (id : Multihash) (isSuper : Bool) (allNodes : List Multihash) : Engine :=
  if (this.getSession (.b58 id)).isSome then this
  else
    { this with
      sessions := this.sessions ++ [{ server := false, name := this.name, remoteName := .b58 id }],
      manager := { this.manager.addNode allNodes id with isSuper } }

/-- The end of `newConnect` and of `AddClientConn`, once for each session. -/
def addSession (this : Engine) (session : ℕ) : Engine :=
  match this.sessions[session]? with
  | none => this
  | some one =>
      if one.registered ≠ 0 then this
      else
        { this with
          sessions := this.sessions.modify session fun one =>
            { one with name := if one.server then one.name else one.remoteName, registered := this.registrations + 1 },
          nameStore := this.nameStore.store one.remoteName session,
          registrations := this.registrations + 1 }

def renameSession (this : Engine) (oldName newName : Name) : Engine :=
  match this.nameStore.load oldName with
  | none => this
  | some value => { this with nameStore := (this.nameStore.store newName value).delete oldName }

def removeSession (this : Engine) (name : Name) : Engine := { this with nameStore := this.nameStore.delete name }

def setName (this : Engine) (session : ℕ) (name : Name) : Engine :=
  match this.sessions[session]? with
  | none => this
  | some one =>
      let renamed := this.renameSession one.name name
      { renamed with sessions := renamed.sessions.modify session fun one => { one with name } }

def delNode (this : Engine) (id : Multihash) : Engine :=
  { this.removeSession (.b58 id) with manager := this.manager.delNode id }

/-- The callback of closing, which is called for every call of `Close`, also a second one. -/
def closeConnCallback (this : Engine) (session : ℕ) : Engine :=
  match this.sessions[session]? with
  | none => this
  | some one =>
      let deleted := this.delNode one.name.fromB58String
      { deleted with sessions := deleted.sessions.modify session fun one => { one with isOpen := false } }

/-- What `Close` does after the callback. -/
def close (this : Engine) (session : ℕ) : Engine :=
  match this.sessions[session]? with
  | none => this
  | some one => if one.isOpen then this else this.removeSession one.name

def step (this : Engine) : Event → Engine
  | .recvKey id isSuper allNodes => this.recvKey id isSuper allNodes
  | .sendKey id isSuper allNodes => this.sendKey id isSuper allNodes
  | .addSession session => this.addSession session
  | .setName session name => this.setName session name
  | .closeConnCallback session => this.closeConnCallback session
  | .close session => this.close session

/-- A node with a name and an id, at its start. -/
def start (name : Name) (nodeSelf : Multihash) : Engine := { name, manager := { nodeSelf } }

def run (name : Name) (nodeSelf : Multihash) (events : List Event) : Engine := events.foldl step (start name nodeSelf)

end Engine

end Sessions

end PolarCloud
