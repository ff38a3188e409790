import PolarCloud.Model.NodeStore.SuperPeer

/-! # Nodes that a super node offers

A list of nodes comes from a neighbour. The handler goes through it with one variable for all turns, connects to what it
needs and stores a pointer to that variable, so that an entry which points there changes with each turn.
-/

namespace PolarCloud.MessageCenter.NearSuper

open NodeStore

/-- A node of the list, and what its turn meets: whether a session of its name is there, whether a new connection tells
the node that it is a super node itself, and the orders in which the three calls range over the table. -/
structure Turn where
  id : Multihash
  session : Bool
  isSuper : Bool
  check : TableOrder
  connect : TableOrder
  add : TableOrder

/-- The tables, the variable of the loop, and the names whose entries point to it. -/
structure Handler where
  manager : NodeManager
  newNode : Multihash
  pointing : List Multihash := []

namespace Handler

/-- The id of the node that is stored under a name. -/
def idOf (this : Handler) (key : Multihash) : Multihash :=
  if key ∈ this.pointing then this.newNode else key

/-- What `GetAllNodes` returns. -/
def getAllNodes (this : Handler) : List Multihash := this.manager.nodes.map this.idOf

/-- Whether `AddNode` stores its node. -/
def stores (this : Handler) (allNodes : List Multihash) (id : Multihash) : Bool :=
  id ≠ this.manager.nodeSelf && (((Ids.new this.manager.nodeSelf nodeIdLevel).addAll allNodes).addId id).1

/-- A connection reaches the node, which is added with an object of its own. -/
def addClientConn (this : Handler) (turn : Turn) : Handler :=
  let allNodes := turn.connect.visit this.getAllNodes
  { this with
    manager := { this.manager.addNode allNodes turn.id with isSuper := turn.isSuper }
    pointing := if this.stores allNodes turn.id then this.pointing.filter fun key => key ≠ turn.id else this.pointing }

/-- `AddNode(&newNode)`. -/
def addNewNode (this : Handler) (turn : Turn) : Handler :=
  let allNodes := turn.add.visit this.getAllNodes
  { this with
    manager := this.manager.addNode allNodes this.newNode
    pointing := if this.stores allNodes this.newNode then this.newNode :: this.pointing else this.pointing }

/-- One turn of the loop; nothing where the code panics. -/
def turn (this : Handler) (turn : Turn) : Option (ForInStep Handler) :=
  let this := { this with newNode := turn.id }
  if !this.manager.checkNeedNode (turn.check.visit this.getAllNodes) this.newNode then some (.done this)
  else
    let this := if turn.session then this else this.addClientConn turn
    let this := this.addNewNode turn
    if this.manager.isSuper then some (.yield this)
    else
      -- whether the super peer is to be replaced
      match { this.manager with nodes := this.getAllNodes }.findNearInSuper this.manager.nodeSelf none false,
        this.manager.superPeerId with
      | some nearId, some superPeerId =>
          if nearId = superPeerId then some (.done this)
          else some (.yield { this with manager := { this.manager with superPeerId := some nearId } })
      | _, _ => none

/-- The turns of a list. -/
def turns (this : Handler) : List Turn → Option Handler
  | [] => some this
  | turn :: rest =>
      match this.turn turn with
      | none => none
      | some (.done last) => some last
      | some (.yield next) => next.turns rest

end Handler

/-- The handler with a list of nodes. -/
def getNearSuperAddrRecv (manager : NodeManager) (nodes : List Turn) : Option Handler :=
  Handler.turns { manager, newNode := [] } nodes

end PolarCloud.MessageCenter.NearSuper
