import PolarCloud.Base.BigEndian
import PolarCloud.Base.Xor
import PolarCloud.Model.Config
import PolarCloud.Model.Utils

/-! # Super nodes and their tables

Nodes are known by multihash addresses, and distances are taken between the numbers of their digests. A
node keeps one slot for every bit: the id nearest to its own number with that bit flipped. Tables are
keyed by the base58 text of an id, which stands for the id itself here; the order in which a table is
ranged over is up to the runtime.
-/

namespace PolarCloud

abbrev Multihash := Bytes

namespace Multihash

/-- The digest; nothing for bytes that do not read. -/
def data (id : Multihash) : Bytes := ((Utils.decode id).map (·.digest)).getD []

def number (id : Multihash) : ℕ := BigEndian.number id.data

/-- The id that is made of a number. -/
def ofNumber (x : ℕ) : Multihash := (Utils.encode (BigEndian.bytes x) Config.hashCode).getD []

end Multihash

namespace NodeStore

/-- Whether an id stands in a table. -/
scoped instance decidableMem (id : Multihash) (table : List Multihash) : Decidable (id ∈ table) :=
  List.instDecidableMemOfLawfulBEq id table

def nodeIdLevel : ℕ := 256

structure Kademlia where
  nodes : List ℕ := []
deriving DecidableEq, Repr

namespace Kademlia

def less (findNode a b : ℕ) : Bool := if findNode ^^^ b < findNode ^^^ a then false else true

def add (this : Kademlia) (idOne : ℕ) : Kademlia :=
  if idOne ∈ this.nodes then this else { this with nodes := this.nodes ++ [idOne] }

/-- From near to far. -/
def get (this : Kademlia) (nodeId : ℕ) : List ℕ := this.nodes.insertionSort fun a b => less nodeId a b

end Kademlia

/-- The numbers a table is asked for: the own number with one bit flipped. -/
def getNodeNetworkNum (root : Multihash) (level : ℕ) : List Multihash :=
  (List.range level).map fun i => Multihash.ofNumber (root.number ^^^ 2 ^ i)

structure Ids where
  root : Multihash
  ids : List Multihash
  count : ℕ := 0
deriving DecidableEq, Repr

namespace Ids

/-- The slots are empty at first. -/
def new (id : Multihash) (level : ℕ) : Ids where
  root := id
  ids := List.replicate level []

/-- The id in a slot stays when it is the nearest to what the slot is asked for. -/
def keeps (id one netID : Multihash) : Bool :=
  let nearId := (((Kademlia.mk []).add one.number).add id.number).get netID.number
  nearId.head?.map BigEndian.bytes = some one.data

/-- Add an id; whether it got a slot, and the ids that have none any more. -/
def addId (this : Ids) (id : Multihash) : Bool × List Multihash × Ids :=
  if this.count = 0 then (true, [], { this with ids := this.ids.map fun _ => id, count := 1 })
  else
    let slots := this.ids.zip (getNodeNetworkNum this.root this.ids.length)
    let delId := (slots.filter fun slot => !keeps id slot.1 slot.2).map Prod.fst
    let ids := slots.map fun slot => if keeps id slot.1 slot.2 then slot.1 else id
    let ok := !delId.isEmpty
    let removeIDs := delId.filter fun one => one ∉ ids
    (ok, removeIDs, { this with ids, count := if ok then this.count + 1 else this.count })

/-- Add ids one after the other. -/
def addAll (this : Ids) (ids : List Multihash) : Ids := ids.foldl (fun idm one => (idm.addId one).2.2) this

/-- The ids in the slots, each once; `range` is the order in which the runtime visits a map of them. -/
def getIds (this : Ids) (range : List Multihash → List Multihash) : List Multihash :=
  if this.count = 0 then [] else range this.ids.dedup

/-- One turn of `removeId`: a slot with the id gets the second one in the list of the ids that are in the slots at this
turn. Nothing where the code panics: at a slot that was never filled, and where there is no second id. -/
def removeAt (range : List Multihash → List Multihash) (id : Multihash) (this : Ids) (i : ℕ) : Option Ids := do
  let one ← this.ids[i]?
  if one = [] then none
  else if one = id then
    let kl := (this.getIds range).foldl (fun kl one => kl.add one.number) (Kademlia.mk [])
    let netID ← (getNodeNetworkNum this.root this.ids.length)[i]?
    let nearId ← (kl.get netID.number)[1]?
    some { this with ids := this.ids.set i (Multihash.ofNumber nearId) }
  else some this

/-- Remove an id. -/
def removeId (this : Ids) (ranges : ℕ → List Multihash → List Multihash) (id : Multihash) : Option Ids := do
  let after ← (List.range this.ids.length).foldlM (fun idm i => idm.removeAt (ranges i) id i) this
  some { after with count := if id ∈ this.ids then after.count - 1 else after.count }

end Ids

/-- What a node knows: itself, the super nodes and the proxied nodes in its tables. -/
structure NodeManager where
  nodeSelf : Multihash
  isSuper : Bool := true
  nodes : List Multihash := []
  proxys : List Multihash := []
  superPeerId : Option Multihash := none
deriving DecidableEq, Repr

namespace NodeManager

/-- Add a super node; `allNodes` are the nodes of the table in the order of this call's `Range`. -/
def addNode (this : NodeManager) (allNodes : List Multihash) (node : Multihash) : NodeManager :=
  if node = this.nodeSelf then this
  else
    let idm := (Ids.new this.nodeSelf nodeIdLevel).addAll allNodes
    let (ok, removeIDs, idm) := idm.addId node
    if ok then
      let stored := if node ∈ this.nodes then this.nodes else this.nodes ++ [node]
      { this with nodes := stored.filter fun one => one ∉ removeIDs, superPeerId := idm.ids[0]? }
    else this

/-- Whether a node would be added; `allNodes` as in `addNode`. With an empty table every id is needed. -/
def checkNeedNode (this : NodeManager) (allNodes : List Multihash) (nodeId : Multihash) : Bool :=
  if allNodes.isEmpty then true
  else if nodeId = this.nodeSelf then false
  else (((Ids.new this.nodeSelf nodeIdLevel).addAll allNodes).addId nodeId).1

/-- The candidates of a search: the nodes of the table without the excluded one, and the node itself. A
missing `outId` is the empty text. -/
def candidates (this : NodeManager) (outId : Option Multihash) (includeSelf : Bool) : Kademlia :=
  let kl : Kademlia := if includeSelf then (Kademlia.mk []).add this.nodeSelf.number else {}
  (this.nodes.filter fun one => one ≠ outId.getD []).foldl (fun kl one => kl.add one.number) kl

def findNearInSuper (this : NodeManager) (nodeId : Multihash) (outId : Option Multihash) (includeSelf : Bool) :
    Option Multihash :=
  ((this.candidates outId includeSelf).get nodeId.number).head?.map Multihash.ofNumber

/-- As `findNearInSuper`, with the proxied nodes that are no apps. -/
def findNearNodeId (this : NodeManager) (apps : List Multihash) (nodeId : Multihash) (outId : Option Multihash)
    (includeSelf : Bool) : Option Multihash :=
  let proxys := this.proxys.filter fun one => one ≠ outId.getD [] ∧ one ∉ apps
  let kl := proxys.foldl (fun kl one => kl.add one.number) (this.candidates outId includeSelf)
  (kl.get nodeId.number).head?.map Multihash.ofNumber

/-- What stands behind the node itself in a sorted list. -/
def behind (self : Bytes) : Bool → List ℕ → List Multihash
  | _, [] => []
  | find, one :: list =>
      if BigEndian.bytes one = self then behind self true list
      else if find then Multihash.ofNumber one :: behind self find list
      else behind self find list

/-- Of the nodes of the table those that are farther from an id than the node itself. -/
def getIdsForFar (this : NodeManager) (id : Multihash) : List Multihash :=
  let kl := ((Kademlia.mk []).add this.nodeSelf.number).add id.number
  let kl := this.nodes.foldl (fun kl one => kl.add one.number) kl
  behind this.nodeSelf.data false (kl.get id.number)

end NodeManager

/-- The largest number of 256 bits, in quarters. -/
def numberQuarter : List ℕ := (List.range 3).map fun i => (2 ^ 256 - 1) / 4 * (i + 1)

/-- An id and the three that lie a quarter of all numbers apart. -/
def getQuarterLogicIds (id : Multihash) : List Multihash :=
  id :: numberQuarter.map fun one => Multihash.ofNumber (id.number ^^^ one)

end NodeStore

end PolarCloud
