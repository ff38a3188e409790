import PolarCloud.Model.Engine.Sessions

/-! # The super peer

The node through which a node is reached is set when a node gets a slot, and searched anew when its own connection
closes.
-/

namespace PolarCloud.NodeStore

open Sessions

/-- What `closeConnCallback` does to the tables: the node of a closed connection is forgotten, and a super peer that is
gone is replaced by the nearest node, if there is one. -/
def NodeManager.closeConnCallback (this : NodeManager) (name : Name) : NodeManager :=
  let this := this.delNode name.fromB58String
  match this.superPeerId with
  | none => this
  | some superPeerId =>
      if name = .b58 superPeerId then
        match this.findNearInSuper this.nodeSelf none false with
        | none => this
        | some nearId => { this with superPeerId := some nearId }
      else this

/-- The order in which one call ranges over the table. -/
structure TableOrder where
  visit : List Multihash → List Multihash
  perm : ∀ nodes, (visit nodes).Perm nodes

inductive TableEvent where
  | addNode (order : TableOrder) (node : Multihash)
  | delNode (id : Multihash)
  | closeConnCallback (name : Name)

def NodeManager.step (this : NodeManager) : TableEvent → NodeManager
  | .addNode order node => this.addNode (order.visit this.nodes) node
  | .delNode id => this.delNode id
  | .closeConnCallback name => this.closeConnCallback name

end PolarCloud.NodeStore
