import VisualScript.Graph.Link

/-!
# Merging a fragment

A fragment is a graph built apart.  Merging it adds its nodes and pins under
names that the host never used.
-/

namespace VisualScript

/-- The new names that the nodes and pins of a fragment got. -/
structure Remap where
  nodes : List (NodeId × NodeId) := []
  pins : List (PinId × PinId) := []
  deriving Inhabited

namespace Remap

def node? (r : Remap) (id : NodeId) : Option NodeId := r.nodes.lookup id

def pin? (r : Remap) (id : PinId) : Option PinId := r.pins.lookup id

/-- Numbers the nodes, and the pins that they list, from the given numbers on. -/
def ofNodes (nodes : List Node) (firstNode firstPin : Nat) : Remap where
  nodes := Assoc.setAll [] (nodes.mapIdx fun i n => (n.id, ⟨firstNode + i⟩))
  pins := Assoc.setAll [] ((nodes.flatMap (·.pins)).mapIdx fun i p => (p, ⟨firstPin + i⟩))

/-- A node under its new name. -/
def renameNode (r : Remap) (n : Node) : Node :=
  { n with id := (r.node? n.id).getD n.id, pins := n.pins.map fun p => (r.pin? p).getD p }

/-- A pin under its new name; links out of the fragment are dropped. -/
def renamePin (r : Remap) (id : PinId) (owner : NodeId) (p : Pin) : Pin :=
  { p with id := (r.pin? id).getD id, owner, links := p.links.filterMap r.pin? }

end Remap

namespace Graph

/-- The pins of the fragment in the order of its nodes, under their new names. -/
def renamedPins (fragment : Graph) (r : Remap) : List Pin :=
  fragment.liveNodes.flatMap fun n =>
    n.pins.filterMap fun id =>
      (fragment.pin? id).map (r.renamePin id ((r.node? n.id).getD n.id))

/-- Adds every live node of the fragment. -/
def mergeFragment (g fragment : Graph) : Remap × Graph :=
  let r := Remap.ofNodes fragment.liveNodes g.nodes.size g.pins.size
  let nodes := fragment.liveNodes.map r.renameNode
  (r, { g with
    nodes := g.nodes.append nodes
    pins := g.pins.append (fragment.renamedPins r)
    order := g.order ++ nodes.map (·.id) })

/-- A copy under another name. -/
def copyAs (g : Graph) (name : String) : Graph := { g with name }

end Graph

namespace MessageLog

/-- Records that the nodes and pins of `host` under new names come from those of `source`. -/
def addRemapped (log : MessageLog) (host source : Graph) (r : Remap) : MessageLog :=
  let log := r.nodes.foldl (fun log e => log.addSource (host.nodeRef e.2) (source.nodeRef e.1)) log
  r.pins.foldl (fun log e => log.addSource (host.pinRef e.2) (source.pinRef e.1)) log

end MessageLog

end VisualScript
