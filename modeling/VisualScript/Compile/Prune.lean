import VisualScript.Graph.Link
import VisualScript.Reach
import VisualScript.Schema

/-!
# Pruning

A node stays when a walk along exec links from the roots reaches it, or when it
is pure and joined to such a node by links through nodes that stay.
-/

namespace VisualScript.Graph

/-- The nodes that run when one of the roots does. -/
def execReachable (g : Graph) (roots : List NodeId) : List NodeId :=
  reach g.execSuccessors g.order roots

/-- The links between nodes, each as it is recorded on a pin. -/
def linkEdges (g : Graph) : List (NodeId × NodeId) :=
  g.order.flatMap fun id => ((g.pinsOf id).flatMap g.linkedNodes).map (id, ·)

/-- The nodes at the other ends of the edges at a node, in either direction. -/
def neighbours (edges : List (NodeId × NodeId)) (id : NodeId) : List NodeId :=
  edges.filterMap fun e => if e.1 = id then some e.2 else if e.2 = id then some e.1 else none

/-- The nodes that links in either direction join to one of the starts. -/
def linkReachable (g : Graph) (starts : List NodeId) : List NodeId :=
  reach (neighbours g.linkEdges) g.order starts

/-- Removes the nodes of the order that a test does not keep, and says which. -/
def removeUnless (g : Graph) (keep : Graph → NodeId → Bool) : List NodeId × Graph :=
  g.order.foldl
    (fun (removed, g) id =>
      if keep g id then (removed, g) else (removed ++ [id], g.removeNode id))
    ([], g)

/-- Removes every node that cannot run and does not feed one that can, and says which nodes
these are.  Comments are kept on request. -/
def pruneIsolated (g : Graph) (roots : List NodeId) (keepComments : Bool) : List NodeId × Graph :=
  let reachable := g.execReachable roots
  let (dead, g) := g.removeUnless fun g id => id ∈ reachable || g.isPure id
  let connected := g.linkReachable reachable
  let (loose, g) := g.removeUnless fun g id =>
    id ∈ connected || (keepComments && g.kindIs id (·.isComment))
  (dead ++ loose, g)

end VisualScript.Graph
