import VisualScript.Reach
import VisualScript.Schema

/-!
# Scheduling

A schedule puts every node after the nodes that it reads data from.  Of several
nodes that could come next it takes the one declared first.  Nodes that read from
a cycle cannot be scheduled and are reported.

The order of a graph may name a node twice, so the schedule is made on positions
in the order; the last position of a node stands for it.
-/

namespace VisualScript.Graph

/-- The last position of a node in the order. -/
def lastPosition? (g : Graph) (id : NodeId) : Option Nat :=
  (g.order.zipIdx.filter fun e => e.1 = id).getLast?.map (·.2)

/-- For each position of the order the positions that it depends on. -/
def dependencyTable (g : Graph) : List (List Nat) :=
  g.order.zipIdx.map fun (id, i) =>
    if g.lastPosition? id = some i then (g.dataDependencies id).filterMap g.lastPosition? else []

end VisualScript.Graph

namespace VisualScript.Schedule

/-- The first position that is not done and whose dependencies all are. -/
def ready? (table : List (List Nat)) (done : List Nat) : Option Nat :=
  (table.zipIdx.find? fun e => decide (e.2 ∉ done) && e.1.all (· ∈ done)).map (·.2)

/-- Goes on for at most `fuel` positions. -/
def extend (table : List (List Nat)) : Nat → List Nat → List Nat
  | 0, done => done
  | fuel + 1, done => match ready? table done with
    | none => done
    | some i => extend table fuel (done ++ [i])

/-- The positions in the order in which they can be scheduled. -/
def positions (table : List (List Nat)) : List Nat := extend table table.length []

/-- Whether a position depends on itself through others. -/
def onCycle (table : List (List Nat)) (i : Nat) : Bool :=
  let next := fun j => table[j]?.getD []
  i ∈ reach next (List.range table.length) (next i)

end VisualScript.Schedule

namespace VisualScript.Graph

/-- What is wrong with a node that could not be scheduled. -/
def scheduleFault (g : Graph) (table : List (List Nat)) (id : NodeId) (i : Nat) : Message :=
  if Schedule.onCycle table i then
    .error "Dependency cycle detected, preventing node @@ from being scheduled" [g.nodeToken id]
  else .error "Node @@ reads from a dependency cycle and cannot be scheduled" [g.nodeToken id]

/-- The nodes so that each comes after those that it reads from, and a message for each node
for which there is no place. -/
def schedule (g : Graph) : List NodeId × List Message :=
  let table := g.dependencyTable
  let scheduled := (Schedule.positions table).filterMap fun i => g.order[i]?
  let left := g.order.zipIdx.filter fun e => e.1 ∉ scheduled
  (scheduled, left.map fun e => g.scheduleFault table e.1 e.2)

end VisualScript.Graph
