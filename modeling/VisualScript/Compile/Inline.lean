import VisualScript.Compile.Context

/-!
# Inlining pure nodes

A pure node is evaluated anew for every node that reads it, so its code is copied
in front of the code of each impure node that needs it, and the pure node leaves
the execution list.
-/

namespace VisualScript

namespace Inline

/-- Where a node stands in the schedule; the last place counts. -/
def placeIn (schedule : List NodeId) (n : NodeId) : Nat :=
  ((schedule.zipIdx.filter fun e => e.1 = n).getLast?.map (·.2)).getD schedule.length

/-- Puts a node into a list that is in the order of the schedule. -/
def insertInOrder (schedule : List NodeId) (n : NodeId) (list : List NodeId) : List NodeId :=
  if n ∈ list then list
  else
    let before := fun m => decide (placeIn schedule m ≤ placeIn schedule n)
    list.takeWhile before ++ n :: list.dropWhile before

/-- The state of the walk along the execution list. -/
structure State where
  ctx : FunctionContext
  /-- The pure nodes that a node needs, in the order of the schedule. -/
  needed : List (NodeId × List NodeId) := []
  /-- The impure nodes so far. -/
  kept : List NodeId := []

/-- Copies the code of the pure nodes that an impure node needs. -/
def finish (s : State) (n : NodeId) : State :=
  { s with
    ctx := ((s.needed.lookup n).getD []).reverse.foldl (fun c p => c.prependStatements n p) s.ctx
    kept := s.kept ++ [n] }

/-- Makes every reader of a pure node need it and what it needs. -/
def propagate (schedule : List NodeId) (s : State) (n : NodeId) : State :=
  let antecedents := s.needed.lookup n
  if antecedents.isSome || s.ctx.generatedCode n then
    let g := s.ctx.graph
    let readers := (g.filteredPins n .output false).flatMap g.linkedNodes
    { s with
      needed := readers.foldl
        (fun needed reader => Assoc.update reader []
          (fun list => (n :: antecedents.getD []).foldl
            (fun list p => insertInOrder schedule p list) list)
          needed)
        s.needed }
  else s

def step (schedule : List NodeId) (s : State) (n : NodeId) : State :=
  if s.ctx.graph.isPure n then propagate schedule s n else finish s n

end Inline

namespace FunctionContext

/-- Moves the code of pure nodes into the nodes that need it. -/
def inlinePureNodes (c : FunctionContext) : FunctionContext :=
  let s := c.executionList.foldl (Inline.step c.executionList) { ctx := c }
  { s.ctx with executionList := s.kept }

end FunctionContext

end VisualScript
