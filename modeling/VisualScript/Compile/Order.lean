import VisualScript.Compile.Context
import VisualScript.Reach
import VisualScript.Schema

/-!
# Ordering nodes for fall-through

Where it can, a node is followed by the node that it runs first, so that most
jumps lead to what comes next anyway.
-/

namespace VisualScript.FunctionContext

/-- The execution list as a walk along exec links visits it, from the entry first and then
from each node that is left. -/
def sortForFallThrough (c : FunctionContext) : FunctionContext :=
  let visited := reach c.graph.execSuccessors c.executionList
    (c.entryPoint.toList ++ c.executionList)
  { c with executionList := visited.reverse }

end VisualScript.FunctionContext
