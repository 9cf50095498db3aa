import VisualScript.Handler.Call
import VisualScript.Handler.Entry
import VisualScript.Handler.Flow
import VisualScript.Handler.Variable

/-!
# What each kind of node does in a compile

A node is transformed before scheduling, registers the places that it reads and
writes, and compiles to statements.  Macro instances and tunnels do none of
these: they are gone before, and one that is left is an error.
-/

namespace VisualScript

namespace NodeTag

/-- Whether nodes of the kind can be compiled. -/
def hasHandler : NodeTag → Bool
  | macroInstance | tunnel => false
  | _ => true

/-- The kinds that can be compiled. -/
def handled : List NodeTag := all.filter hasHandler

end NodeTag

namespace NodeKind

/-- Expands the node into the graph around it. -/
def transform (kind : NodeKind) (s : FunctionState) (n : NodeId) : FunctionState :=
  match kind with
  | knot _ => Knot.transform s n
  | _ => s

/-- Registers the terminals of the node. -/
def register (kind : NodeKind) (s : FunctionState) (n : NodeId) : FunctionState :=
  match kind with
  | functionEntry _ => FunctionEntry.register s n
  | functionResult => FunctionResult.register s n
  | event _ => Event.register s n
  | variableGet var => VariableGet.register s n var
  | variableSet var => VariableSet.register s n var
  | temporaryVariable _ => TemporaryVariable.register s n
  | timeline name => TimelineNode.register s n name
  | callFunction _ | branch | makeArray _ _ => s.registerPins n
  | knot _ | comment _ | macroInstance _ | tunnel _ => s

/-- Appends the statements of the node. -/
def compile (kind : NodeKind) (s : FunctionState) (n : NodeId) : FunctionState :=
  match kind with
  | functionEntry _ => FunctionEntry.compile s n
  | functionResult => FunctionResult.compile s n
  | event _ => Event.compile s n
  | callFunction call => CallFunction.compile s n call
  | variableSet var => VariableSet.compile s n var
  | branch => Branch.compile s n
  | makeArray _ _ => MakeArray.compile s n
  | _ => s

end NodeKind

end VisualScript
