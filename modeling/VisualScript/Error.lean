import VisualScript.Graph.Id

/-!
# Errors of the building blocks

These arise when a graph, class or session is asked for something that it cannot
do.  A problem in what the author made goes to the message log instead.
-/

namespace VisualScript

inductive CompileError
  /-- The type of a property has no storage. -/
  | invalidType (name ty : String)
  /-- The owner has a field of that name. -/
  | duplicateField (name owner : String)
  | nodeNotFound (node : NodeId) (graph : String)
  | pinNotFound (pin : PinId) (graph : String)
  | namedPinNotFound (node : NodeId) (pin : String)
  /-- The pins to be linked are both inputs or both outputs. -/
  | sameDirection (a b : String)
  /-- The pins to be linked belong to one node. -/
  | sameOwner (a b : String)
  | reentrantCompile (active requested : String)
  deriving DecidableEq

namespace CompileError

def message : CompileError → String
  | invalidType name ty => s!"type '{ty}' of '{name}' cannot be mapped to a storage type"
  | duplicateField name owner => s!"a field named '{name}' is already linked into '{owner}'"
  | nodeNotFound node graph => s!"node {node.text} does not exist in graph '{graph}'"
  | pinNotFound pin graph => s!"pin {pin.text} does not exist in graph '{graph}'"
  | namedPinNotFound node pin => s!"node {node.text} has no pin named '{pin}'"
  | sameDirection a b => s!"cannot link pins: pins '{a}' and '{b}' have the same direction"
  | sameOwner a b => s!"cannot link pins: pins '{a}' and '{b}' belong to the same node"
  | reentrantCompile active requested =>
    s!"already compiling blueprint '{active}', cannot start compiling '{requested}'"

end CompileError

end VisualScript
