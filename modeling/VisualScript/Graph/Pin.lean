import VisualScript.Graph.Id
import VisualScript.Graph.PinType

/-!
# Pins
-/

namespace VisualScript

/-! ## Well-known names -/

namespace PinName

def execute : String := "execute"
def thenOut : String := "then"
def elseOut : String := "else"
def self : String := "self"
def condition : String := "Condition"
def returnValue : String := "ReturnValue"
def entryPoint : String := "EntryPoint"
def worldContext : String := "__WorldContext"
def newTime : String := "NewTime"
def update : String := "Update"
def finished : String := "Finished"
def direction : String := "Direction"
def array : String := "Array"
def localVariable : String := "Variable"
def knotInput : String := "InputPin"
def knotOutput : String := "OutputPin"

end PinName

/-- A connection point of a node.  Each of two linked pins lists the other. -/
structure Pin where
  id : PinId
  owner : NodeId
  name : String
  direction : Direction
  ty : PinType
  defaultValue : String := ""
  /-- The object that an object pin without links stands for. -/
  defaultObject : Option String := none
  links : List PinId := []
  deriving DecidableEq, Inhabited, Repr

namespace Pin

def isLinked (p : Pin) : Bool := !p.links.isEmpty

def isExec (p : Pin) : Bool := p.ty.isExec

/-- Whether the pin takes the object that a call is made on. -/
def isSelf (p : Pin) : Bool :=
  p.name == PinName.self && p.direction = .input && p.ty.category = .object

/-- Exec and self pins carry no data of the author. -/
def isMeta (p : Pin) : Bool := p.isExec || p.isSelf

instance : JsonCodec Pin where
  toJson p := .obj [
    ("id", toJson p.id),
    ("owner", toJson p.owner),
    ("name", toJson p.name),
    ("direction", toJson p.direction),
    ("ty", toJson p.ty),
    ("default_value", toJson p.defaultValue),
    ("default_object", toJson p.defaultObject),
    ("links", toJson p.links)]
  ofJson? j := do
    let m ← j.record? ["id", "owner", "name", "direction", "ty", "default_value",
      "default_object", "links"]
    return {
      id := ← Json.field m "id"
      owner := ← Json.field m "owner"
      name := ← Json.field m "name"
      direction := ← Json.field m "direction"
      ty := ← Json.field m "ty"
      defaultValue := ← Json.fieldOr m "default_value" ""
      defaultObject := ← Json.optional m "default_object"
      links := ← Json.fieldOr m "links" [] }

end Pin

end VisualScript
