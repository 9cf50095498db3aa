import VisualScript.Class.Value
import VisualScript.Graph.Basic

/-!
# Schema

The rules on types and names that every stage shares.
-/

namespace VisualScript

/-! ## Metadata keys -/

namespace MetadataKey

def toolTip : String := "ToolTip"
def defaultToSelf : String := "DefaultToSelf"
def hidePin : String := "HidePin"
def hideCategories : String := "HideCategories"
def exposeOnSpawn : String := "ExposeOnSpawn"

end MetadataKey

/-- The schema of the graphs of one Blueprint. -/
structure Schema where
  blueprintName : String
  deriving DecidableEq, Inhabited

namespace Schema

/-! ## Names -/

def className (s : Schema) : String := s.blueprintName ++ "_C"

/-- The function that the consolidated event graph compiles to. -/
def ubergraphFunctionName (s : Schema) : String := "ExecuteUbergraph_" ++ s.blueprintName

def delegateSignatureName (delegate : String) : String := delegate ++ "__DelegateSignature"

/-! ## Types -/

/-- Whether a value of the type `output` may flow into an input of the type `input`. -/
def areTypesCompatible (s : Schema) (output input : PinType) : Bool :=
  if output.isExec || input.isExec then output.isExec && input.isExec
  else if output.isWildcard || input.isWildcard then true
  else if output.isArray != input.isArray || output.category != input.category then false
  else match output.category with
    | .object | .classRef | .interface =>
      output.isSelf || input.isSelf || input.subCategoryObject.isNone
        || output.subCategoryObject == input.subCategoryObject
        || output.subCategoryObject == some s.className
    | .struct | .byte => output.subCategoryObject == input.subCategoryObject
    | _ => true

/-- What is wrong with a text as a default value of the type, if anything is. -/
def defaultValueError? (ty : PinType) (value : String) : Option String :=
  if value.isEmpty || ty.isWildcard || ty.isExec then none
  else match Value.parse? ty value with
    | some _ => none
    | none => some s!"'{value}' is not a valid {ty.label}"

end Schema

namespace Graph

/-- The pin that takes the object of a call. -/
def selfPin? (g : Graph) (id : NodeId) : Option PinId := g.findPin? id PinName.self (some .input)

/-- The nodes behind the exec outputs of a node, in the order of the pins. -/
def execSuccessors (g : Graph) (id : NodeId) : List NodeId :=
  (g.filteredPins id .output true).flatMap g.linkedNodes

/-- The other nodes that feed the data inputs of a node. -/
def dataDependencies (g : Graph) (id : NodeId) : List NodeId :=
  ((g.filteredPins id .input false).flatMap g.linkedNodes).filter (· ≠ id)

end Graph

end VisualScript
