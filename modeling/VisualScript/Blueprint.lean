import VisualScript.Class.Basic
import VisualScript.Graph.Basic
import VisualScript.Json.Reader
import VisualScript.Json.Writer

/-!
# Blueprints

A Blueprint is what the author makes: variables, timelines, components and
graphs that together describe a class.
-/

namespace VisualScript

inductive BlueprintType
  | normal
  | const
  | macroLibrary
  | interface
  | levelScript
  | functionLibrary
  deriving DecidableEq, Inhabited

namespace BlueprintType

def all : List BlueprintType :=
  [normal, const, macroLibrary, interface, levelScript, functionLibrary]

def name : BlueprintType → String
  | normal => "Normal"
  | const => "Const"
  | macroLibrary => "MacroLibrary"
  | interface => "Interface"
  | levelScript => "LevelScript"
  | functionLibrary => "FunctionLibrary"

def supportsEventGraphs : BlueprintType → Bool
  | normal | levelScript => true
  | _ => false

instance : JsonCodec BlueprintType := ⟨fun t => .str t.name, Json.named? all name⟩

end BlueprintType

/-- A member variable that the author declares. -/
structure VariableDescription where
  name : String
  ty : PinType
  flags : PropertyFlags := .empty
  category : String := ""
  defaultValue : String := ""
  repNotifyFunc : Option String := none
  metadata : Metadata := .empty
  deriving DecidableEq, Inhabited

namespace VariableDescription

/-- A variable that can be seen and edited. -/
def new (name : String) (ty : PinType) : VariableDescription :=
  { name, ty, flags := PropertyFlags.blueprintVisible ||| PropertyFlags.edit }

instance : JsonCodec VariableDescription where
  toJson v := .obj [
    ("name", toJson v.name),
    ("ty", toJson v.ty),
    ("flags", toJson v.flags),
    ("category", toJson v.category),
    ("default_value", toJson v.defaultValue),
    ("rep_notify_func", toJson v.repNotifyFunc),
    ("metadata", toJson v.metadata)]
  ofJson? j := do
    let m ← j.record? ["name", "ty", "flags", "category", "default_value", "rep_notify_func",
      "metadata"]
    return {
      name := ← Json.field m "name"
      ty := ← Json.field m "ty"
      flags := ← Json.fieldOr m "flags" .empty
      category := ← Json.fieldOr m "category" ""
      defaultValue := ← Json.fieldOr m "default_value" ""
      repNotifyFunc := ← Json.optional m "rep_notify_func"
      metadata := ← Json.fieldOr m "metadata" .empty }

end VariableDescription

/-- An interface and the graphs that implement its functions. -/
structure ImplementedInterface where
  interface : Class
  graphs : List Graph := []
  deriving Inhabited

instance : JsonCodec ImplementedInterface where
  toJson i := .obj [("interface", toJson i.interface), ("graphs", toJson i.graphs)]
  ofJson? j := do
    let m ← j.record? ["interface", "graphs"]
    return ⟨← Json.field m "interface", ← Json.fieldOr m "graphs" []⟩

structure Blueprint where
  name : String
  blueprintType : BlueprintType := .normal
  parentClass : Class
  newVariables : List VariableDescription := []
  timelines : List TimelineTemplate := []
  constructionScript : Option ConstructionScript := none
  ubergraphPages : List Graph := []
  functionGraphs : List Graph := []
  delegateSignatureGraphs : List Graph := []
  macroGraphs : List Graph := []
  implementedInterfaces : List ImplementedInterface := []
  hideCategories : List String := []
  /-- The class of the last compile. -/
  generatedClass : Option Class := none
  /-- The expanded graphs of the last compile that kept them. -/
  intermediateGeneratedGraphs : List Graph := []
  deriving Inhabited

namespace Blueprint

instance : JsonCodec Blueprint where
  toJson b := .obj [
    ("name", toJson b.name),
    ("blueprint_type", toJson b.blueprintType),
    ("parent_class", toJson b.parentClass),
    ("new_variables", toJson b.newVariables),
    ("timelines", toJson b.timelines),
    ("construction_script", toJson b.constructionScript),
    ("ubergraph_pages", toJson b.ubergraphPages),
    ("function_graphs", toJson b.functionGraphs),
    ("delegate_signature_graphs", toJson b.delegateSignatureGraphs),
    ("macro_graphs", toJson b.macroGraphs),
    ("implemented_interfaces", toJson b.implementedInterfaces),
    ("hide_categories", toJson b.hideCategories),
    ("generated_class", toJson b.generatedClass),
    ("intermediate_generated_graphs", toJson b.intermediateGeneratedGraphs)]
  ofJson? j := do
    let m ← j.record? ["name", "blueprint_type", "parent_class", "new_variables", "timelines",
      "construction_script", "ubergraph_pages", "function_graphs", "delegate_signature_graphs",
      "macro_graphs", "implemented_interfaces", "hide_categories", "generated_class",
      "intermediate_generated_graphs"]
    return {
      name := ← Json.field m "name"
      blueprintType := ← Json.fieldOr m "blueprint_type" .normal
      parentClass := ← Json.field m "parent_class"
      newVariables := ← Json.fieldOr m "new_variables" []
      timelines := ← Json.fieldOr m "timelines" []
      constructionScript := ← Json.optional m "construction_script"
      ubergraphPages := ← Json.fieldOr m "ubergraph_pages" []
      functionGraphs := ← Json.fieldOr m "function_graphs" []
      delegateSignatureGraphs := ← Json.fieldOr m "delegate_signature_graphs" []
      macroGraphs := ← Json.fieldOr m "macro_graphs" []
      implementedInterfaces := ← Json.fieldOr m "implemented_interfaces" []
      hideCategories := ← Json.fieldOr m "hide_categories" []
      generatedClass := ← Json.optional m "generated_class"
      intermediateGeneratedGraphs := ← Json.fieldOr m "intermediate_generated_graphs" [] }

/-- Reads the text of a document. -/
def ofText? (text : String) : Option Blueprint := (Json.skim? text).bind ofJson?

def text (b : Blueprint) : String := (toJson b).pretty

def new (name : String) (parentClass : Class) : Blueprint := { name, parentClass }

def generatedClassName (b : Blueprint) : String := b.name ++ "_C"

def token (b : Blueprint) : SourceToken := ⟨.blueprint b.name, b.name⟩

def findMacroGraph? (b : Blueprint) (name : String) : Option Graph :=
  b.macroGraphs.find? (·.name == name)

/-- The components of the construction script, parents first. -/
def components (b : Blueprint) : List ComponentNode :=
  (b.constructionScript.map (·.components)).getD []

/-! ## All graphs -/

/-- Every graph of the author. -/
def allGraphs (b : Blueprint) : List Graph :=
  b.ubergraphPages ++ b.functionGraphs ++ b.delegateSignatureGraphs ++ b.macroGraphs
    ++ b.implementedInterfaces.flatMap (·.graphs)

/-- Changes every graph of the author. -/
def mapGraphs (b : Blueprint) (f : Graph → Graph) : Blueprint :=
  { b with
    ubergraphPages := b.ubergraphPages.map f
    functionGraphs := b.functionGraphs.map f
    delegateSignatureGraphs := b.delegateSignatureGraphs.map f
    macroGraphs := b.macroGraphs.map f
    implementedInterfaces :=
      b.implementedInterfaces.map fun i => { i with graphs := i.graphs.map f } }

theorem allGraphs_mapGraphs (b : Blueprint) (f : Graph → Graph) :
    (b.mapGraphs f).allGraphs = b.allGraphs.map f := by
  simp [allGraphs, mapGraphs, List.flatMap_map, List.map_flatMap]

end Blueprint

/-! ## Renaming references -/

namespace NodeKind

/-- Whether the node gets or sets the member of that name of the class being compiled. -/
def refersTo (name : String) : NodeKind → Bool
  | variableGet var | variableSet (some var) => var.owner.isNone && var.name == name
  | _ => false

/-- Gives the variable that a node gets or sets another name. -/
def renameVariable (new : String) : NodeKind → NodeKind
  | variableGet var => variableGet { var with name := new }
  | variableSet (some var) => variableSet (some { var with name := new })
  | kind => kind

/-- Redirects a call of a function of the class being compiled. -/
def renameCall (old new : String) : NodeKind → NodeKind
  | callFunction call =>
    if call.owner.isNone ∧ call.function = old then callFunction { call with function := new }
    else callFunction call
  | kind => kind

def renameTimeline (old new : String) : NodeKind → NodeKind
  | timeline name => timeline (if name = old then new else name)
  | kind => kind

end NodeKind

namespace Graph

/-- Changes the kind of every node of the order. -/
def mapKinds (g : Graph) (f : NodeKind → NodeKind) : Graph :=
  g.order.foldl (fun g id => g.modifyNode id fun n => { n with kind := f n.kind }) g

/-- Renames a variable on one node, and with it the first pin that has its name. -/
def renameVariableAt (old new : String) (g : Graph) (id : NodeId) : Graph :=
  if g.kindIs id (·.refersTo old) then
    let g := g.modifyNode id fun n => { n with kind := n.kind.renameVariable new }
    match g.findPin? id old none with
    | some p => g.modifyPin p fun p => { p with name := new }
    | none => g
  else g

def renameVariable (g : Graph) (old new : String) : Graph :=
  g.order.foldl (renameVariableAt old new) g

/-- Renames a function graph, or the calls in another graph that lead to it. -/
def renameFunction (g : Graph) (old new : String) : Graph :=
  { g.mapKinds (·.renameCall old new) with name := if g.name = old then new else g.name }

def renameTimeline (g : Graph) (old new : String) : Graph := g.mapKinds (·.renameTimeline old new)

end Graph

namespace Blueprint

/-- Whether some graph gets or sets the member of that name. -/
def isVariableUsed (b : Blueprint) (name : String) : Bool :=
  b.allGraphs.any fun g => g.liveNodes.any fun n => n.kind.refersTo name

def renameVariableReferences (b : Blueprint) (old new : String) : Blueprint :=
  b.mapGraphs (·.renameVariable old new)

def renameFunctionReferences (b : Blueprint) (old new : String) : Blueprint :=
  b.mapGraphs (·.renameFunction old new)

def renameTimelineReferences (b : Blueprint) (old new : String) : Blueprint :=
  b.mapGraphs (·.renameTimeline old new)

end Blueprint

end VisualScript
