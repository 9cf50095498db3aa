import VisualScript.Flags
import VisualScript.Graph.Pin
import VisualScript.Metadata

/-!
# Kinds of nodes

A kind says what a node does, whether it is pure, and with which pins it starts.
-/

namespace VisualScript

/-! ## What kinds carry -/

/-- A member variable of a named class or, without an owner, of the class being compiled. -/
structure VariableReference where
  name : String
  owner : Option String := none
  ty : PinType
  deriving DecidableEq, Inhabited

namespace VariableReference

def selfMember (name : String) (ty : PinType) : VariableReference := ⟨name, none, ty⟩

instance : JsonCodec VariableReference where
  toJson v := .obj [("name", toJson v.name), ("owner", toJson v.owner), ("ty", toJson v.ty)]
  ofJson? j := do
    let m ← j.record? ["name", "owner", "ty"]
    return ⟨← Json.field m "name", ← Json.optional m "owner", ← Json.field m "ty"⟩

end VariableReference

/-- A variable of one function, declared on its entry. -/
structure LocalVariable where
  name : String
  ty : PinType
  defaultValue : String := ""
  deriving DecidableEq, Inhabited

instance : JsonCodec LocalVariable where
  toJson v := .obj [
    ("name", toJson v.name), ("ty", toJson v.ty), ("default_value", toJson v.defaultValue)]
  ofJson? j := do
    let m ← j.record? ["name", "ty", "default_value"]
    return ⟨← Json.field m "name", ← Json.field m "ty", ← Json.fieldOr m "default_value" ""⟩

structure EntryData where
  /-- Flags that the author asks for beside the generated ones. -/
  extraFlags : FunctionFlags := .empty
  /-- A function name other than the name of the graph. -/
  customName : Option String := none
  localVariables : List LocalVariable := []
  metadata : Metadata := .empty
  deriving DecidableEq, Inhabited

instance : JsonCodec EntryData where
  toJson e := .obj [
    ("extra_flags", toJson e.extraFlags),
    ("custom_name", toJson e.customName),
    ("local_variables", toJson e.localVariables),
    ("metadata", toJson e.metadata)]
  ofJson? j := do
    let m ← j.record? ["extra_flags", "custom_name", "local_variables", "metadata"]
    return {
      extraFlags := ← Json.fieldOr m "extra_flags" .empty
      customName := ← Json.optional m "custom_name"
      localVariables := ← Json.fieldOr m "local_variables" []
      metadata := ← Json.fieldOr m "metadata" .empty }

structure EventData where
  /-- The function that the event implements. -/
  function : String
  /-- The class or interface that declares an overridden function. -/
  overrideOf : Option String := none
  /-- Whether the compiler made the event. -/
  isInternal : Bool := false
  functionFlags : FunctionFlags := .empty
  deriving DecidableEq, Inhabited

namespace EventData

def custom (function : String) : EventData := { function }

def overriding (function owner : String) : EventData := { function, overrideOf := some owner }

def isOverride (e : EventData) : Bool := e.overrideOf.isSome

instance : JsonCodec EventData where
  toJson e := .obj [
    ("function", toJson e.function),
    ("override_of", toJson e.overrideOf),
    ("internal", toJson e.isInternal),
    ("function_flags", toJson e.functionFlags)]
  ofJson? j := do
    let m ← j.record? ["function", "override_of", "internal", "function_flags"]
    return {
      function := ← Json.field m "function"
      overrideOf := ← Json.optional m "override_of"
      isInternal := ← Json.fieldOr m "internal" false
      functionFlags := ← Json.fieldOr m "function_flags" .empty }

end EventData

structure CallData where
  function : String
  /-- The class that declares the function, if it is not the class being compiled. -/
  owner : Option String := none
  isPure : Bool := false
  /-- A library function, which is not called on an object. -/
  isStatic : Bool := false
  deriving DecidableEq, Inhabited

namespace CallData

def selfCall (function : String) : CallData := { function }

def external (function owner : String) (isPure : Bool) : CallData :=
  { function, owner := some owner, isPure }

/-- A static function of a function library. -/
def library (function owner : String) (isPure : Bool) : CallData :=
  { external function owner isPure with isStatic := true }

instance : JsonCodec CallData where
  toJson c := .obj [
    ("function", toJson c.function),
    ("owner", toJson c.owner),
    ("pure", toJson c.isPure),
    ("is_static", toJson c.isStatic)]
  ofJson? j := do
    let m ← j.record? ["function", "owner", "pure", "is_static"]
    return {
      function := ← Json.field m "function"
      owner := ← Json.optional m "owner"
      isPure := ← Json.fieldOr m "pure" false
      isStatic := ← Json.fieldOr m "is_static" false }

end CallData

structure MacroData where
  /-- The name of the graph that the instance stands for. -/
  macroGraph : String
  /-- The type that wildcard pins of the body take. -/
  resolvedWildcardType : Option PinType := none
  deriving DecidableEq, Inhabited

instance : JsonCodec MacroData where
  toJson d := .obj [
    ("macro_graph", toJson d.macroGraph),
    ("resolved_wildcard_type", toJson d.resolvedWildcardType)]
  ofJson? j := do
    let m ← j.record? ["macro_graph", "resolved_wildcard_type"]
    return ⟨← Json.field m "macro_graph", ← Json.optional m "resolved_wildcard_type"⟩

/-! ## Kinds -/

inductive NodeKind
  | functionEntry (data : EntryData)
  | functionResult
  | event (data : EventData)
  | callFunction (data : CallData)
  | variableGet (var : VariableReference)
  /-- Without a variable, every data input is assigned to the member of its name. -/
  | variableSet (var : Option VariableReference)
  | temporaryVariable (ty : PinType)
  | branch
  | knot (ty : PinType)
  | makeArray (element : PinType) (count : Nat)
  | macroInstance (data : MacroData)
  /-- A boundary of a macro body; the entry has the inputs of the macro as outputs. -/
  | tunnel (entry : Bool)
  | timeline (timeline : String)
  | comment (text : String)
  deriving DecidableEq, Inhabited

/-- A kind without what it carries. -/
inductive NodeTag
  | functionEntry
  | functionResult
  | event
  | callFunction
  | variableGet
  | variableSet
  | temporaryVariable
  | branch
  | knot
  | makeArray
  | macroInstance
  | tunnel
  | timeline
  | comment
  deriving DecidableEq, Inhabited

namespace NodeTag

def all : List NodeTag :=
  [functionEntry, functionResult, event, callFunction, variableGet, variableSet,
    temporaryVariable, branch, knot, makeArray, macroInstance, tunnel, timeline, comment]

def name : NodeTag → String
  | functionEntry => "FunctionEntry"
  | functionResult => "FunctionResult"
  | event => "Event"
  | callFunction => "CallFunction"
  | variableGet => "VariableGet"
  | variableSet => "VariableSet"
  | temporaryVariable => "TemporaryVariable"
  | branch => "Branch"
  | knot => "Knot"
  | makeArray => "MakeArray"
  | macroInstance => "MacroInstance"
  | tunnel => "Tunnel"
  | timeline => "Timeline"
  | comment => "Comment"

instance : JsonCodec NodeTag := ⟨fun t => .str t.name, Json.named? all name⟩

end NodeTag

namespace NodeKind

def tag : NodeKind → NodeTag
  | functionEntry _ => .functionEntry
  | functionResult => .functionResult
  | event _ => .event
  | callFunction _ => .callFunction
  | variableGet _ => .variableGet
  | variableSet _ => .variableSet
  | temporaryVariable _ => .temporaryVariable
  | branch => .branch
  | knot _ => .knot
  | makeArray _ _ => .makeArray
  | macroInstance _ => .macroInstance
  | tunnel _ => .tunnel
  | timeline _ => .timeline
  | comment _ => .comment

/-- Pure nodes have no effect and are evaluated anew at every use. -/
def isPure : NodeKind → Bool
  | callFunction call => call.isPure
  | variableGet _ | makeArray _ _ | comment _ | temporaryVariable _ | knot _ => true
  | _ => false

def isEntry (k : NodeKind) : Bool := k.tag = .functionEntry

def isEvent (k : NodeKind) : Bool := k.tag = .event

def isComment (k : NodeKind) : Bool := k.tag = .comment

def isTunnel (k : NodeKind) : Bool := k.tag = .tunnel

def isMacroInstance (k : NodeKind) : Bool := k.tag = .macroInstance

/-- The title in messages. -/
def title : NodeKind → String
  | functionEntry entry => match entry.customName with
    | some name => "Entry " ++ name
    | none => "Function Entry"
  | functionResult => "Return Node"
  | event e => "Event " ++ e.function
  | callFunction call => "Call " ++ call.function
  | variableGet var => "Get " ++ var.name
  | variableSet (some var) => "Set " ++ var.name
  | variableSet none => "Assign Members"
  | temporaryVariable ty => "Local " ++ ty.label
  | branch => "Branch"
  | knot _ => "Reroute"
  | makeArray _ _ => "Make Array"
  | macroInstance data => "Macro " ++ data.macroGraph
  | tunnel true => "Inputs"
  | tunnel false => "Outputs"
  | timeline name => "Timeline " ++ name
  | comment text => "Comment '" ++ text ++ "'"

/-! ## Starting pins -/

/-- The inputs that control a timeline, each of them a method of the timeline component. -/
def timelineControls : List String :=
  ["Play", "PlayFromStart", "Stop", "Reverse", "ReverseFromEnd", "SetNewTime"]

def execIn (name : String) : Direction × PinDescription := (.input, { name, ty := .exec })

def execOut (name : String) : Direction × PinDescription := (.output, { name, ty := .exec })

/-- The pins that every node of the kind starts with.  Parameters, tracks and the pins of
tunnels are added by the author. -/
def startingPins : NodeKind → List (Direction × PinDescription)
  | functionEntry _ | event _ => [execOut PinName.thenOut]
  | functionResult => [execIn PinName.execute]
  | callFunction call =>
    (if call.isPure then [] else [execIn PinName.execute, execOut PinName.thenOut])
      ++ if call.isStatic then [] else [(.input, { name := PinName.self, ty := .selfObject })]
  | variableGet var => [(.output, { name := var.name, ty := var.ty })]
  | variableSet var =>
    [execIn PinName.execute, execOut PinName.thenOut]
      ++ match var with
        | some var => [(.input, { name := var.name, ty := var.ty })]
        | none => []
  | temporaryVariable ty => [(.output, { name := PinName.localVariable, ty })]
  | branch => [
      execIn PinName.execute,
      (.input, { name := PinName.condition, ty := .boolean, defaultValue := "true" }),
      execOut PinName.thenOut,
      execOut PinName.elseOut]
  | knot ty => [
      (.input, { name := PinName.knotInput, ty }), (.output, { name := PinName.knotOutput, ty })]
  | makeArray element count =>
    ((List.range count).map fun i =>
        (Direction.input, { name := "[" ++ toString i ++ "]", ty := element }))
      ++ [(.output, { name := PinName.array, ty := element.arrayOf })]
  | timeline _ =>
    timelineControls.map execIn
      ++ [(.input, { name := PinName.newTime, ty := .float, defaultValue := "0.0" }),
        execOut PinName.update,
        execOut PinName.finished,
        (.output, { name := PinName.direction, ty := .byte })]
  | macroInstance _ | tunnel _ | comment _ => []

/-! ## Documents -/

/-- The document of a kind that carries nothing is its name. -/
def document : NodeKind → Json
  | functionEntry data => .tagged "FunctionEntry" (toJson data)
  | functionResult => .str "FunctionResult"
  | event data => .tagged "Event" (toJson data)
  | callFunction data => .tagged "CallFunction" (toJson data)
  | variableGet var => .tagged "VariableGet" (toJson var)
  | variableSet var => .tagged "VariableSet" (toJson var)
  | temporaryVariable ty => .tagged "TemporaryVariable" (toJson ty)
  | branch => .str "Branch"
  | knot ty => .tagged "Knot" (toJson ty)
  | makeArray element count =>
    .tagged "MakeArray" (.obj [("element", toJson element), ("count", toJson count)])
  | macroInstance data => .tagged "MacroInstance" (toJson data)
  | tunnel entry => .tagged "Tunnel" (.obj [("entry", toJson entry)])
  | timeline name => .tagged "Timeline" (.obj [("timeline", toJson name)])
  | comment text => .tagged "Comment" (.obj [("text", toJson text)])

/-- Reads a kind that carries nothing. -/
def ofBare? : String → Option NodeKind
  | "FunctionResult" => some functionResult
  | "Branch" => some branch
  | _ => none

/-- Reads a kind from its name and payload. -/
def ofPayload? (tag : String) (j : Json) : Option NodeKind :=
  match tag with
  | "FunctionEntry" => (ofJson? j).map functionEntry
  | "Event" => (ofJson? j).map event
  | "CallFunction" => (ofJson? j).map callFunction
  | "VariableGet" => (ofJson? j).map variableGet
  | "VariableSet" => (ofJson? j).map variableSet
  | "TemporaryVariable" => (ofJson? j).map temporaryVariable
  | "Knot" => (ofJson? j).map knot
  | "MakeArray" => do
    let m ← j.record? ["element", "count"]
    return makeArray (← Json.field m "element") (← Json.field m "count")
  | "MacroInstance" => (ofJson? j).map macroInstance
  | "Tunnel" => do
    let m ← j.record? ["entry"]
    return tunnel (← Json.field m "entry")
  | "Timeline" => do
    let m ← j.record? ["timeline"]
    return timeline (← Json.field m "timeline")
  | "Comment" => do
    let m ← j.record? ["text"]
    return comment (← Json.field m "text")
  | _ => none

instance : JsonCodec NodeKind where
  toJson := document
  ofJson? j := match j.variant? with
    | some (tag, none) => ofBare? tag
    | some (tag, some payload) => match payload, ofBare? tag with
      | .null, some kind => some kind
      | _, _ => ofPayload? tag payload
    | none => none

end NodeKind

end VisualScript
