import VisualScript.Blueprint
import VisualScript.Compile.Properties
import VisualScript.Expand.Timelines
import VisualScript.Schema

/-!
# The shape of the class

The properties that a Blueprint declares, and the flags and metadata of the class.
-/

namespace VisualScript

/-- A class while it is being shaped. -/
structure ClassState where
  cls : Class
  log : MessageLog

namespace ClassState

open PropertyScope

def warning (s : ClassState) (text : String) (tokens : List SourceToken) : ClassState :=
  { s with log := s.log.warning text tokens }

def propertyToken (name : String) : SourceToken := ⟨.property name, name⟩

/-- Adds a property, or reports why it cannot be added to `what`. -/
def addProperty (s : ClassState) (what name : String) (ty : PinType) (flags : PropertyFlags) :
    Bool × ClassState :=
  match addVariable s.cls name ty flags with
  | .ok cls => (true, { s with cls })
  | .error e =>
    let text := s!"Failed to create property for {what}: {e.message}"
    (false, { s with log := s.log.error text [propertyToken name] })

/-! ## Variables -/

/-- Adds what the author says about a variable to its property. -/
def describeVariable (s : ClassState) (v : VariableDescription) : ClassState :=
  let s := { s with cls := s.cls.modifyProperty v.name fun p => { p with
    category := v.category
    repNotify := v.repNotifyFunc
    metadata := v.metadata } }
  match s.cls.findOwnProperty? v.name with
  | none => s
  | some p =>
    if p.metadata.contains MetadataKey.exposeOnSpawn then
      let s := if p.flags.contains PropertyFlags.blueprintVisible then s
        else s.warning s!"Variable {v.name} is exposed on spawn but is not visible to Blueprints"
          [propertyToken v.name]
      { s with cls := s.cls.modifyProperty v.name (·.addFlags PropertyFlags.exposeOnSpawn) }
    else s

def addVariable (s : ClassState) (v : VariableDescription) : ClassState :=
  let flags := if v.repNotifyFunc.isSome then
      .union [v.flags, PropertyFlags.net, PropertyFlags.repNotify]
    else v.flags
  match s.addProperty s!"variable {v.name}" v.name v.ty flags with
  | (true, s) => s.describeVariable v
  | (false, s) => s

/-! ## Timelines -/

/-- The members of a timeline: the component, the direction and the data tracks. -/
def timelineMembers (t : TimelineTemplate) : List (String × PinType) :=
  (t.name, .object timelineComponentClass)
    :: (t.directionPropertyName, .byte)
    :: t.dataTracks.map fun (track, ty) => (t.trackPropertyName track, ty)

def addTimeline (s : ClassState) (t : TimelineTemplate) : ClassState :=
  let flags := if t.replicated then PropertyFlags.blueprintVisible ||| PropertyFlags.net
    else PropertyFlags.blueprintVisible
  (timelineMembers t).foldl
    (fun s (name, ty) => (s.addProperty s!"timeline {t.name}" name ty flags).2) s

/-! ## Components -/

/-- Adds the member and the template of a component. -/
def addComponent (suffix : Bool) (s : ClassState) (c : ComponentNode) : ClassState :=
  let flags := PropertyFlags.blueprintVisible ||| PropertyFlags.blueprintReadOnly
  match s.addProperty s!"component {c.variableName}" c.variableName (.object c.componentClass)
      flags with
  | (false, s) => s
  | (true, s) =>
    let name := if suffix then c.variableName ++ "_GEN_VARIABLE" else c.variableName
    let template : ComponentTemplate := ⟨name, c.componentClass⟩
    { s with cls := { s.cls with
        own.componentTemplates := s.cls.own.componentTemplates ++ [template] } }

/-- Replaces the component templates by those of a construction script. -/
def addConstructionScript (s : ClassState) (suffix : Bool) (script : ConstructionScript) :
    ClassState :=
  let s := { s with cls := { s.cls with own.componentTemplates := [] } }
  let s := script.components.foldl (addComponent suffix) s
  { s with cls := { s.cls with own.constructionScript := some script } }

/-- Adds every member that the Blueprint declares.  Each is linked in front of the others, so
the variables are added from the last. -/
def addMembers (s : ClassState) (b : Blueprint) (suffix : Bool) : ClassState :=
  let s := b.newVariables.reverse.foldl addVariable s
  let s := b.timelines.foldl addTimeline s
  let s := { s with cls := { s.cls with own.timelines := b.timelines } }
  match b.constructionScript with
  | none => s
  | some script => s.addConstructionScript suffix script

/-! ## Flags, interfaces and metadata -/

/-- The flags that the type of the Blueprint gives to its class. -/
def typeFlags : BlueprintType → ClassFlags
  | .const => ClassFlags.const
  | .macroLibrary | .functionLibrary => ClassFlags.abstract ||| ClassFlags.notPlaceable
  | .interface => ClassFlags.interface ||| ClassFlags.abstract
  | .normal | .levelScript => .empty

/-- Adds an interface once; a class that is none is reported. -/
def addInterface (b : Blueprint) (s : ClassState) (interface : Class) : ClassState :=
  if !interface.own.flags.contains ClassFlags.interface then
    s.warning s!"'{interface.name}' is not an interface and was not added to @@" [b.token]
  else if s.cls.interfaces.any (·.name == interface.name) then s
  else { s with cls := { s.cls with interfaces := s.cls.interfaces ++ [interface] } }

/-- The categories in the text of the metadata. -/
def splitCategories (text : String) : List String := (Text.split ' ' text).filter (!·.isEmpty)

/-- Adds the hidden categories to those that are hidden already. -/
def hideCategories (m : Metadata) (categories : List String) : Metadata :=
  if categories.isEmpty then m
  else
    let hidden := splitCategories ((m.get? MetadataKey.hideCategories).getD "")
    let all := categories.foldl (fun all c => if c ∈ all then all else all ++ [c]) hidden
    m.insert MetadataKey.hideCategories (" ".intercalate all)

/-- Settles flags, interfaces and metadata from the parent and the Blueprint. -/
def settleFlags (s : ClassState) (b : Blueprint) : ClassState :=
  let parent := b.parentClass.own
  let flags := .union [s.cls.own.flags, parent.flags &&& ClassFlags.scriptInherit,
    ClassFlags.parsed, ClassFlags.compiledFromBlueprint, typeFlags b.blueprintType]
  let s := { s with cls := { s.cls with own.flags := flags } }
  let s := (b.implementedInterfaces.map (·.interface)).foldl (addInterface b) s
  let metadata := parent.metadata.entries.foldl
    (fun m e => if m.contains e.1 then m else m.insert e.1 e.2) s.cls.own.metadata
  { s with cls := { s.cls with own.metadata := hideCategories metadata b.hideCategories } }

/-! ## Notifications and delegates -/

/-- Whether the function that a property notifies exists and takes nothing. -/
def isNotifiable (c : Class) (function : String) : Bool :=
  (c.findFunction? function).any fun f => f.2.numParms == 0

/-- Clears the notification of a property and reports it. -/
def clearRepNotify (s : ClassState) (e : String × String) : ClassState :=
  let (property, function) := e
  let s := s.warning
    s!"OnRep function '{function}' for property '{property}' was not found or takes parameters, and was cleared"
    [propertyToken property]
  { s with cls := s.cls.modifyProperty property fun p =>
      { p with repNotify := none, flags := p.flags.without PropertyFlags.repNotify } }

/-- Clears every notification of a function that cannot be notified. -/
def checkRepNotifies (s : ClassState) : ClassState :=
  (s.cls.own.properties.filterMap fun p => do
    let function ← p.repNotify
    if isNotifiable s.cls function then none else some (p.name, function)).foldl clearRepNotify s

/-- Reports the multicast delegates without a signature. -/
def checkDelegates (s : ClassState) : ClassState :=
  (s.cls.own.properties.filter fun p =>
      p.ty.category = .multicastDelegate && p.signatureFunction.isNone).foldl
    (fun s p => s.warning s!"Multicast delegate property {p.name} has no signature function"
      [propertyToken p.name]) s

end ClassState

namespace Blueprint

/-- A fresh class that carries over the templates of the last one, and the last default
object. -/
def freshClass (b : Blueprint) : Class × Option DefaultObject :=
  let c := Class.new b.generatedClassName (some b.parentClass)
  let own := { c.own with generatedBy := some b.name }
  match b.generatedClass with
  | none => ({ c with own }, none)
  | some old =>
    ({ c with own := { own with
        componentTemplates := old.own.componentTemplates
        timelines := old.own.timelines
        constructionScript := old.own.constructionScript } },
      old.own.defaultObject)

end Blueprint

end VisualScript
