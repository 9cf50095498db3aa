import VisualScript.Compile.Jumps
import VisualScript.Compile.Order
import VisualScript.Handler.State

/-!
# Finishing a function

The statements are put in order and the jumps resolved.  Then the function on the
class is linked, and its flags and metadata are settled against the function
that it overrides.
-/

namespace VisualScript

namespace Function

/-- Adds metadata that the function does not have. -/
def inheritMetadata (f : Function) (entries : List (String × String)) : Function :=
  { f with
    metadata := entries.foldl
      (fun m e => if m.contains e.1 then m else m.insert e.1 e.2) f.metadata }

/-- Records the default values of parameters. -/
def recordDefaults (f : Function) (defaults : List (String × String)) : Function :=
  if defaults.isEmpty then f
  else { f with
    flags := f.flags ||| FunctionFlags.hasDefaults
    metadata := f.metadata.insertAll (defaults.map fun d => ("CPP_Default_" ++ d.1, d.2)) }

/-- Marks the world context, which is found by itself and not shown. -/
def hideWorldContext (f : Function) : Function :=
  { f with
    metadata := f.metadata.insertAll
      [(MetadataKey.defaultToSelf, PinName.worldContext),
        (MetadataKey.hidePin, PinName.worldContext)] }

/-- A function that overrides nothing can be executed, and overridden unless it is private. -/
def becomeRoot (f : Function) (isEventGraph : Bool) : Function :=
  let flags := f.flags ||| FunctionFlags.exec
  { f with
    flags :=
      if isEventGraph || flags.contains FunctionFlags.privateAccess then flags
      else flags ||| FunctionFlags.blueprintEvent }

end Function

namespace FunctionState

/-- The default values of the parameters that have one. -/
def parameterDefaults (g : Graph) (entry : NodeId) : List (String × String) :=
  (g.filteredPins entry .output false).filterMap fun p => do
    let pin ← g.pin? p
    if pin.defaultValue.isEmpty then none else some (pin.name, pin.defaultValue)

def entryMetadata (g : Graph) (entry : NodeId) : Metadata :=
  match g.kind? entry with
  | some (.functionEntry data) => data.metadata
  | _ => .empty

def hasWorldContext (g : Graph) (entry : NodeId) : Bool :=
  (g.findPin? entry PinName.worldContext (some .output)).isSome

/-- Links the function and adds what its entry says about it. -/
def describe (g : Graph) (entry : Option NodeId) (f : Function) : Function :=
  let f := f.link
  match entry with
  | none => f
  | some entry =>
    let f := f.recordDefaults (parameterDefaults g entry)
    let f := { f with metadata := f.metadata.insertAll (entryMetadata g entry).entries }
    if hasWorldContext g entry then f.hideWorldContext else f

/-- What is wrong with the access and the network flags of an override. -/
def overrideFaults (f parent : Function) (owner : String) (tokens : List SourceToken) :
    List Message :=
  let access := parent.flags &&& FunctionFlags.accessSpecifiers
  (if !access.isEmpty && f.flags &&& FunctionFlags.accessSpecifiers ≠ access then
    [.error s!"Access specifier of @@ does not match the function it overrides in {owner}" tokens]
  else [])
  ++ if f.flags &&& FunctionFlags.netFuncFlags ≠ parent.flags &&& FunctionFlags.netFuncFlags then
    [.warning
      s!"Replication settings of @@ differ from the function it overrides in {owner}; the inherited settings are used"
      tokens]
  else []

/-- An override takes the network flags of the overridden function. -/
def inheritNetFlags (f parent : Function) : Function :=
  { f with
    flags := f.flags.without FunctionFlags.netFuncFlags
      ||| (parent.flags &&& FunctionFlags.netFuncFlags) }

/-- Settles the function of the context on the class. -/
def finish (s : FunctionState) : FunctionState :=
  let name := s.ctx.functionName
  match s.cls.findOwnFunction? name with
  | none => s
  | some f =>
    let f := describe s.graph s.ctx.entryPoint f
    let (f, faults) := match s.cls.findOverridden? name with
      | none => (f.becomeRoot s.ctx.isEventGraph, [])
      | some (owner, parent) =>
        let f := f.inheritMetadata parent.metadata.entries
        let tokens := (s.ctx.entryPoint.map s.graph.nodeToken).toList
        (inheritNetFlags f parent, overrideFaults f parent owner tokens)
    { s with
      cls := s.cls.modifyFunction name fun _ => f
      ctx := s.ctx.markAsNetFunction f.flags
      log := s.log.pushAll faults }

/-- A function that could not be compiled, and the function of an interface, only returns. -/
def postcompile (s : FunctionState) : FunctionState :=
  let ctx :=
    if s.ctx.failed || s.ctx.flags.interfaceStub then
      { s.ctx with statements := [.ret], nodeLabels := [] }
    else s.ctx.sortForFallThrough.resolveJumps
  { s with ctx }.finish

end FunctionState

end VisualScript
