import VisualScript.Compile.Environment
import VisualScript.Compile.Properties
import VisualScript.Compile.Prune
import VisualScript.Compile.Schedule
import VisualScript.Compile.Validate

/-!
# Preparing a function

The graph is checked, pruned and simplified, the function is added to the class,
and the nodes are scheduled and register what they read and write.
-/

namespace VisualScript.FunctionState

/-! ## The entry -/

/-- The only entry of the graph. -/
def findEntry (s : FunctionState) : Except Message NodeId :=
  match s.graph.nodesWhere (·.isEntry) with
  | [entry] => .ok entry
  | [] => .error (.error "Could not find a root node for the graph @@" [s.graph.token])
  | first :: second :: _ => .error (.error
      "Expected only one function entry node in graph @@, but found both @@ and @@"
      [s.graph.token, s.graph.nodeToken first, s.graph.nodeToken second])

/-- The entry, the events and the timelines: where something begins. -/
def roots (g : Graph) (entry : NodeId) : List NodeId :=
  entry :: g.nodesWhere fun
    | .event _ | .timeline _ => true
    | _ => false

/-! ## Before scheduling -/

/-- What is wrong with a call of another class that has no object to be made on. -/
def selfFault? (s : FunctionState) (n : NodeId) : Option Message := do
  let .callFunction call ← s.graph.kind? n | none
  let owner ← call.owner
  if s.cls.isChildOf owner || s.cls.implementsInterface owner then none
  else
    let p ← s.graph.selfPin? n
    if (s.graph.linksOf p).isEmpty then
      some (.error
        s!"This blueprint (self) is not a {owner}, therefore @@ must have a connection"
        [s.graph.pinToken p])
    else none

/-- Lets every node expand into the graph around it. -/
def transformNodes (env : CompileEnv) (s : FunctionState) : FunctionState :=
  s.graph.order.foldl
    (fun s n => match s.graph.kind? n with
      | some kind => if env.handles kind then kind.transform s n else s
      | none => s) s

/-- Removes the world context from the entry when nothing uses it. -/
def dropUnusedWorldContext (env : CompileEnv) (entry : NodeId) (g : Graph) : Graph :=
  if env.blueprintType = .functionLibrary then g
  else match g.findPin? entry PinName.worldContext (some .output) with
    | some p => if (g.linksOf p).isEmpty then g.removePin p else g
    | none => g

/-! ## The function -/

def entryData (g : Graph) (entry : NodeId) : EntryData :=
  match g.kind? entry with
  | some (.functionEntry data) => data
  | _ => {}

/-- The flags of a function before anything is inherited. -/
def ownFlags (ctx : FunctionContext) : FunctionFlags :=
  let base :=
    if ctx.isEventGraph then FunctionFlags.final
    else if ctx.isDelegateSignature then FunctionFlags.delegate ||| FunctionFlags.multicastDelegate
    else if ctx.flags.isInternal then .empty
    else FunctionFlags.publicAccess ||| FunctionFlags.blueprintCallable
  if ctx.stub.isSome then base ||| FunctionFlags.event else base

/-- Takes over what an override inherits; the access is that of the overridden function. -/
def inheritFlags (flags parent : FunctionFlags) : FunctionFlags :=
  flags.without FunctionFlags.accessSpecifiers
    ||| (parent &&& (FunctionFlags.funcInherit ||| FunctionFlags.accessSpecifiers))

/-- Adds the flags of the author, whose access replaces any other. -/
def requestFlags (flags requested : FunctionFlags) : FunctionFlags :=
  (if requested.intersects FunctionFlags.accessSpecifiers then
    flags.without FunctionFlags.accessSpecifiers
  else flags) ||| requested

/-- Why a function cannot be added to the class, if it cannot. -/
def creationFault? (s : FunctionState) (overridden : Option (String × Function)) :
    Option String :=
  let name := s.ctx.functionName
  if (s.cls.findOwnFunction? name).isSome then some s!"Duplicate function named '{name}' found in @@"
  else if (s.cls.findProperty? name).isSome then
    some s!"Function name '{name}' of @@ is already used by a property"
  else match overridden with
    | none => none
    | some (owner, parent) =>
      if !parent.flags.contains FunctionFlags.blueprintEvent then
        some s!"@@ cannot override '{name}' declared in {owner}: it is not a BlueprintImplementableEvent"
      else if s.ctx.stub.isSome && parent.hasOutputs then
        some s!"'{name}' returns values and must be implemented as a function, not as an event (@@)"
      else none

/-- The function as it is first added to the class. -/
def newFunction (ctx : FunctionContext) (data : EntryData) (overridden : Option (String × Function)) :
    Function :=
  let flags := match overridden with
    | some (_, parent) => inheritFlags (ownFlags ctx) parent.flags
    | none => ownFlags ctx
  let flags := requestFlags flags data.extraFlags
  { Function.new ctx.functionName
      (if ctx.flags.constFunction then flags ||| FunctionFlags.const else flags) with
    superFunction := overridden.map fun o => o.1 ++ "::" ++ ctx.functionName }

/-- Adds the function to the class.  Without a result it could not be added and the reason is
reported; else the result is the function that it overrides, if any. -/
def createFunction (s : FunctionState) (entry : NodeId) :
    Option (Option (String × Function)) × FunctionState :=
  let overridden := s.cls.findOverridden? s.ctx.functionName
  let token := s.graph.nodeToken entry
  match creationFault? s overridden with
  | some text => (none, s.error text [token])
  | none =>
    let f := newFunction s.ctx (entryData s.graph entry) overridden
    match s.cls.addFunction f with
    | .error e => (none, s.error s!"Failed to create function for @@: {e.message}" [token])
    | .ok cls => (some overridden, { s with cls, ctx := s.ctx.markAsNetFunction f.flags })

/-! ## Terminals and properties -/

/-- Makes a terminal of a variable that the entry declares. -/
def addUserLocal (entry : NodeId) (s : FunctionState) (v : LocalVariable) : FunctionState :=
  let (t, ctx) := s.ctx.addTerm .userLocal v.name v.ty (some (s.graph.nodeToken entry))
  { s with ctx := ctx.modifyTerm t fun term => { term with defaultValue := v.defaultValue } }

/-- Lets every scheduled node register what it reads and writes. -/
def registerNodes (env : CompileEnv) (s : FunctionState) : FunctionState :=
  s.ctx.executionList.foldl
    (fun s n => match s.graph.kind? n with
      | some kind => if env.handles kind then kind.register s n else s
      | none => s) s

/-- Makes the frame of the function, parameters first, and the storage on the class. -/
def createProperties (s : FunctionState) : FunctionState :=
  let ctx := s.ctx
  let s := match s.cls.findOwnFunction? ctx.functionName with
    | none => s
    | some f =>
      let p : PropertyState Function := ⟨f, ctx, s.log⟩
      let p := p.addTerms ctx.parameters PropertyFlags.parm
      let p := p.addTerms ctx.results PropertyFlags.parm
      let p := p.addTerms (ctx.locals ++ ctx.userLocals) .empty
      { s with
        cls := s.cls.modifyFunction ctx.functionName fun _ => p.scope
        ctx := p.ctx
        log := p.log }
  let p : PropertyState Class := ⟨s.cls, s.ctx, s.log⟩
  let p := p.addTerms ctx.eventGraphLocals .empty
  { s with cls := p.scope, ctx := p.ctx, log := p.log }

/-- Reports a signature other than that of the overridden function. -/
def checkSignature (s : FunctionState) (entry : NodeId) : Option (String × Function) → FunctionState
  | none => s
  | some (owner, parent) => match s.cls.findOwnFunction? s.ctx.functionName with
    | none => s
    | some f =>
      if f.signature = parent.signature then s
      else s.error
        s!"The function signature of @@ does not match the function it overrides in {owner}"
        [s.graph.nodeToken entry]

/-! ## The whole preparation -/

/-- Checks and simplifies the graph under its entry. -/
def simplifyGraph (env : CompileEnv) (s : FunctionState) (entry : NodeId) : FunctionState :=
  let s := { s with ctx.entryPoint := some entry, log := s.graph.validate env.schema s.log }
  let s := { s with
    ctx.graph := (s.graph.pruneIsolated (roots s.graph entry) env.options.saveIntermediateProducts).2 }
  let s := { s with log := s.log.pushAll (s.graph.order.filterMap s.selfFault?) }
  let s := s.transformNodes env
  { s with ctx.graph := dropUnusedWorldContext env entry s.graph }

/-- Schedules the nodes and makes the terminals and properties of the function. -/
def layOut (env : CompileEnv) (s : FunctionState) (entry : NodeId) : FunctionState :=
  let (list, faults) := s.graph.schedule
  let s := { s with ctx.executionList := list, log := s.log.pushAll faults }
  let s := (entryData s.graph entry).localVariables.foldl (addUserLocal entry) s
  (s.registerNodes env).createProperties

/-- Prepares a function for its code. -/
def precompile (env : CompileEnv) (s : FunctionState) : FunctionState :=
  match s.findEntry with
  | .error m => { s with log := s.log.push m.severity m.text m.tokens }.fail
  | .ok entry =>
    let s := s.simplifyGraph env entry
    match s.createFunction entry with
    | (none, s) => s.fail
    | (some overridden, s) => (s.layOut env entry).checkSignature entry overridden

end VisualScript.FunctionState
