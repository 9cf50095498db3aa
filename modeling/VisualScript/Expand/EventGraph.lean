import VisualScript.Blueprint
import VisualScript.Compile.NetName
import VisualScript.Expand.SpawnGrid
import VisualScript.Graph.Fragment
import VisualScript.Schema

/-!
# The consolidated event graph

The pages of events become one graph, which compiles to one function that takes
the index of the statement to start at.  Every event gets a stub, a function
that stores the parameters of the event on the class and calls that function.
-/

namespace VisualScript

/-! ## Merging the pages -/

/-- Adds a page and lays it out when the graph is kept for inspection. -/
def mergePage (keep : Bool) (s : Graph × SpawnGrid × MessageLog) (page : Graph) :
    Graph × SpawnGrid × MessageLog :=
  let (g, grid, log) := s
  let (r, g) := g.mergeFragment page
  let log := log.addRemapped g page r
  if keep then
    let merged := (r.nodes.map (·.2)).mergeSort fun a b => a.index ≤ b.index
    let (_, grid, g) := grid.placeSection g merged ("Page: " ++ page.name)
    (g, grid, log)
  else (g, grid, log)

/-- The graph of all pages under an entry with the parameter `EntryPoint`, which comes first. -/
def mergePages (pages : List Graph) (name : String) (log : MessageLog) (keep : Bool) :
    NodeId × Graph × MessageLog :=
  let (g, _, log) := pages.foldl (mergePage keep) (.empty name, {}, log)
  let (entry, g) := g.spawnIntermediate (.functionEntry { customName := some name })
  let (g, log) := match g.addPin entry .output { name := PinName.entryPoint, ty := .int } with
    | .ok (_, g) => (g, log)
    | .error e => (g, log.error s!"Failed to create the entry point of @@: {e.message}" [g.token])
  (entry, g.setOrder [entry], log)

/-! ## Events of interfaces -/

/-- Whether the graph has an event of that function. -/
def Graph.hasEvent (g : Graph) (function : String) : Bool :=
  g.liveNodes.any fun n => match n.kind with
    | .event e => e.function == function
    | _ => false

/-- Adds an override event with a pin for each parameter. -/
def spawnOverride (g : Graph) (interface : Class) (f : Function) (log : MessageLog) :
    NodeId × Graph × MessageLog :=
  let (event, g) := g.spawnIntermediate (.event (.overriding f.name interface.name))
  let (g, log) := f.parameters.foldl
    (fun (g, log) p => match g.addPin event .output { name := p.name, ty := p.ty } with
      | .ok (_, g) => (g, log)
      | .error e => (g, log.error s!"Failed to add parameter '{p.name}' to @@: {e.message}"
          [g.nodeToken event]))
    (g, log)
  (event, g, log)

/-- Adds an event for every interface function without outputs that has neither a graph nor an
event, and returns the events. -/
def spawnMissingEvents (g : Graph) (interfaces : List ImplementedInterface) (log : MessageLog) :
    List NodeId × Graph × MessageLog :=
  let functions := interfaces.flatMap fun i =>
    if i.interface.own.flags.contains ClassFlags.interface then
      (i.interface.hierarchy.flatMap (·.own.functions)).map (i, ·)
    else []
  functions.foldl
    (fun (spawned, g, log) (i, f) =>
      if f.hasOutputs || i.graphs.any (·.name == f.name) || g.hasEvent f.name then
        (spawned, g, log)
      else
        let (event, g, log) := spawnOverride g i.interface f log
        (spawned ++ [event], g, log))
    ([], g, log)

/-! ## Stubs -/

/-- The function of an event. -/
structure EventStub where
  graph : Graph
  entry : NodeId
  /-- The call of the event graph, whose `EntryPoint` is set once it is known. -/
  call : NodeId
  hasParams : Bool

/-- A parameter of an event with the pin of the event that it comes from. -/
structure EventParameter where
  pin : PinId
  name : String
  ty : PinType

namespace EventStub

def parametersOf (g : Graph) (event : NodeId) : List EventParameter :=
  (g.filteredPins event .output false).filterMap fun p =>
    (g.pin? p).map fun pin => ⟨p, pin.name, pin.ty⟩

/-- Whether an event still has the parameters of the function that it overrides.  A function
that is not there is no reason to doubt it. -/
def signatureMatches (c : Class) (data : EventData) (params : List EventParameter) : Bool :=
  match (c.findFunction? data.function).or (c.findInterfaceFunction? data.function) with
  | none => true
  | some (_, f) =>
    let expected := f.parameters.filter fun p => !p.flags.contains PropertyFlags.returnParm
    expected.map (fun p => (p.name, p.ty)) == params.map (fun p => (p.name, p.ty))

/-- The names under which the class stores the parameters. -/
def storageNames (names : NetNameMap) (ubergraph : Graph) (params : List EventParameter) :
    List (EventParameter × String) × NetNameMap :=
  params.foldl
    (fun (named, names) p =>
      let (name, names) := names.nameOf ubergraph p.pin
      (named ++ [(p, name)], names))
    ([], names)

/-- Adds a parameter to the entry and links it to the member that stores it. -/
def storeParameter (entry assign : NodeId) (g : Graph) (p : EventParameter × String) :
    Except CompileError Graph := do
  let (param, g) ← g.addPin entry .output { name := p.1.name, ty := p.1.ty }
  let (input, g) ← g.addPin assign .input { name := p.2, ty := p.1.ty }
  g.makeLink param input

/-- Links the entry to the assignment of the parameters, if there are any, and on to the call. -/
def wire (g : Graph) (entry call : NodeId) (params : List (EventParameter × String)) :
    Except CompileError Graph := do
  let (_, g) ← g.addPin call .input
    { name := PinName.entryPoint, ty := .int, defaultValue := "0" }
  if params.isEmpty then g.connect entry PinName.thenOut call PinName.execute
  else
    let (assign, g) := g.spawnIntermediate (.variableSet none)
    let g := g.setPosition assign SpawnGrid.nodeWidth 0
    let g ← params.foldlM (storeParameter entry assign) g
    let g ← g.connect entry PinName.thenOut assign PinName.execute
    g.connect assign PinName.thenOut call PinName.execute

/-- Records that every node of a stub comes from its event. -/
def recordSources (log : MessageLog) (stub : Graph) (event : ObjectRef) : MessageLog :=
  stub.order.foldl (fun log id => log.addSource (stub.nodeRef id) event) log

/-- The stub of an event of the consolidated graph.  An override event that no longer matches
the overridden function has none. -/
def build (ubergraph : Graph) (event : NodeId) (schema : Schema) (parent : Class)
    (names : NetNameMap) (log : MessageLog) : Option EventStub × NetNameMap × MessageLog :=
  match ubergraph.kind? event with
  | some (.event data) =>
    let params := parametersOf ubergraph event
    if data.isOverride && !signatureMatches parent data params then
      (none, names, log.error "Event node @@ is out-of-date. Please refresh it."
        [ubergraph.nodeToken event])
    else
      let (entry, g) := (Graph.empty data.function).spawnIntermediate (.functionEntry
        { extraFlags := data.functionFlags, customName := some data.function })
      let (call, g) := g.spawnIntermediate
        (.callFunction (.selfCall schema.ubergraphFunctionName))
      let g := g.setPosition call (2 * SpawnGrid.nodeWidth) 0
      let (named, names) := storageNames names ubergraph params
      match wire g entry call named with
      | .error e =>
        (none, names, log.error s!"Failed to build the function stub for @@: {e.message}"
          [ubergraph.nodeToken event])
      | .ok g =>
        (some { graph := g, entry, call, hasParams := !params.isEmpty }, names,
          recordSources log g (ubergraph.nodeRef event))
  | _ => (none, names, log)

end EventStub

end VisualScript
