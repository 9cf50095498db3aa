import VisualScript.Compile.Environment
import VisualScript.Expand.EventGraph
import VisualScript.Expand.Macros
import VisualScript.Expand.Timelines

/-!
# The functions of a compile

The pages of events become one function and a stub for every event.  Each graph
of a function, of the signature of a delegate and of an interface becomes a
function of its own.
-/

namespace VisualScript

/-- What a compile has made so far. -/
structure Compilation where
  blueprint : Blueprint
  cls : Class
  log : MessageLog := .empty
  /-- The names of the nets that are kept on the class. -/
  classNetNames : NetNameMap := {}
  contexts : List FunctionContext := []
  deriving Inhabited

/-- The name of the function of a graph: the first that an entry asks for, or that of the
graph. -/
def Graph.functionName (g : Graph) : String :=
  (g.liveNodes.findSome? fun n => match n.kind with
    | .functionEntry data => data.customName
    | _ => none).getD g.name

namespace Compilation

def newContext (c : Compilation) (name : String) (g : Graph) : FunctionContext :=
  { FunctionContext.new name g with
    flags.constFunction := c.blueprint.blueprintType = .const }

def addContext (c : Compilation) (ctx : FunctionContext) : Compilation :=
  { c with contexts := c.contexts ++ [ctx] }

/-- Expands the macros in a graph. -/
def expand (env : CompileEnv) (c : Compilation) (g : Graph) : Graph × Compilation :=
  let e := expandMacros g c.blueprint.macroGraphs c.log env.options.saveIntermediateProducts
  (e.graph, { c with log := e.log })

/-! ## The event graph -/

/-- Adds the stub of an event to the contexts. -/
def addStub (env : CompileEnv) (ubergraph : Graph) (c : Compilation) (event : NodeId) :
    Compilation :=
  match ubergraph.kind? event with
  | some (.event data) =>
    let (stub, classNetNames, log) :=
      EventStub.build ubergraph event env.schema c.cls c.classNetNames c.log
    let c := { c with classNetNames, log }
    match stub with
    | none => c
    | some stub =>
      let ctx := c.newContext data.function stub.graph
      c.addContext { ctx with
        stub := some ⟨event, stub.call⟩
        flags.simpleStubNoParams := !stub.hasParams
        flags.isInternal := data.isInternal }
  | _ => c

/-- The graph of all pages with the events and nodes that the compile adds to it. -/
def eventGraph (env : CompileEnv) (c : Compilation) : Graph × Compilation :=
  let b := c.blueprint
  let (_, g, log) := mergePages b.ubergraphPages env.schema.ubergraphFunctionName c.log
    env.options.saveIntermediateProducts
  let (_, g, log) := spawnMissingEvents g b.implementedInterfaces log
  let (g, c) := { c with log }.expand env g
  let (_, g, log) := expandTimelines g b.timelines c.log
  (g, { c with log })

/-- Adds the event graph and after it the stub of every event. -/
def addEventGraph (env : CompileEnv) (c : Compilation) : Compilation :=
  let (g, c) := c.eventGraph env
  let ctx := c.newContext env.schema.ubergraphFunctionName g
  let c := c.addContext { ctx with flags.eventGraph := true }
  (g.nodesWhere (·.isEvent)).foldl (addStub env g) c

/-! ## Other graphs -/

def addFunctionGraph (env : CompileEnv) (c : Compilation) (source : Graph) : Compilation :=
  let (g, c) := c.expand env source
  let ctx := c.newContext g.functionName g
  c.addContext { ctx with flags.interfaceStub := c.blueprint.blueprintType = .interface }

def addDelegateGraph (env : CompileEnv) (c : Compilation) (source : Graph) : Compilation :=
  let (g, c) := c.expand env source
  let ctx := c.newContext (Schema.delegateSignatureName source.name) g
  c.addContext { ctx with delegateSignatureName := some source.name }

def addInterfaceGraph (env : CompileEnv) (c : Compilation) (source : Graph) : Compilation :=
  let (g, c) := c.expand env source
  c.addContext (c.newContext g.functionName g)

/-- Adds a context for every function of the Blueprint. -/
def addFunctions (env : CompileEnv) (c : Compilation) : Compilation :=
  let b := c.blueprint
  let c := if b.blueprintType.supportsEventGraphs && !b.ubergraphPages.isEmpty then
      c.addEventGraph env
    else c
  let c := b.functionGraphs.foldl (addFunctionGraph env) c
  let c := b.delegateSignatureGraphs.foldl (addDelegateGraph env) c
  (b.implementedInterfaces.flatMap (·.graphs)).foldl (addInterfaceGraph env) c

end Compilation

end VisualScript
