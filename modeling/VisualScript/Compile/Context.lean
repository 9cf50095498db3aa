import VisualScript.Compile.NetName
import VisualScript.Compile.Terminal

/-!
# Function contexts

The state of one function while it is compiled: the graph, the terminals with
the pins that they belong to, the execution list, and the statements.
-/

namespace VisualScript

structure ContextFlags where
  eventGraph : Bool := false
  interfaceStub : Bool := false
  constFunction : Bool := false
  createDebugData : Bool := true
  /-- Whether other Blueprints cannot call the function. -/
  isInternal : Bool := false
  /-- Whether the function is a stub of an event without parameters. -/
  simpleStubNoParams : Bool := false
  deriving DecidableEq, Inhabited

/-- The event that a stub stands for and the call that the stub makes. -/
structure StubLink where
  sourceEvent : NodeId
  ubergraphCall : NodeId
  deriving DecidableEq, Inhabited

structure FunctionContext where
  functionName : String
  graph : Graph
  flags : ContextFlags := {}
  /-- The delegate whose signature the graph declares. -/
  delegateSignatureName : Option String := none
  netFlags : FunctionFlags := .empty
  stub : Option StubLink := none
  /-- Whether an error in the graph stopped the compilation of the function. -/
  failed : Bool := false
  entryPoint : Option NodeId := none
  executionList : List NodeId := []
  terms : List Terminal := []
  parameters : List TermId := []
  results : List TermId := []
  locals : List TermId := []
  eventGraphLocals : List TermId := []
  variableReferences : List TermId := []
  literals : List TermId := []
  userLocals : List TermId := []
  /-- The terminals of pins. -/
  netMap : List (PinId × TermId) := []
  localNetNames : NetNameMap := {}
  nodeStatements : List (NodeId × List Statement) := []
  /-- The code of the function once the jumps are resolved. -/
  statements : List Statement := []
  /-- Where the code of each node begins. -/
  nodeLabels : List (NodeId × Nat) := []
  deriving Inhabited

namespace FunctionContext

def new (functionName : String) (graph : Graph) : FunctionContext := { functionName, graph }

def isEventGraph (c : FunctionContext) : Bool := c.flags.eventGraph

def isDelegateSignature (c : FunctionContext) : Bool := c.delegateSignatureName.isSome

def markAsNetFunction (c : FunctionContext) (flags : FunctionFlags) : FunctionContext :=
  { c with netFlags := flags &&& FunctionFlags.netFuncFlags }

/-! ## Terminals -/

def term? (c : FunctionContext) (t : TermId) : Option Terminal := c.terms[t.index]?

def modifyTerm (c : FunctionContext) (t : TermId) (f : Terminal → Terminal) : FunctionContext :=
  { c with terms := c.terms.modify t.index f }

/-- Puts a terminal on the list of its kind. -/
def enlist (c : FunctionContext) (t : TermId) : TermKind → FunctionContext
  | .parameter => { c with parameters := c.parameters ++ [t] }
  | .result => { c with results := c.results ++ [t] }
  | .frameLocal => { c with locals := c.locals ++ [t] }
  | .eventGraphLocal => { c with eventGraphLocals := c.eventGraphLocals ++ [t] }
  | .literal => { c with literals := c.literals ++ [t] }
  | .memberReference => { c with variableReferences := c.variableReferences ++ [t] }
  | .userLocal => { c with userLocals := c.userLocals ++ [t] }

def pushTerm (c : FunctionContext) (t : Terminal) : TermId × FunctionContext :=
  let id : TermId := ⟨c.terms.length⟩
  (id, { c with terms := c.terms ++ [t] }.enlist id t.kind)

def addTerm (c : FunctionContext) (kind : TermKind) (name : String) (ty : PinType)
    (source : Option SourceToken) : TermId × FunctionContext :=
  c.pushTerm (.new kind name ty source)

def setNet (c : FunctionContext) (p : PinId) (t : TermId) : FunctionContext :=
  { c with netMap := Assoc.set p t c.netMap }

def net? (c : FunctionContext) (p : PinId) : Option TermId := c.netMap.lookup p

/-- Gives a pin storage in the frame or, in the event graph, on the class. -/
def addLocalForPin (c : FunctionContext) (p : PinId) (name : String) :
    Option TermId × FunctionContext :=
  match c.graph.pin? p with
  | none => (none, c)
  | some pin =>
    let kind : TermKind := if c.isEventGraph then .eventGraphLocal else .frameLocal
    let (t, c) := c.addTerm kind name pin.ty (some (c.graph.pinToken p))
    (some t, c.setNet p t)

/-- Makes a literal of what a pin stands for without links. -/
def addLiteral (c : FunctionContext) (p : PinId) : Option TermId × FunctionContext :=
  match c.graph.pin? p with
  | none => (none, c)
  | some pin =>
    let term := { Terminal.new .literal pin.defaultValue pin.ty (some (c.graph.pinToken p)) with
      defaultValue := pin.defaultValue
      defaultObject := pin.defaultObject }
    let (t, c) := c.pushTerm term
    (some t, c.setNet p t)

/-- The first of the terminals that has the name. -/
def findNamed? (c : FunctionContext) (name : String) (ts : List TermId) : Option TermId :=
  ts.find? fun t => (c.term? t).any (·.name == name)

/-- The terminal of a local variable or member, made on first use. -/
def variableTerm (c : FunctionContext) (name : String) (ty : PinType)
    (source : Option SourceToken) : TermId × FunctionContext :=
  match c.findNamed? name (c.userLocals ++ c.variableReferences) with
  | some t => (t, c)
  | none => c.addTerm .memberReference name ty source

def findResult? (c : FunctionContext) (name : String) : Option TermId :=
  c.findNamed? name c.results

/-- The terminal whose value an input takes: that of the first pin linked to it, or its own. -/
def inputTerm? (c : FunctionContext) (p : PinId) : Option TermId := do
  let pin ← c.graph.pin? p
  c.net? (pin.links.head?.getD p)

/-! ## Statements -/

def statementsOf (c : FunctionContext) (n : NodeId) : List Statement :=
  (c.nodeStatements.lookup n).getD []

def append (c : FunctionContext) (n : NodeId) (s : Statement) : FunctionContext :=
  { c with nodeStatements := Assoc.update n [] (· ++ [s]) c.nodeStatements }

/-- Whether the node has a statement other than marks. -/
def generatedCode (c : FunctionContext) (n : NodeId) : Bool :=
  (c.statementsOf n).any (!·.isMarker)

/-- Puts a copy of the statements of `source` in front of those of `dest`. -/
def prependStatements (c : FunctionContext) (dest source : NodeId) : FunctionContext :=
  match c.nodeStatements.lookup source with
  | none => c
  | some code => { c with nodeStatements := Assoc.update dest [] (code ++ ·) c.nodeStatements }

end FunctionContext

end VisualScript
