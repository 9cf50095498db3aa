import VisualScript.Assoc
import VisualScript.Graph.Id

/-!
# Message log

Problems in what the author made are messages.  A message names the objects that
it is about by tokens, and every token is traced to its source first: the log
also keeps which object was generated from which, so a message about a generated
node names the node that the author knows.
-/

namespace VisualScript

/-! ## Objects -/

inductive ObjectRef
  | blueprint (name : String)
  | graph (name : String)
  | node (graph : String) (node : NodeId)
  | pin (graph : String) (node : NodeId) (pin : PinId)
  | property (name : String)
  | function (name : String)
  deriving DecidableEq, Inhabited

namespace ObjectRef

/-- A reference as lists of sources show it. -/
def text : ObjectRef → String
  | blueprint name => "Blueprint:" ++ name
  | graph name => "Graph:" ++ name
  | node g n => s!"Node:{g}:{n.index}"
  | pin g n p => s!"Pin:{g}:{n.index}:{p.index}"
  | property name => "Property:" ++ name
  | function name => "Function:" ++ name

instance : JsonCodec ObjectRef where
  toJson
    | blueprint name => .tagged "Blueprint" (.str name)
    | graph name => .tagged "Graph" (.str name)
    | node g n => .tagged "Node" (.obj [("graph", toJson g), ("node", toJson n)])
    | pin g n p => .tagged "Pin" (.obj [("graph", toJson g), ("node", toJson n), ("pin", toJson p)])
    | property name => .tagged "Property" (.str name)
    | function name => .tagged "Function" (.str name)
  ofJson? j := match j.variant? with
    | some ("Blueprint", some p) => p.string?.map blueprint
    | some ("Graph", some p) => p.string?.map graph
    | some ("Node", some p) => do
      let m ← p.record? ["graph", "node"]
      return node (← Json.field m "graph") (← Json.field m "node")
    | some ("Pin", some p) => do
      let m ← p.record? ["graph", "node", "pin"]
      return pin (← Json.field m "graph") (← Json.field m "node") (← Json.field m "pin")
    | some ("Property", some p) => p.string?.map property
    | some ("Function", some p) => p.string?.map function
    | _ => none

end ObjectRef

/-- An object and the label under which a message shows it. -/
structure SourceToken where
  object : ObjectRef
  label : String
  deriving DecidableEq, Inhabited

instance : JsonCodec SourceToken where
  toJson t := .obj [("object", toJson t.object), ("label", toJson t.label)]
  ofJson? j := do
    let m ← j.record? ["object", "label"]
    return ⟨← Json.field m "object", ← Json.field m "label"⟩

/-! ## Messages -/

inductive Severity
  | error
  | warning
  | note
  deriving DecidableEq, Inhabited

namespace Severity

def all : List Severity := [error, warning, note]

def name : Severity → String
  | error => "Error"
  | warning => "Warning"
  | note => "Note"

instance : JsonCodec Severity := ⟨fun s => .str s.name, Json.named? all name⟩

end Severity

structure Message where
  severity : Severity
  text : String
  tokens : List SourceToken
  deriving DecidableEq, Inhabited

instance : JsonCodec Message where
  toJson m := .obj [
    ("severity", toJson m.severity), ("text", toJson m.text), ("tokens", toJson m.tokens)]
  ofJson? j := do
    let m ← j.record? ["severity", "text", "tokens"]
    return ⟨← Json.field m "severity", ← Json.field m "text", ← Json.field m "tokens"⟩

namespace Message

def error (text : String) (tokens : List SourceToken) : Message := ⟨.error, text, tokens⟩

def warning (text : String) (tokens : List SourceToken) : Message := ⟨.warning, text, tokens⟩

end Message

/-- Puts the labels, in order, in the place of the `@@` marks; a mark without a label stays. -/
def fillMarks : List Char → List String → List Char
  | '@' :: '@' :: rest, [] => '@' :: '@' :: fillMarks rest []
  | '@' :: '@' :: rest, label :: labels => label.toList ++ fillMarks rest labels
  | c :: rest, labels => c :: fillMarks rest labels
  | [], _ => []

/-! ## The log -/

structure MessageLog where
  messages : List Message := []
  numErrors : Nat := 0
  numWarnings : Nat := 0
  /-- A generated object and the object that it was made from. -/
  sources : List (ObjectRef × ObjectRef) := []
  /-- A node of an expanded macro body and the node of the macro graph that it copies. -/
  macroSources : List (ObjectRef × ObjectRef) := []
  /-- A node of a macro graph and the instances that copied it. -/
  macroInstances : List (ObjectRef × List ObjectRef) := []
  deriving Inhabited

namespace MessageLog

def empty : MessageLog := {}

/-! ### Sources -/

/-- Records that `new` was generated from `source`. -/
def addSource (log : MessageLog) (new source : ObjectRef) : MessageLog :=
  if new = source then log else { log with sources := Assoc.set new source log.sources }

/-- Follows a table for at most `steps` steps. -/
def follow (table : List (ObjectRef × ObjectRef)) : Nat → ObjectRef → ObjectRef
  | 0, object => object
  | steps + 1, object => match table.lookup object with
    | some next => follow table steps next
    | none => object

/-- The object that the author made, at the end of the chain of sources. -/
def sourceOf (log : MessageLog) (object : ObjectRef) : ObjectRef :=
  follow log.sources (log.sources.length + 1) object

/-- Records that expanding `inst` copied the node `macroSource` of a macro graph to `new`. -/
def addMacroNode (log : MessageLog) (new macroSource inst : ObjectRef) : MessageLog :=
  let log := log.addSource new inst
  { log with
    macroInstances := Assoc.update macroSource [] (fun is => if inst ∈ is then is else is ++ [inst])
      log.macroInstances
    macroSources := Assoc.set new macroSource log.macroSources }

/-- The node of a macro graph that a node was copied from. -/
def macroSourceOf? (log : MessageLog) (object : ObjectRef) : Option ObjectRef :=
  log.macroSources.lookup object

/-- The instances that copied a node of a macro graph. -/
def macroInstancesOf (log : MessageLog) (macroSource : ObjectRef) : List ObjectRef :=
  (log.macroInstances.lookup macroSource).getD []

/-! ### Messages -/

def push (log : MessageLog) (severity : Severity) (text : String) (tokens : List SourceToken) :
    MessageLog :=
  let tokens := tokens.map fun t => { t with object := log.sourceOf t.object }
  let text := String.ofList (fillMarks text.toList (tokens.map (·.label)))
  { log with
    messages := log.messages ++ [⟨severity, text, tokens⟩]
    numErrors := log.numErrors + if severity = .error then 1 else 0
    numWarnings := log.numWarnings + if severity = .warning then 1 else 0 }

def error (log : MessageLog) (text : String) (tokens : List SourceToken) : MessageLog :=
  log.push .error text tokens

def warning (log : MessageLog) (text : String) (tokens : List SourceToken) : MessageLog :=
  log.push .warning text tokens

def note (log : MessageLog) (text : String) (tokens : List SourceToken) : MessageLog :=
  log.push .note text tokens

/-- Adds messages whose tokens are not traced to their sources yet. -/
def pushAll (log : MessageLog) (messages : List Message) : MessageLog :=
  messages.foldl (fun log m => log.push m.severity m.text m.tokens) log

def hasErrors (log : MessageLog) : Bool := 0 < log.numErrors

/-- The messages of one severity. -/
def ofSeverity (log : MessageLog) (severity : Severity) : List Message :=
  log.messages.filter (·.severity = severity)

def errors (log : MessageLog) : List Message := log.ofSeverity .error

def warnings (log : MessageLog) : List Message := log.ofSeverity .warning

/-! ### Documents -/

/-- The messages and how many of them are errors and warnings. -/
def document (log : MessageLog) : Json := .obj [
  ("messages", toJson log.messages),
  ("num_errors", toJson log.numErrors),
  ("num_warnings", toJson log.numWarnings)]

/-- A line for each generated object and its source, in the order of the lines. -/
def sourceLines (log : MessageLog) : List String :=
  (log.sources.map fun e => e.1.text ++ " -> " ++ e.2.text).mergeSort fun a b => !(b < a)

end MessageLog

end VisualScript
