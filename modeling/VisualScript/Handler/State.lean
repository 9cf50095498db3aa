import VisualScript.Class.Basic
import VisualScript.Compile.Context

/-!
# The state of a function under compilation

Beside the context of the function the passes share the log, the class and the
names of the nets that are kept on the class.
-/

namespace VisualScript

structure FunctionState where
  ctx : FunctionContext
  log : MessageLog
  cls : Class
  classNetNames : NetNameMap
  deriving Inhabited

namespace FunctionState

abbrev graph (s : FunctionState) : Graph := s.ctx.graph

def error (s : FunctionState) (text : String) (tokens : List SourceToken) : FunctionState :=
  { s with log := s.log.error text tokens }

def warning (s : FunctionState) (text : String) (tokens : List SourceToken) : FunctionState :=
  { s with log := s.log.warning text tokens }

/-- Stops the compilation of the function. -/
def fail (s : FunctionState) : FunctionState := { s with ctx.failed := true }

def append (s : FunctionState) (n : NodeId) (statement : Statement) : FunctionState :=
  { s with ctx := s.ctx.append n statement }

/-! ## Nets -/

/-- The name under which an output is stored: on the class for the event graph, else in the
frame. -/
def netName (s : FunctionState) (p : PinId) : String × FunctionState :=
  if s.ctx.isEventGraph then
    let (name, names) := s.classNetNames.nameOf s.graph p
    (name, { s with classNetNames := names })
  else
    let (name, names) := s.ctx.localNetNames.nameOf s.graph p
    (name, { s with ctx.localNetNames := names })

/-- Gives an output storage under a name of its own. -/
def addLocal (s : FunctionState) (p : PinId) : Option TermId × FunctionState :=
  let (name, s) := s.netName p
  let (t, ctx) := s.ctx.addLocalForPin p name
  (t, { s with ctx })

def addLiteral (s : FunctionState) (p : PinId) : FunctionState :=
  { s with ctx := (s.ctx.addLiteral p).2 }

def setNet (s : FunctionState) (p : PinId) (t : TermId) : FunctionState :=
  { s with ctx := s.ctx.setNet p t }

/-- Registers one pin: a data output gets storage, a data input without links a literal. -/
def registerPin (s : FunctionState) (p : PinId) : FunctionState :=
  match s.graph.pin? p with
  | none => s
  | some pin =>
    if pin.isMeta then s
    else match pin.direction with
      | .output => (s.addLocal p).2
      | .input => if pin.isLinked then s else s.addLiteral p

def registerPins (s : FunctionState) (n : NodeId) : FunctionState :=
  (s.graph.pinsOf n).foldl registerPin s

/-- Reports an input that nothing flows into. -/
def missingInput (s : FunctionState) (p : PinId) : FunctionState :=
  s.error "Failed to resolve the value passed into @@" [s.graph.pinToken p]

/-- The terminals of some inputs, or the first input without one. -/
def inputTerms (s : FunctionState) (ps : List PinId) : Except PinId (List TermId) :=
  ps.mapM fun p => match s.ctx.inputTerm? p with
    | some t => .ok t
    | none => .error p

/-- Jumps to what the `then` pin is wired to.  Without it the function, or the thread of the
event, ends. -/
def gotoThen (s : FunctionState) (n : NodeId) : FunctionState :=
  let wired := (s.graph.findPin? n PinName.thenOut (some .output)).filter
    fun p => !(s.graph.linksOf p).isEmpty
  s.append n <| match wired with
    | some p => .unconditionalGoto (.pin p)
    | none => if s.ctx.isEventGraph then .endOfThread else .gotoReturn

end FunctionState

end VisualScript
