import VisualScript.Handler.State

/-!
# Entries, events and results
-/

namespace VisualScript

namespace FunctionEntry

/-- A data output of the entry is a parameter. -/
def registerParameter (s : FunctionState) (p : PinId) : FunctionState :=
  match s.graph.pin? p with
  | none => s
  | some pin =>
    let (t, ctx) := s.ctx.addTerm .parameter pin.name pin.ty (some (s.graph.pinToken p))
    { s with ctx := ctx.setNet p t }

def register (s : FunctionState) (n : NodeId) : FunctionState :=
  (s.graph.filteredPins n .output false).foldl registerParameter s

/-- The entry of the event graph jumps to where it is told to begin. -/
def compile (s : FunctionState) (n : NodeId) : FunctionState :=
  if s.ctx.isEventGraph then
    match (s.graph.findPin? n PinName.entryPoint (some .output)).bind s.ctx.net? with
    | some t => s.append n (.computedGoto t)
    | none => s.error "Event graph entry @@ has no EntryPoint parameter" [s.graph.nodeToken n]
  else s.gotoThen n

end FunctionEntry

namespace Event

/-- Parameters of events are stored on the class, where the stubs put them. -/
def register (s : FunctionState) (n : NodeId) : FunctionState :=
  if s.ctx.isEventGraph then
    (s.graph.filteredPins n .output false).foldl (fun s p => (s.addLocal p).2) s
  else
    (s.error "Event node @@ can only be placed in an event graph" [s.graph.nodeToken n]).fail

def compile (s : FunctionState) (n : NodeId) : FunctionState := s.gotoThen n

end Event

namespace FunctionResult

/-- A data input of a result is a result of the function; results of one name are one. -/
def registerResult (s : FunctionState) (p : PinId) : FunctionState :=
  match s.graph.pin? p with
  | none => s
  | some pin =>
    let s := if (s.ctx.findResult? pin.name).isSome then s
      else { s with ctx := (s.ctx.addTerm .result pin.name pin.ty (some (s.graph.pinToken p))).2 }
    if pin.isLinked then s else s.addLiteral p

def register (s : FunctionState) (n : NodeId) : FunctionState :=
  (s.graph.filteredPins n .input false).foldl registerResult s

def assignResult (n : NodeId) (s : FunctionState) (p : PinId) : FunctionState :=
  match s.graph.pin? p with
  | none => s
  | some pin => match s.ctx.inputTerm? p with
    | none => s.missingInput p
    | some rhs => match s.ctx.findResult? pin.name with
      | none => s
      | some lhs => s.append n (.assignment lhs rhs)

def compile (s : FunctionState) (n : NodeId) : FunctionState :=
  ((s.graph.filteredPins n .input false).foldl (assignResult n) s).append n .gotoReturn

end FunctionResult

end VisualScript
