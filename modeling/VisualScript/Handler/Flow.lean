import VisualScript.Graph.Link
import VisualScript.Handler.State

/-!
# Branches and reroutes
-/

namespace VisualScript

namespace Branch

def compile (s : FunctionState) (n : NodeId) : FunctionState :=
  match s.graph.findPin? n PinName.condition (some .input),
      s.graph.findPin? n PinName.thenOut (some .output),
      s.graph.findPin? n PinName.elseOut (some .output) with
  | some condition, some thenPin, some elsePin => match s.ctx.inputTerm? condition with
    | none => s.missingInput condition
    | some t =>
      (s.append n (.gotoIfNot t (.pin elsePin))).append n (.unconditionalGoto (.pin thenPin))
  | _, _, _ => s.error "Branch node @@ is missing pins" [s.graph.nodeToken n]

end Branch

namespace Knot

/-- Links a source of a reroute to one of its targets. -/
def bridge (n : NodeId) (target : PinId) (s : FunctionState) (source : PinId) : FunctionState :=
  match s.graph.makeLink source target with
  | .ok g => { s with ctx.graph := g }
  | .error e =>
    s.error s!"Failed to collapse reroute node @@: {e.message}" [s.graph.nodeToken n]

/-- Takes a target off the reroute and links it to the sources.  Without a source the target
takes the defaults of the reroute. -/
def release (n : NodeId) (output : PinId) (sources : List PinId) (value : String)
    (object : Option String) (s : FunctionState) (target : PinId) : FunctionState :=
  let g := s.graph.breakLink output target
  let g := if sources.isEmpty then g.setDefaults target value object else g
  sources.foldl (bridge n target) { s with ctx.graph := g }

/-- Reroutes are replaced by direct links. -/
def transform (s : FunctionState) (n : NodeId) : FunctionState :=
  match s.graph.findPin? n PinName.knotInput (some .input),
      s.graph.findPin? n PinName.knotOutput (some .output) with
  | some input, some output =>
    let (value, object) := match s.graph.pin? input with
      | some pin => (pin.defaultValue, pin.defaultObject)
      | none => ("", none)
    let s := (s.graph.linksOf output).foldl
      (release n output (s.graph.linksOf input) value object) s
    { s with ctx.graph := s.graph.removeNode n }
  | _, _ => s

end Knot

end VisualScript
