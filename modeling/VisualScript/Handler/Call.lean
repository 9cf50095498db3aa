import VisualScript.Handler.State
import VisualScript.Schema

/-!
# Calls and arrays
-/

namespace VisualScript

namespace CallFunction

/-- The object of a call, if something is wired to the self pin. -/
def target? (s : FunctionState) (n : NodeId) : Option TermId := do
  let p ← s.graph.selfPin? n
  if (s.graph.linksOf p).isEmpty then none else s.ctx.inputTerm? p

/-- The data inputs but the object. -/
def inputs (g : Graph) (n : NodeId) : List PinId :=
  (g.filteredPins n .input false).filter fun p => (g.pin? p).any (!·.isSelf)

def isReturn (g : Graph) (p : PinId) : Bool :=
  (g.pin? p).any (·.name == PinName.returnValue)

/-- The storage of some outputs, or the first output without any. -/
def outputTerms (s : FunctionState) (ps : List PinId) : Except PinId (List (PinId × TermId)) :=
  ps.mapM fun p => match s.ctx.net? p with
    | some t => .ok (p, t)
    | none => .error p

/-- The output named `ReturnValue` takes the result; the others are passed as arguments after
the inputs. -/
def compile (s : FunctionState) (n : NodeId) (call : CallData) : FunctionState :=
  match s.inputTerms (inputs s.graph n) with
  | .error p => s.missingInput p
  | .ok ins => match outputTerms s (s.graph.filteredPins n .output false) with
    | .error p => s.error "Output @@ has no storage registered" [s.graph.pinToken p]
    | .ok outs =>
      let (returned, passed) := outs.partition fun o => isReturn s.graph o.1
      let s := s.append n (.callFunction call.function (target? s n) (ins ++ passed.map (·.2))
        (returned.getLast?.map (·.2)))
      if call.isPure then s else s.gotoThen n

end CallFunction

namespace MakeArray

def compile (s : FunctionState) (n : NodeId) : FunctionState :=
  match (s.graph.findPin? n PinName.array (some .output)).bind s.ctx.net? with
  | none => s.error "Make Array node @@ has no output storage" [s.graph.nodeToken n]
  | some array => match s.inputTerms (s.graph.filteredPins n .input false) with
    | .error p => s.missingInput p
    | .ok elements => s.append n (.createArray array elements)

end MakeArray

end VisualScript
