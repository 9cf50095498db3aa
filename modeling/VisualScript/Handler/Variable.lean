import VisualScript.Handler.State
import VisualScript.Timeline

/-!
# Variables and timelines
-/

namespace VisualScript

namespace VariableAccess

/-- Whether the variable is a local variable of the function. -/
def isUserLocal (ctx : FunctionContext) (name : String) : Bool :=
  (ctx.findNamed? name ctx.userLocals).isSome

/-- A variable of a named class carries the name of the class. -/
def storageName (var : VariableReference) : String :=
  match var.owner with
  | some owner => owner ++ "." ++ var.name
  | none => var.name

/-- The terminal of a local variable or member.  A variable that is neither is reported on
request. -/
def resolve (s : FunctionState) (n : NodeId) (var : VariableReference) (report : Bool) :
    Option TermId × FunctionState :=
  if var.owner.isNone && !isUserLocal s.ctx var.name && (s.cls.findProperty? var.name).isNone then
    (none, if report then
      s.error s!"Could not find a variable named '{var.name}' for @@" [s.graph.nodeToken n]
    else s)
  else
    let (t, ctx) := s.ctx.variableTerm (storageName var) var.ty (some (s.graph.nodeToken n))
    (some t, { s with ctx })

end VariableAccess

open VariableAccess

namespace VariableGet

def register (s : FunctionState) (n : NodeId) (var : VariableReference) : FunctionState :=
  match resolve s n var true with
  | (none, s) => s
  | (some t, s) => (s.graph.filteredPins n .output false).foldl (fun s p => s.setNet p t) s

end VariableGet

namespace VariableSet

/-- Resolves the member that a pin names. -/
def resolveMember (n : NodeId) (report : Bool) (acc : List (TermId × PinId) × FunctionState)
    (p : PinId) : List (TermId × PinId) × FunctionState :=
  let (pairs, s) := acc
  match s.graph.pin? p with
  | none => (pairs, s)
  | some pin => match resolve s n (.selfMember pin.name pin.ty) report with
    | (none, s) => (pairs, s)
    | (some t, s) => (pairs ++ [(t, p)], s)

/-- What the node writes to and the pins with the values. -/
def assignments (s : FunctionState) (n : NodeId) (var : Option VariableReference)
    (report : Bool) : List (TermId × PinId) × FunctionState :=
  let pins := s.graph.filteredPins n .input false
  match var with
  | none => pins.foldl (resolveMember n report) ([], s)
  | some var => match resolve s n var report with
    | (none, s) => ([], s)
    | (some t, s) => (pins.map (t, ·), s)

def register (s : FunctionState) (n : NodeId) (var : Option VariableReference) : FunctionState :=
  let (pairs, s) := assignments s n var true
  pairs.foldl (fun s a => if (s.graph.linksOf a.2).isEmpty then s.addLiteral a.2 else s) s

def assign (n : NodeId) (s : FunctionState) (a : TermId × PinId) : FunctionState :=
  match s.ctx.inputTerm? a.2 with
  | none => s.missingInput a.2
  | some rhs => s.append n (.assignment a.1 rhs)

def compile (s : FunctionState) (n : NodeId) (var : Option VariableReference) : FunctionState :=
  let (pairs, s) := assignments s n var false
  (pairs.foldl (assign n) s).gotoThen n

end VariableSet

namespace TemporaryVariable

/-- A temporary of the event graph is not kept between calls. -/
def registerTemporary (s : FunctionState) (p : PinId) : FunctionState :=
  match s.addLocal p with
  | (none, s) => s
  | (some t, s) => { s with ctx := s.ctx.modifyTerm t fun term =>
      if term.kind = .eventGraphLocal then { term with savePersistent := false } else term }

def register (s : FunctionState) (n : NodeId) : FunctionState :=
  (s.graph.filteredPins n .output false).foldl registerTemporary s

end TemporaryVariable

namespace TimelineNode

/-- The member of the class that an output of a timeline reads. -/
def memberName (timeline pinName : String) : String :=
  let template := TimelineTemplate.new timeline
  if pinName = PinName.direction then template.directionPropertyName
  else template.trackPropertyName pinName

def registerTrack (timeline : String) (s : FunctionState) (p : PinId) : FunctionState :=
  match s.graph.pin? p with
  | none => s
  | some pin =>
    let member := memberName timeline pin.name
    if (s.cls.findProperty? member).isNone then
      s.error s!"Timeline track '{pin.name}' has no backing property for @@" [s.graph.pinToken p]
    else
      let (t, ctx) := s.ctx.variableTerm member pin.ty (some (s.graph.pinToken p))
      { s with ctx := ctx.setNet p t }

def register (s : FunctionState) (n : NodeId) (timeline : String) : FunctionState :=
  if s.ctx.isEventGraph then
    (s.graph.filteredPins n .output false).foldl (registerTrack timeline) s
  else
    (s.error "Timeline node @@ can only be placed in an event graph" [s.graph.nodeToken n]).fail

end TimelineNode

end VisualScript
