import VisualScript.Compile.Statement
import VisualScript.Graph.PinType
import VisualScript.Log

/-!
# Terminals

A terminal is a place that the code of a function reads or writes.
-/

namespace VisualScript

inductive TermKind
  | parameter
  | result
  | frameLocal
  /-- A net of the consolidated event graph, which is kept on the class. -/
  | eventGraphLocal
  | literal
  | memberReference
  /-- A variable that the author declared on the entry. -/
  | userLocal
  deriving DecidableEq, Inhabited

namespace TermKind

def all : List TermKind :=
  [parameter, result, frameLocal, eventGraphLocal, literal, memberReference, userLocal]

def name : TermKind → String
  | parameter => "Parameter"
  | result => "Result"
  | frameLocal => "Local"
  | eventGraphLocal => "EventGraphLocal"
  | literal => "Literal"
  | memberReference => "MemberReference"
  | userLocal => "UserLocal"

instance : JsonCodec TermKind := ⟨fun k => .str k.name, Json.named? all name⟩

end TermKind

structure Terminal where
  name : String
  ty : PinType
  kind : TermKind
  source : Option SourceToken := none
  defaultValue : String := ""
  defaultObject : Option String := none
  passedByRef : Bool := false
  isConst : Bool := false
  /-- Whether the value is kept between calls. -/
  savePersistent : Bool := false
  /-- The property that was made for the terminal. -/
  associatedProperty : Option String := none
  deriving DecidableEq, Inhabited

namespace Terminal

/-- A fresh terminal; nets of the event graph are kept between calls. -/
def new (kind : TermKind) (name : String) (ty : PinType) (source : Option SourceToken) :
    Terminal where
  name
  ty
  kind
  source
  passedByRef := ty.isReference
  isConst := ty.isConst
  savePersistent := kind = .eventGraphLocal

/-- Whether the terminal lives in the frame of the function. -/
def isLocal (t : Terminal) : Bool :=
  match t.kind with
  | .frameLocal | .userLocal | .parameter | .result => true
  | _ => false

def isLiteral (t : Terminal) : Bool := t.kind = .literal

end Terminal

end VisualScript
