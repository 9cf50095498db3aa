import VisualScript.Graph.Id

/-!
# Statements

The steps that the nodes of a function compile to.  A statement names the places
that it reads and writes by terminals, and jumps to an exec pin until the pin is
resolved to the index of a statement.
-/

namespace VisualScript

/-- The index of a terminal of a function. -/
structure TermId where
  index : Nat
  deriving DecidableEq, Inhabited, Repr

instance : JsonCodec TermId := ⟨fun t => .nat t.index, fun j => (j.natural? 64).map TermId.mk⟩

inductive GotoTarget
  | pin (pin : PinId)
  | resolved (index : Nat)
  deriving DecidableEq, Inhabited

instance : JsonCodec GotoTarget where
  toJson
    | .pin p => .tagged "Pin" (toJson p)
    | .resolved index => .tagged "Resolved" (toJson index)
  ofJson? j := match j.variant? with
    | some ("Pin", some p) => (ofJson? p).map .pin
    | some ("Resolved", some p) => (ofJson? p).map .resolved
    | _ => none

inductive Statement
  | comment (text : String)
  /-- Marks where the code of a node begins. -/
  | debugSite (node : NodeId)
  /-- Calls a function on the object `target`, or on the object that runs the code. -/
  | callFunction (function : String) (target : Option TermId) (args : List TermId)
    (result : Option TermId)
  | assignment (lhs rhs : TermId)
  | createArray (array : TermId) (elements : List TermId)
  | unconditionalGoto (target : GotoTarget)
  | gotoIfNot (condition : TermId) (target : GotoTarget)
  /-- Jumps to the index that the terminal holds. -/
  | computedGoto (term : TermId)
  | gotoReturn
  | endOfThread
  | ret
  deriving DecidableEq, Inhabited

namespace Statement

/-- Where the statement may jump to. -/
def target? : Statement → Option GotoTarget
  | unconditionalGoto target => some target
  | gotoIfNot _ target => some target
  | _ => none

/-- Changes where the statement may jump to. -/
def mapTarget (f : GotoTarget → GotoTarget) : Statement → Statement
  | unconditionalGoto target => unconditionalGoto (f target)
  | gotoIfNot condition target => gotoIfNot condition (f target)
  | s => s

@[simp]
theorem target?_mapTarget (f : GotoTarget → GotoTarget) (s : Statement) :
    (s.mapTarget f).target? = s.target?.map f := by cases s <;> rfl

/-- Marks are not code. -/
def isMarker : Statement → Bool
  | comment _ | debugSite _ => true
  | _ => false

instance : JsonCodec Statement where
  toJson
    | comment text => .tagged "Comment" (toJson text)
    | debugSite node => .tagged "DebugSite" (toJson node)
    | callFunction function target args result => .tagged "CallFunction" (.obj [
        ("function", toJson function),
        ("target", toJson target),
        ("args", toJson args),
        ("result", toJson result)])
    | assignment lhs rhs => .tagged "Assignment" (.obj [("lhs", toJson lhs), ("rhs", toJson rhs)])
    | createArray array elements =>
      .tagged "CreateArray" (.obj [("array", toJson array), ("elements", toJson elements)])
    | unconditionalGoto target => .tagged "UnconditionalGoto" (toJson target)
    | gotoIfNot condition target =>
      .tagged "GotoIfNot" (.obj [("condition", toJson condition), ("target", toJson target)])
    | computedGoto term => .tagged "ComputedGoto" (toJson term)
    | gotoReturn => .str "GotoReturn"
    | endOfThread => .str "EndOfThread"
    | ret => .str "Return"
  ofJson? j := match j.variant? with
    | some ("Comment", some p) => (ofJson? p).map comment
    | some ("DebugSite", some p) => (ofJson? p).map debugSite
    | some ("CallFunction", some p) => do
      let m ← p.record? ["function", "target", "args", "result"]
      return callFunction (← Json.field m "function") (← Json.optional m "target")
        (← Json.field m "args") (← Json.optional m "result")
    | some ("Assignment", some p) => do
      let m ← p.record? ["lhs", "rhs"]
      return assignment (← Json.field m "lhs") (← Json.field m "rhs")
    | some ("CreateArray", some p) => do
      let m ← p.record? ["array", "elements"]
      return createArray (← Json.field m "array") (← Json.field m "elements")
    | some ("UnconditionalGoto", some p) => (ofJson? p).map unconditionalGoto
    | some ("GotoIfNot", some p) => do
      let m ← p.record? ["condition", "target"]
      return gotoIfNot (← Json.field m "condition") (← Json.field m "target")
    | some ("ComputedGoto", some p) => (ofJson? p).map computedGoto
    | _ => match j.bareVariant? with
      | some "GotoReturn" => some gotoReturn
      | some "EndOfThread" => some endOfThread
      | some "Return" => some ret
      | _ => none

end Statement

end VisualScript
