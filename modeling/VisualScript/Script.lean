import VisualScript.Class.Value
import VisualScript.Graph.Id

/-!
# Scripts

A script is a flat list of operations.  Jumps name the index of an operation.
-/

namespace VisualScript

/-- Where an operation finds or puts a value. -/
inductive Operand
  /-- A property of the frame of the function. -/
  | frame (name : String)
  /-- A property of the object that the function runs on. -/
  | inst (name : String)
  | literal (value : Value)
  deriving Inhabited

namespace Operand

def listing : Operand → String
  | frame name => name
  | inst name => "self." ++ name
  | literal value => value.listing

instance : JsonCodec Operand where
  toJson
    | frame name => .tagged "Local" (toJson name)
    | inst name => .tagged "Instance" (toJson name)
    | literal value => .tagged "Literal" (toJson value)
  ofJson? j := match j.variant? with
    | some ("Local", some p) => (ofJson? p).map frame
    | some ("Instance", some p) => (ofJson? p).map inst
    | some ("Literal", some p) => (ofJson? p).map literal
    | _ => none

end Operand

inductive ScriptOp
  | comment (text : String)
  /-- Marks where the code of a node begins. -/
  | tracepoint (node : NodeId)
  /-- Calls a function on the object `context`, or on the object that runs the script. -/
  | callFunction (function : String) (context : Option Operand) (args : List Operand)
    (result : Option Operand)
  | assign (dest src : Operand)
  | setArray (array : Operand) (elements : List Operand)
  | jump (target : Nat)
  | jumpIfNot (condition : Operand) (target : Nat)
  /-- Jumps to the index that the operand holds. -/
  | computedJump (target : Operand)
  | endOfThread
  | ret
  deriving Inhabited

abbrev Script := List ScriptOp

namespace ScriptOp

/-! ## Listings -/

def listing : ScriptOp → String
  | comment text => "// " ++ text
  | tracepoint node => "tracepoint " ++ node.text
  | callFunction function context args result =>
    let args := ", ".intercalate (args.map Operand.listing)
    let call := (match context with
      | some context => context.listing ++ "."
      | none => "") ++ function ++ "(" ++ args ++ ")"
    match result with
    | some result => result.listing ++ " = " ++ call
    | none => call
  | assign dest src => dest.listing ++ " = " ++ src.listing
  | setArray array elements =>
    array.listing ++ " = [" ++ ", ".intercalate (elements.map Operand.listing) ++ "]"
  | jump target => "jump " ++ toString target
  | jumpIfNot condition target => "jump " ++ toString target ++ " if not " ++ condition.listing
  | computedJump target => "jump [" ++ target.listing ++ "]"
  | endOfThread => "end thread"
  | ret => "return"

/-! ## Documents -/

instance : JsonCodec ScriptOp where
  toJson
    | comment text => .tagged "Comment" (toJson text)
    | tracepoint node => .tagged "Tracepoint" (toJson node)
    | callFunction function context args result => .tagged "CallFunction" (.obj [
        ("function", toJson function),
        ("context", toJson context),
        ("args", toJson args),
        ("result", toJson result)])
    | assign dest src => .tagged "Let" (.obj [("dest", toJson dest), ("src", toJson src)])
    | setArray array elements =>
      .tagged "SetArray" (.obj [("array", toJson array), ("elements", toJson elements)])
    | jump target => .tagged "Jump" (toJson target)
    | jumpIfNot condition target =>
      .tagged "JumpIfNot" (.obj [("condition", toJson condition), ("target", toJson target)])
    | computedJump target => .tagged "ComputedJump" (toJson target)
    | endOfThread => .str "EndOfThread"
    | ret => .str "Return"
  ofJson? j := match j.variant? with
    | some ("Comment", some p) => (ofJson? p).map comment
    | some ("Tracepoint", some p) => (ofJson? p).map tracepoint
    | some ("CallFunction", some p) => do
      let m ← p.record? ["function", "context", "args", "result"]
      return callFunction (← Json.field m "function") (← Json.optional m "context")
        (← Json.field m "args") (← Json.optional m "result")
    | some ("Let", some p) => do
      let m ← p.record? ["dest", "src"]
      return assign (← Json.field m "dest") (← Json.field m "src")
    | some ("SetArray", some p) => do
      let m ← p.record? ["array", "elements"]
      return setArray (← Json.field m "array") (← Json.field m "elements")
    | some ("Jump", some p) => (ofJson? p).map jump
    | some ("JumpIfNot", some p) => do
      let m ← p.record? ["condition", "target"]
      return jumpIfNot (← Json.field m "condition") (← Json.field m "target")
    | some ("ComputedJump", some p) => (ofJson? p).map computedJump
    | _ => match j.bareVariant? with
      | some "EndOfThread" => some endOfThread
      | some "Return" => some ret
      | _ => none

end ScriptOp

namespace Script

/-- Right-aligns an index over four columns. -/
def column (n : Nat) : String :=
  let digits := toString n
  String.ofList (List.replicate (4 - digits.length) ' ') ++ digits

/-- A line for each operation, with its index. -/
def listing (script : Script) : List String :=
  script.mapIdx fun i op => column i ++ ": " ++ op.listing

/-- The lines of a script, each with a line break. -/
def disassembly (script : Script) : String := String.join (script.listing.map (· ++ "\n"))

end Script

end VisualScript
