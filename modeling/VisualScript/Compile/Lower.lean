import VisualScript.Class.Basic
import VisualScript.Compile.Context

/-!
# Lowering to scripts

Each statement becomes one operation, so the index of a statement is the index of
its operation.
-/

namespace VisualScript

namespace Terminal

/-- The value of a literal: its object, else its text if that can be read, else zero. -/
def literalValue (t : Terminal) : Value :=
  match t.defaultObject with
  | some object =>
    if t.ty.category.isObjectLike then .object (some object)
    else (Value.parse? t.ty t.defaultValue).getD (Value.zero t.ty)
  | none => (Value.parse? t.ty t.defaultValue).getD (Value.zero t.ty)

def operand (t : Terminal) : Operand :=
  match t.kind with
  | .parameter | .result | .frameLocal | .userLocal => .frame t.name
  | .eventGraphLocal | .memberReference => .inst t.name
  | .literal => .literal t.literalValue

end Terminal

namespace FunctionContext

def operand (c : FunctionContext) (t : TermId) : Operand :=
  ((c.term? t).map (·.operand)).getD (.literal .nothing)

/-- The index of a jump; a pin that was never resolved leads to the final return. -/
def lowerTarget (returnIndex : Nat) : GotoTarget → Nat
  | .resolved index => index
  | .pin _ => returnIndex

def lower (c : FunctionContext) (returnIndex : Nat) : Statement → ScriptOp
  | .comment text => .comment text
  | .debugSite node => .tracepoint node
  | .callFunction function target args result =>
    .callFunction function (target.map c.operand) (args.map c.operand) (result.map c.operand)
  | .assignment lhs rhs => .assign (c.operand lhs) (c.operand rhs)
  | .createArray array elements => .setArray (c.operand array) (elements.map c.operand)
  | .unconditionalGoto target => .jump (lowerTarget returnIndex target)
  | .gotoIfNot condition target =>
    .jumpIfNot (c.operand condition) (lowerTarget returnIndex target)
  | .computedGoto term => .computedJump (c.operand term)
  | .gotoReturn => .jump returnIndex
  | .endOfThread => .endOfThread
  | .ret => .ret

/-- The script of the function; without code it only returns. -/
def script (c : FunctionContext) (skeletonOnly : Bool) : Script :=
  if skeletonOnly || c.failed || c.statements.isEmpty then [.ret]
  else c.statements.map (c.lower (c.statements.length - 1))

end FunctionContext

namespace Class

/-- Gives the functions of the class the scripts of their contexts. -/
def generateCode (c : Class) (contexts : List FunctionContext) (skeletonOnly : Bool) : Class :=
  contexts.foldl
    (fun c ctx => c.modifyFunction ctx.functionName fun f =>
      { f with script := ctx.script skeletonOnly }) c

/-- How many contexts have their function on the class, and so give it a script. -/
def numGenerated (c : Class) (contexts : List FunctionContext) : Nat :=
  contexts.countP fun ctx => (c.findOwnFunction? ctx.functionName).isSome

end Class

end VisualScript
