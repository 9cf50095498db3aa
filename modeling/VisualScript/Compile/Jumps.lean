import VisualScript.Compile.Context

/-!
# Resolving jumps

The statements of the nodes become one list with a tail that ends the function.
A jump at the end of a node to what comes next anyway is dropped first; then
every exec pin that a jump names becomes the index of the code it leads to.
-/

namespace VisualScript.FunctionContext

/-! ## Jumps to what comes next -/

def hasCode (c : FunctionContext) (n : NodeId) : Bool := !(c.statementsOf n).isEmpty

/-- The first node that a pin leads to. -/
def gotoNode? (c : FunctionContext) (p : PinId) : Option NodeId := (c.graph.linkedNodes p).head?

/-- The first node with code from the target of a pin on. -/
def effectiveTarget? (c : FunctionContext) (list : List NodeId) (p : PinId) : Option NodeId := do
  let target ← c.gotoNode? p
  (list.dropWhile (· ≠ target)).find? c.hasCode

/-- Whether the last statement of a node goes to what follows it anyway. -/
def endsRedundantly (c : FunctionContext) (list after : List NodeId) (n : NodeId) : Bool :=
  let next := after.find? c.hasCode
  match (c.statementsOf n).getLast? with
  | some (.unconditionalGoto (.pin p)) => c.effectiveTarget? list p = next
  | some .gotoReturn => next.isNone && !c.isEventGraph
  | _ => false

/-- Drops the last statement of a node. -/
def dropLastOf (c : FunctionContext) (n : NodeId) : FunctionContext :=
  { c with nodeStatements := Assoc.update n [] List.dropLast c.nodeStatements }

/-- Drops the redundant jumps of a part of the list, from its end. -/
def dropRedundantJumps (list : List NodeId) : List NodeId → FunctionContext → FunctionContext
  | [], c => c
  | n :: after, c =>
    let c := dropRedundantJumps list after c
    if c.endsRedundantly list after n then c.dropLastOf n else c

/-! ## Labels -/

/-- Where the code of each node begins, counted from an index. -/
def labelsFrom (c : FunctionContext) : Nat → List NodeId → List (NodeId × Nat)
  | _, [] => []
  | k, n :: rest => (n, k) :: c.labelsFrom (k + (c.statementsOf n).length) rest

/-- The code of the nodes in turn. -/
def flatten (c : FunctionContext) (list : List NodeId) : List Statement :=
  list.flatMap c.statementsOf

/-- What follows the code of the nodes. -/
def tail (c : FunctionContext) : List Statement :=
  if c.isEventGraph then [.endOfThread, .ret] else [.ret]

/-- The index that a jump to a pin goes to; a pin that leads nowhere goes to the tail. -/
def resolveTarget (c : FunctionContext) (labels : List (NodeId × Nat)) (tailIndex : Nat) :
    GotoTarget → GotoTarget
  | .pin p => .resolved (((c.gotoNode? p).bind (List.lookup · labels)).getD tailIndex)
  | target => target

/-- Makes the code of the function and the labels of its nodes. -/
def resolveJumps (c : FunctionContext) : FunctionContext :=
  let list := c.executionList
  let c := dropRedundantJumps list list c
  let code := c.flatten list
  let labels := Assoc.setAll [] (c.labelsFrom 0 list)
  { c with
    statements := (code ++ c.tail).map (·.mapTarget (c.resolveTarget labels code.length))
    nodeLabels := labels }

end VisualScript.FunctionContext
