import VisualScript.Compile.Context

/-!
# Contexts as documents

Everything that a context holds but its graph, for inspection between passes.
Tables by node or pin are in the order of the names.
-/

namespace VisualScript

/-- The pairs of a table in the order of their keys. -/
def sortedPairs {κ ν : Type} [JsonCodec κ] [JsonCodec ν] (index : κ → Nat)
    (table : List (κ × ν)) : Json :=
  toJson (table.mergeSort fun a b => index a.1 ≤ index b.1)

def ContextFlags.document (f : ContextFlags) : Json := .obj [
  ("event_graph", toJson f.eventGraph),
  ("interface_stub", toJson f.interfaceStub),
  ("const_function", toJson f.constFunction),
  ("create_debug_data", toJson f.createDebugData),
  ("internal", toJson f.isInternal),
  ("simple_stub_no_params", toJson f.simpleStubNoParams)]

def Terminal.document (t : Terminal) : Json := .obj [
  ("name", toJson t.name),
  ("ty", toJson t.ty),
  ("kind", toJson t.kind),
  ("source", toJson t.source),
  ("default_value", toJson t.defaultValue),
  ("default_object", toJson t.defaultObject),
  ("passed_by_ref", toJson t.passedByRef),
  ("is_const", toJson t.isConst),
  ("save_persistent", toJson t.savePersistent),
  ("associated_property", toJson t.associatedProperty),
  ("is_local", toJson t.isLocal),
  ("is_literal", toJson t.isLiteral)]

namespace FunctionContext

def nodeStatementsDocument (c : FunctionContext) : Json :=
  sortedPairs NodeId.index c.nodeStatements

def labelsDocument (c : FunctionContext) : Json := sortedPairs NodeId.index c.nodeLabels

/-- The terminals of each kind. -/
def termListsDocument (c : FunctionContext) : Json := .obj [
  ("parameters", toJson c.parameters),
  ("results", toJson c.results),
  ("locals", toJson c.locals),
  ("event_graph_locals", toJson c.eventGraphLocals),
  ("variable_references", toJson c.variableReferences),
  ("literals", toJson c.literals),
  ("user_locals", toJson c.userLocals)]

def document (c : FunctionContext) : Json := .obj [
  ("name", toJson c.functionName),
  ("graph_order", toJson c.graph.order),
  ("flags", c.flags.document),
  ("delegate", toJson c.delegateSignatureName),
  ("net_flags", toJson c.netFlags),
  ("stub", toJson (c.stub.map fun s => (s.sourceEvent, s.ubergraphCall))),
  ("failed", toJson c.failed),
  ("entry_point", toJson c.entryPoint),
  ("schedule", toJson c.executionList),
  ("terms", .arr (c.terms.map (·.document))),
  ("term_lists", c.termListsDocument),
  ("net_map", sortedPairs PinId.index c.netMap),
  ("node_statements", c.nodeStatementsDocument),
  ("statements", toJson c.statements),
  ("labels", c.labelsDocument)]

end FunctionContext

end VisualScript
