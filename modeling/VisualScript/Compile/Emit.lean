import VisualScript.Compile.Environment
import VisualScript.Compile.Inline

/-!
# Emitting statements

Every scheduled node appends its statements, after marks for the reader and the
debugger.
-/

namespace VisualScript.FunctionState

/-- The comment of a node, or else its title. -/
def commentOf (g : Graph) (n : NodeId) : String :=
  match g.node? n with
  | some node => if node.comment.isEmpty then node.title else node.comment
  | none => ""

/-- Marks where the code of a node begins.  The entry of the event graph stands for nothing
that the author made and gets no marks. -/
def markNode (env : CompileEnv) (s : FunctionState) (n : NodeId) (kind : NodeKind) :
    FunctionState :=
  if s.ctx.isEventGraph && kind.isEntry then s
  else
    let s := if env.options.emitNodeComments then s.append n (.comment (commentOf s.graph n)) else s
    if s.ctx.flags.createDebugData then s.append n (.debugSite n) else s

/-- Lets the nodes append their statements, up to a node that cannot be compiled. -/
def emitNodes (env : CompileEnv) : List NodeId → FunctionState → FunctionState
  | [], s => s
  | n :: rest, s => match s.graph.kind? n with
    | none => emitNodes env rest s
    | some kind =>
      if env.handles kind then emitNodes env rest (kind.compile (s.markNode env n kind) n)
      else
        (s.error s!"Unexpected node type {kind.title} encountered at @@" [s.graph.nodeToken n]).fail

/-- Makes the statements of the nodes and inlines those of pure nodes. -/
def compile (env : CompileEnv) (s : FunctionState) : FunctionState :=
  if s.ctx.failed || s.ctx.flags.interfaceStub then s
  else
    let s := emitNodes env s.ctx.executionList s
    if s.ctx.failed then s else { s with ctx := s.ctx.inlinePureNodes }

end VisualScript.FunctionState
