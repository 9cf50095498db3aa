import VisualScript.Blueprint
import VisualScript.Handler.Dispatch
import VisualScript.Options

/-!
# What every function of a compile is compiled under
-/

namespace VisualScript

structure CompileEnv where
  schema : Schema
  options : CompileOptions := .full
  blueprintType : BlueprintType := .normal
  /-- The kinds of nodes that can be compiled. -/
  handled : List NodeTag := NodeTag.handled
  deriving Inhabited

namespace CompileEnv

def handles (env : CompileEnv) (kind : NodeKind) : Bool := kind.tag ∈ env.handled

end CompileEnv

end VisualScript
