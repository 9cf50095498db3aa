import VisualScript.Json.Codec
import VisualScript.Json.Reader

/-!
# Options of a compile
-/

namespace VisualScript

inductive CompileType
  /-- The class and the signatures of its functions, without code. -/
  | skeletonOnly
  | full
  deriving DecidableEq, Inhabited

namespace CompileType

def all : List CompileType := [skeletonOnly, full]

def name : CompileType → String
  | skeletonOnly => "SkeletonOnly"
  | full => "Full"

instance : JsonCodec CompileType := ⟨fun t => .str t.name, Json.named? all name⟩

end CompileType

structure CompileOptions where
  compileType : CompileType := .full
  /-- Whether expanded graphs stay on the Blueprint and comments stay in them. -/
  saveIntermediateProducts : Bool := false
  /-- Whether the code of each node starts with a comment. -/
  emitNodeComments : Bool := false
  /-- Whether the values of the last class count more than the declared ones. -/
  isRegeneratingOnLoad : Bool := false
  /-- Whether the log ends with a listing of the class. -/
  verbose : Bool := false
  deriving DecidableEq, Inhabited

namespace CompileOptions

def full : CompileOptions := {}

def skeletonOnly : CompileOptions := { compileType := .skeletonOnly }

def isSkeletonOnly (o : CompileOptions) : Bool := o.compileType = .skeletonOnly

instance : JsonCodec CompileOptions where
  toJson o := .obj [
    ("compile_type", toJson o.compileType),
    ("save_intermediate_products", toJson o.saveIntermediateProducts),
    ("emit_node_comments", toJson o.emitNodeComments),
    ("is_regenerating_on_load", toJson o.isRegeneratingOnLoad),
    ("verbose", toJson o.verbose)]
  ofJson? j := do
    let m ← j.record? ["compile_type", "save_intermediate_products", "emit_node_comments",
      "is_regenerating_on_load", "verbose"]
    return {
      compileType := ← Json.fieldOr m "compile_type" .full
      saveIntermediateProducts := ← Json.fieldOr m "save_intermediate_products" false
      emitNodeComments := ← Json.fieldOr m "emit_node_comments" false
      isRegeneratingOnLoad := ← Json.fieldOr m "is_regenerating_on_load" false
      verbose := ← Json.fieldOr m "verbose" false }

/-- Reads the text of a document. -/
def ofText? (text : String) : Option CompileOptions := (Json.skim? text).bind ofJson?

end CompileOptions

end VisualScript
