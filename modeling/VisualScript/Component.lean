import VisualScript.Json.Codec

/-!
# Components

A construction script is a forest of components.  Each component becomes a member
of the class and leaves a template on it.
-/

namespace VisualScript

/-- A component with the components attached to it. -/
structure ComponentNode where
  variableName : String
  componentClass : String
  children : List ComponentNode := []
  deriving Inhabited

namespace ComponentNode

mutual

/-- The component and everything below it, parents first. -/
def flatten : ComponentNode → List ComponentNode
  | node@⟨_, _, children⟩ => node :: flattenAll children

def flattenAll : List ComponentNode → List ComponentNode
  | [] => []
  | node :: nodes => node.flatten ++ flattenAll nodes

end

mutual

/-- Renames every component of one name, at every depth. -/
def rename (old new : String) : ComponentNode → ComponentNode
  | ⟨name, componentClass, children⟩ =>
    ⟨if name = old then new else name, componentClass, renameAll old new children⟩

def renameAll (old new : String) : List ComponentNode → List ComponentNode
  | [] => []
  | node :: nodes => node.rename old new :: renameAll old new nodes

end

/-! ## Documents -/

mutual

def document : ComponentNode → Json
  | ⟨name, componentClass, children⟩ => .obj [
    ("variable_name", toJson name),
    ("component_class", toJson componentClass),
    ("children", .arr (documents children))]

def documents : List ComponentNode → List Json
  | [] => []
  | node :: nodes => node.document :: documents nodes

end

def fields : List String := ["variable_name", "component_class", "children"]

mutual

def ofDocument? : Json → Option ComponentNode
  | .obj members => do
    let m ← (Json.obj members).record? fields
    return ⟨← Json.field m "variable_name", ← Json.field m "component_class",
      ← childrenOf? members⟩
  | _ => none

/-- Reads the first member named `children`; without one there are none. -/
def childrenOf? : List (String × Json) → Option (List ComponentNode)
  | [] => some []
  | (key, j) :: rest => if key = "children" then itemsOfDocument? j else childrenOf? rest

def itemsOfDocument? : Json → Option (List ComponentNode)
  | .arr items => ofDocuments? items
  | _ => none

def ofDocuments? : List Json → Option (List ComponentNode)
  | [] => some []
  | j :: js => do return (← ofDocument? j) :: (← ofDocuments? js)

end

instance : JsonCodec ComponentNode := ⟨document, ofDocument?⟩

end ComponentNode

structure ConstructionScript where
  roots : List ComponentNode := []
  deriving Inhabited

namespace ConstructionScript

/-- Every component, parents before their children. -/
def components (s : ConstructionScript) : List ComponentNode :=
  ComponentNode.flattenAll s.roots

instance : JsonCodec ConstructionScript where
  toJson s := .obj [("root_nodes", toJson s.roots)]
  ofJson? j := do
    let m ← j.record? ["root_nodes"]
    return ⟨← Json.field m "root_nodes"⟩

end ConstructionScript

/-- The template of a component on the class. -/
structure ComponentTemplate where
  name : String
  componentClass : String
  deriving DecidableEq, Inhabited

instance : JsonCodec ComponentTemplate where
  toJson t := .obj [("name", toJson t.name), ("component_class", toJson t.componentClass)]
  ofJson? j := do
    let m ← j.record? ["name", "component_class"]
    return ⟨← Json.field m "name", ← Json.field m "component_class"⟩

end VisualScript
