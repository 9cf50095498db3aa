import VisualScript.Graph.NodeKind

/-!
# Nodes
-/

namespace VisualScript

structure Position where
  x : Int
  y : Int
  deriving DecidableEq, Inhabited, Repr

namespace Position

def origin : Position := ⟨0, 0⟩

def offset (p : Position) (dx dy : Int) : Position := ⟨p.x + dx, p.y + dy⟩

instance : JsonCodec Position where
  toJson p := .obj [("x", .int p.x), ("y", .int p.y)]
  ofJson? j := do
    let m ← j.record? ["x", "y"]
    return ⟨← (← m.lookup "x").signed? 32, ← (← m.lookup "y").signed? 32⟩

end Position

structure Node where
  id : NodeId
  kind : NodeKind
  pins : List PinId
  position : Position := .origin
  comment : String := ""
  /-- Whether the compiler made the node. -/
  isIntermediate : Bool := false
  deriving DecidableEq, Inhabited

namespace Node

def isPure (n : Node) : Bool := n.kind.isPure

def title (n : Node) : String := n.kind.title

instance : JsonCodec Node where
  toJson n := .obj [
    ("id", toJson n.id),
    ("kind", toJson n.kind),
    ("pins", toJson n.pins),
    ("position", toJson n.position),
    ("comment", toJson n.comment),
    ("intermediate", toJson n.isIntermediate)]
  ofJson? j := do
    let m ← j.record? ["id", "kind", "pins", "position", "comment", "intermediate"]
    return {
      id := ← Json.field m "id"
      kind := ← Json.field m "kind"
      pins := ← Json.field m "pins"
      position := ← Json.fieldOr m "position" .origin
      comment := ← Json.fieldOr m "comment" ""
      isIntermediate := ← Json.fieldOr m "intermediate" false }

end Node

end VisualScript
