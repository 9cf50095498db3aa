import VisualScript.Json.Codec

/-!
# Names of nodes and pins

Nodes and pins are named by the index of their slot, which is written in 32 bits.
-/

namespace VisualScript

structure NodeId where
  index : Nat
  deriving DecidableEq, Inhabited, Repr, Ord

structure PinId where
  index : Nat
  deriving DecidableEq, Inhabited, Repr, Ord

namespace NodeId

def text (n : NodeId) : String := "n" ++ toString n.index

/-- Stands for the owner of a pin that is gone. -/
def unknown : NodeId := ⟨UInt32.size - 1⟩

instance : JsonCodec NodeId := ⟨fun n => .nat n.index, fun j => (j.natural? 32).map NodeId.mk⟩

end NodeId

namespace PinId

def text (p : PinId) : String := "p" ++ toString p.index

instance : JsonCodec PinId := ⟨fun p => .nat p.index, fun j => (j.natural? 32).map PinId.mk⟩

end PinId

end VisualScript
