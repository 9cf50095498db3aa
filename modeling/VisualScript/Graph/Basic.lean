import VisualScript.Error
import VisualScript.Graph.Node
import VisualScript.Graph.Slots
import VisualScript.Log

/-!
# Graphs

A graph keeps its nodes and pins in slots and the order in which its live nodes
were declared.  A document may hold any graph, so nothing here relies on the
slots, the lists of pins and the order agreeing with each other.
-/

namespace VisualScript

structure Graph where
  name : String
  nodes : Slots Node := .empty
  pins : Slots Pin := .empty
  /-- The live nodes as they were declared. -/
  order : List NodeId := []
  deriving Inhabited

instance : JsonCodec Graph where
  toJson g := .obj [
    ("name", toJson g.name),
    ("nodes", toJson g.nodes),
    ("pins", toJson g.pins),
    ("order", toJson g.order)]
  ofJson? j := do
    let m ← j.record? ["name", "nodes", "pins", "order"]
    return ⟨← Json.field m "name", ← Json.field m "nodes", ← Json.field m "pins",
      ← Json.field m "order"⟩

namespace Graph

def empty (name : String) : Graph := { name }

/-! ## Looking up -/

def node? (g : Graph) (id : NodeId) : Option Node := g.nodes.get? id.index

def pin? (g : Graph) (id : PinId) : Option Pin := g.pins.get? id.index

def contains (g : Graph) (id : NodeId) : Bool := (g.node? id).isSome

def kind? (g : Graph) (id : NodeId) : Option NodeKind := (g.node? id).map (·.kind)

def isPure (g : Graph) (id : NodeId) : Bool := (g.node? id).any (·.isPure)

/-- Whether the node is there and of a kind that satisfies `p`. -/
def kindIs (g : Graph) (id : NodeId) (p : NodeKind → Bool) : Bool := (g.kind? id).any p

/-- The nodes of the order that are there. -/
def liveNodes (g : Graph) : List Node := g.order.filterMap g.node?

def nodesWhere (g : Graph) (p : NodeKind → Bool) : List NodeId :=
  (g.liveNodes.filter fun n => p n.kind).map (·.id)

def pinsOf (g : Graph) (id : NodeId) : List PinId := ((g.node? id).map (·.pins)).getD []

/-- Whether the pin has that name and, if one is given, that direction. -/
def pinMatches (g : Graph) (name : String) (direction : Option Direction) (id : PinId) : Bool :=
  (g.pin? id).any fun p => p.name == name && direction.all (· = p.direction)

/-- The first pin of the node with that name and, if one is given, that direction. -/
def findPin? (g : Graph) (id : NodeId) (name : String) (direction : Option Direction) :
    Option PinId :=
  (g.pinsOf id).find? (g.pinMatches name direction)

def findPin (g : Graph) (id : NodeId) (name : String) (direction : Option Direction) :
    Except CompileError PinId :=
  match g.findPin? id name direction with
  | some p => .ok p
  | none => .error (.namedPinNotFound id name)

def pin (g : Graph) (id : PinId) : Except CompileError Pin :=
  match g.pin? id with
  | some p => .ok p
  | none => .error (.pinNotFound id g.name)

def ownerOf? (g : Graph) (id : PinId) : Option NodeId := (g.pin? id).map (·.owner)

def linksOf (g : Graph) (id : PinId) : List PinId := ((g.pin? id).map (·.links)).getD []

/-- The nodes at the far ends of the links of a pin. -/
def linkedNodes (g : Graph) (id : PinId) : List NodeId := (g.linksOf id).filterMap g.ownerOf?

/-- The pins of a node of one direction that are exec pins or that are not. -/
def filteredPins (g : Graph) (id : NodeId) (direction : Direction) (exec : Bool) : List PinId :=
  (g.pinsOf id).filter fun p =>
    (g.pin? p).any fun p => p.direction = direction && p.isExec == exec

/-! ## Changing nodes and pins in place -/

def modifyNode (g : Graph) (id : NodeId) (f : Node → Node) : Graph :=
  { g with nodes := g.nodes.modify id.index f }

def modifyPin (g : Graph) (id : PinId) (f : Pin → Pin) : Graph :=
  { g with pins := g.pins.modify id.index f }

def setPosition (g : Graph) (id : NodeId) (x y : Int) : Graph :=
  g.modifyNode id fun n => { n with position := ⟨x, y⟩ }

def setComment (g : Graph) (id : NodeId) (text : String) : Graph :=
  g.modifyNode id fun n => { n with comment := text }

/-- Sets what the pin stands for while it has no links. -/
def setDefaults (g : Graph) (id : PinId) (value : String) (object : Option String) : Graph :=
  g.modifyPin id fun p => { p with defaultValue := value, defaultObject := object }

def offsetNodes (g : Graph) (ids : List NodeId) (dx dy : Int) : Graph :=
  ids.foldl (fun g id => g.modifyNode id fun n => { n with position := n.position.offset dx dy }) g

@[simp]
theorem node?_modifyNode (g : Graph) (a b : NodeId) (f : Node → Node) :
    (g.modifyNode a f).node? b = if a = b then (g.node? b).map f else g.node? b := by
  cases a; cases b; simp [node?, modifyNode]

@[simp]
theorem pin?_modifyNode (g : Graph) (a : NodeId) (b : PinId) (f : Node → Node) :
    (g.modifyNode a f).pin? b = g.pin? b := rfl

@[simp]
theorem pin?_modifyPin (g : Graph) (a b : PinId) (f : Pin → Pin) :
    (g.modifyPin a f).pin? b = if a = b then (g.pin? b).map f else g.pin? b := by
  cases a; cases b; simp [pin?, modifyPin]

@[simp]
theorem node?_modifyPin (g : Graph) (a : PinId) (b : NodeId) (f : Pin → Pin) :
    (g.modifyPin a f).node? b = g.node? b := rfl

@[simp]
theorem order_modifyNode (g : Graph) (a : NodeId) (f : Node → Node) :
    (g.modifyNode a f).order = g.order := rfl

@[simp]
theorem order_modifyPin (g : Graph) (a : PinId) (f : Pin → Pin) :
    (g.modifyPin a f).order = g.order := rfl

/-! ## Adding nodes and pins -/

/-- Adds a pin to a node under the next free name, also when the node is not there. -/
def allocPin (g : Graph) (owner : NodeId) (direction : Direction) (desc : PinDescription) :
    PinId × Graph :=
  let id : PinId := ⟨g.pins.size⟩
  let pin : Pin := {
    id, owner, direction, name := desc.name, ty := desc.ty, defaultValue := desc.defaultValue }
  let g := { g with pins := g.pins.push pin }
  (id, g.modifyNode owner fun n => { n with pins := n.pins ++ [id] })

/-- Adds a node with the pins that its kind starts with. -/
def spawn (g : Graph) (kind : NodeKind) : NodeId × Graph :=
  let id : NodeId := ⟨g.nodes.size⟩
  let g := { g with nodes := g.nodes.push { id, kind, pins := [] }, order := g.order ++ [id] }
  (id, kind.startingPins.foldl (fun g p => (g.allocPin id p.1 p.2).2) g)

def spawnAt (g : Graph) (kind : NodeKind) (x y : Int) : NodeId × Graph :=
  let (id, g) := g.spawn kind
  (id, g.setPosition id x y)

/-- Adds a node that the compiler makes. -/
def spawnIntermediate (g : Graph) (kind : NodeKind) : NodeId × Graph :=
  let (id, g) := g.spawn kind
  (id, g.modifyNode id fun n => { n with isIntermediate := true })

def addPin (g : Graph) (id : NodeId) (direction : Direction) (desc : PinDescription) :
    Except CompileError (PinId × Graph) :=
  if g.contains id then .ok (g.allocPin id direction desc) else .error (.nodeNotFound id g.name)

/-! ## Order -/

/-- Puts the live nodes of `ids` first; the others follow as they stood. -/
def setOrder (g : Graph) (ids : List NodeId) : Graph :=
  let first := ids.filter g.contains
  { g with order := g.order.foldl (fun new id => if id ∈ new then new else new ++ [id]) first }

/-! ## References and tokens -/

def nodeRef (g : Graph) (id : NodeId) : ObjectRef := .node g.name id

def pinRef (g : Graph) (id : PinId) : ObjectRef :=
  .pin g.name ((g.ownerOf? id).getD .unknown) id

def nodeTitle (g : Graph) (id : NodeId) : String := ((g.node? id).map (·.title)).getD id.text

def nodeToken (g : Graph) (id : NodeId) : SourceToken := ⟨g.nodeRef id, g.nodeTitle id⟩

/-- A pin is shown with the title of its node in brackets. -/
def pinToken (g : Graph) (id : PinId) : SourceToken :=
  ⟨g.pinRef id, match g.pin? id with
    | some p => p.name ++ " (" ++ ((g.node? p.owner).map (·.title)).getD "" ++ ")"
    | none => id.text⟩

def token (g : Graph) : SourceToken := ⟨.graph g.name, g.name⟩

end Graph

end VisualScript
