import VisualScript.Graph.Basic

/-!
# Links

Making a link checks it first and changes nothing when it is refused.  Copying
the links of a pin makes them one by one and stops at the first that is refused,
keeping those made before.
-/

namespace VisualScript.Graph

/-! ## Making and breaking -/

/-- Links an output to an input, in either order.  A link that `a` already lists is kept. -/
def makeLink (g : Graph) (a b : PinId) : Except CompileError Graph := do
  let pa ← g.pin a
  let pb ← g.pin b
  if pa.direction = pb.direction then throw (.sameDirection pa.name pb.name)
  if pa.owner = pb.owner then throw (.sameOwner pa.name pb.name)
  if b ∈ pa.links then return g
  let g := g.modifyPin a fun p => { p with links := p.links ++ [b] }
  return g.modifyPin b fun p => { p with links := p.links ++ [a] }

/-- Links a named output of one node to a named input of another. -/
def connect (g : Graph) (source : NodeId) (output : String) (target : NodeId) (input : String) :
    Except CompileError Graph := do
  let a ← g.findPin source output (some .output)
  let b ← g.findPin target input (some .input)
  g.makeLink a b

def breakLink (g : Graph) (a b : PinId) : Graph :=
  let g := g.modifyPin a fun p => { p with links := p.links.filter (· ≠ b) }
  g.modifyPin b fun p => { p with links := p.links.filter (· ≠ a) }

def breakPinLinks (g : Graph) (id : PinId) : Graph :=
  (g.linksOf id).foldl (fun g other => g.breakLink id other) g

def breakNodeLinks (g : Graph) (id : NodeId) : Graph := (g.pinsOf id).foldl breakPinLinks g

/-! ## Removing -/

/-- Breaks every link of a node and frees it with its pins. -/
def removeNode (g : Graph) (id : NodeId) : Graph :=
  if g.contains id then
    let g := g.breakNodeLinks id
    { g with
      nodes := g.nodes.free id.index
      pins := (g.pinsOf id).foldl (fun pins p => pins.free p.index) g.pins
      order := g.order.filter (· ≠ id) }
  else g

/-- Breaks the links of a pin, takes it off its node and frees it. -/
def removePin (g : Graph) (id : PinId) : Graph :=
  match g.ownerOf? id with
  | none => g
  | some owner =>
    let g := (g.breakPinLinks id).modifyNode owner fun n =>
      { n with pins := n.pins.filter (· ≠ id) }
    { g with pins := g.pins.free id.index }

/-! ## Moving -/

/-- What an edit leaves behind and what stopped it, if anything did. -/
structure Edit where
  graph : Graph
  problem? : Option CompileError

/-- Links `target` to the pins in turn, up to the first that refuses. -/
def linkAll (g : Graph) (target : PinId) : List PinId → Edit
  | [] => ⟨g, none⟩
  | p :: rest => match g.makeLink target p with
    | .ok g => g.linkAll target rest
    | .error e => ⟨g, some e⟩

/-- Gives `target` the links of `source` too and, if it is an input, the defaults. -/
def copyPinLinks (g : Graph) (source target : PinId) : Edit :=
  match g.pin source, g.pin target with
  | .error e, _ => ⟨g, some e⟩
  | .ok _, .error e => ⟨g, some e⟩
  | .ok p, .ok _ => match g.linkAll target p.links with
    | ⟨g, some e⟩ => ⟨g, some e⟩
    | ⟨g, none⟩ =>
      ⟨g.modifyPin target fun q =>
        if q.direction = .input then
          { q with defaultValue := p.defaultValue, defaultObject := p.defaultObject }
        else q, none⟩

/-- Copies the links and then breaks them on `source`. -/
def movePinLinks (g : Graph) (source target : PinId) : Edit :=
  match g.copyPinLinks source target with
  | ⟨g, some e⟩ => ⟨g, some e⟩
  | ⟨g, none⟩ => ⟨g.breakPinLinks source, none⟩

end VisualScript.Graph
