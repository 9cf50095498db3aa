import VisualScript.Expand.SpawnGrid
import VisualScript.Graph.Fragment

/-!
# Expanding macros

Every macro instance is replaced by a copy of the body of its macro.  The
boundary of the body are its tunnels: what is wired to a pin of the instance is
wired to what the tunnel pin of the same name is wired to, and the tunnels go.
Instances inside a body are expanded in the next pass.
-/

namespace VisualScript

/-- An expansion under way. -/
structure Expansion where
  graph : Graph
  log : MessageLog
  grid : SpawnGrid := {}
  /-- Whether everything could be expanded so far. -/
  ok : Bool := true
  deriving Inhabited

namespace Expansion

def error (e : Expansion) (text : String) (tokens : List SourceToken) : Expansion :=
  { e with log := e.log.error text tokens }

/-- Reports what could not be expanded. -/
def fail (e : Expansion) (text : String) (tokens : List SourceToken) : Expansion :=
  { e.error text tokens with ok := false }

end Expansion

/-! ## Bodies -/

namespace Graph

/-- Gives every wildcard pin of the nodes of the graph a type. -/
def resolveWildcards (g : Graph) (resolved : PinType) : Graph :=
  (g.order.flatMap g.pinsOf).foldl
    (fun g p => g.modifyPin p fun pin =>
      if pin.ty.isWildcard then { pin with ty := pin.ty.resolveWildcard resolved } else pin) g

/-- The body that an instance is replaced by. -/
def macroBody (source : Graph) (data : MacroData) : Graph :=
  let body := source.copyAs (source.name ++ "_expansion")
  match data.resolvedWildcardType with
  | some resolved => body.resolveWildcards resolved
  | none => body

/-- Places a node to the left of another. -/
def placeLeftOf (g : Graph) (n beside : NodeId) : Graph :=
  match (g.node? beside).map (·.position) with
  | some pos => g.setPosition n (pos.x - SpawnGrid.nodeWidth) pos.y
  | none => g

end Graph

namespace Expansion

/-- Gives an array input without links an empty array to read. -/
def addEmptyArray (inst : NodeId) (e : Expansion) (p : PinId) : Expansion :=
  match e.graph.pin? p with
  | none => e
  | some pin =>
    if !pin.ty.isArray || pin.isLinked then e
    else
      let (array, g) := e.graph.spawnIntermediate (.makeArray pin.ty.element 0)
      let g := g.placeLeftOf array inst
      match g.findPin? array PinName.array (some .output) with
      | none => { e with graph := g }
      | some output => match g.makeLink output p with
        | .ok g => { e with graph := g }
        | .error _ =>
          { e with graph := g }.error "Failed to create an empty array for @@" [g.pinToken p]

def addEmptyArrays (e : Expansion) (inst : NodeId) : Expansion :=
  (e.graph.filteredPins inst .input false).foldl (addEmptyArray inst) e

/-- Records where the copied nodes and pins of a body come from. -/
def recordCopies (e : Expansion) (source body : Graph) (inst : NodeId) (r : Remap) : Expansion :=
  let instRef := e.graph.nodeRef inst
  let e := body.order.foldl (fun e old => match r.node? old with
    | none => e
    | some new => { e with
        log := e.log.addMacroNode (e.graph.nodeRef new) (source.nodeRef old) instRef
        graph := e.graph.modifyNode new fun n => { n with isIntermediate := true } }) e
  { e with
    log := r.pins.foldl
      (fun log p => log.addSource (e.graph.pinRef p.2) (source.pinRef p.1)) e.log }

/-- Moves the copied nodes into a cell of the grid or to the place of the instance. -/
def placeCopies (e : Expansion) (source : Graph) (inst : NodeId) (copies : List NodeId)
    (keep : Bool) : Expansion :=
  if keep then
    let (comment, grid, g) := e.grid.placeSection e.graph copies ("Macro: " ++ source.name)
    let log := match comment with
      | some comment => e.log.addSource (g.nodeRef comment) (g.nodeRef inst)
      | none => e.log
    { e with graph := g, grid, log }
  else match (e.graph.node? inst).map (·.position) with
    | none => e
    | some anchor =>
      let b := (Bounds.ofPositions? (e.graph.positionsOf copies)).getD ⟨0, 0, 0, 0⟩
      { e with graph := e.graph.offsetNodes copies (anchor.x - b.left) (anchor.y - b.top) }

end Expansion

/-! ## Tunnels -/

namespace Graph

/-- Links every source to every target, up to the first link that is refused. -/
def linkPairs (g : Graph) : List (PinId × PinId) → Graph × Bool
  | [] => (g, true)
  | (source, target) :: rest => match g.makeLink source target with
    | .ok g => g.linkPairs rest
    | .error _ => (g, false)

/-- Wires sources to targets; targets without a source take the defaults of the boundary pin. -/
def wire (g : Graph) (sources targets : List PinId) (boundary : PinId) : Graph × Bool :=
  if sources.isEmpty then
    let (value, object) := match g.pin? boundary with
      | some pin => (pin.defaultValue, pin.defaultObject)
      | none => ("", none)
    (targets.foldl (fun g t => g.setDefaults t value object) g, true)
  else g.linkPairs (targets.flatMap fun t => sources.map (·, t))

/-- Wires what is outside an instance pin to what is inside a tunnel pin. -/
def rewireThrough (g : Graph) (instPin tunnelPin : PinId) (entry : Bool) : Graph × Bool :=
  let outside := g.linksOf instPin
  let inside := g.linksOf tunnelPin
  let g := g.breakPinLinks tunnelPin
  if entry then g.wire outside inside instPin else g.wire inside outside tunnelPin

end Graph

namespace Expansion

/-- Rewires one pin of a tunnel.  The entry has the inputs of the instance as outputs, the
exit has its outputs as inputs. -/
def collapsePin (tunnel inst : NodeId) (entry : Bool) (e : Expansion) (p : PinId) : Expansion :=
  let side : Direction := if entry then .output else .input
  match e.graph.pin? p with
  | none => e
  | some pin =>
    if pin.direction ≠ side then e
    else match e.graph.findPin? inst pin.name (some side.opposite) with
      | none => e.fail "Failed to collapse tunnel @@" [e.graph.pinToken p]
      | some instPin =>
        let (g, ok) := e.graph.rewireThrough instPin p entry
        let e := { e with graph := g }
        if ok then e else e.fail "Failed to collapse tunnel @@" [g.nodeToken tunnel]

def collapseTunnel (inst : NodeId) (e : Expansion) (tunnel : NodeId) : Expansion :=
  match e.graph.kind? tunnel with
  | some (.tunnel entry) =>
    let e := (e.graph.pinsOf tunnel).foldl (collapsePin tunnel inst entry) e
    { e with graph := e.graph.removeNode tunnel }
  | _ => e

/-- The tunnels among some nodes.  Entries come first, so that a wire straight through the
body reaches the exit. -/
def tunnelsOf (g : Graph) (ids : List NodeId) : List NodeId :=
  let tunnels := ids.filter fun id => g.kindIs id (·.isTunnel)
  let isEntry := fun id => g.kind? id = some (.tunnel true)
  tunnels.filter isEntry ++ tunnels.filter (!isEntry ·)

/-! ## Instances -/

/-- Replaces an instance by the body of its macro. -/
def expandInstance (macros : List Graph) (keep : Bool) (e : Expansion) (inst : NodeId) :
    Expansion :=
  match e.graph.kind? inst with
  | some (.macroInstance data) =>
    match macros.find? (·.name == data.macroGraph) with
    | none =>
      let e := e.fail "Macro node @@ is pointing at an invalid macro graph."
        [e.graph.nodeToken inst]
      { e with graph := e.graph.removeNode inst }
    | some source =>
      let body := source.macroBody data
      let e := e.addEmptyArrays inst
      let (r, g) := e.graph.mergeFragment body
      let copies := body.order.filterMap r.node?
      let e := { e with graph := g }.recordCopies source body inst r
      let e := e.placeCopies source inst copies keep
      let e := (tunnelsOf e.graph copies).foldl (collapseTunnel inst) e
      { e with graph := e.graph.removeNode inst }
  | _ => e

def instances (e : Expansion) : List NodeId := e.graph.nodesWhere (·.isMacroInstance)

/-- Removes an instance that is still there after the last pass. -/
def abandon (e : Expansion) (inst : NodeId) : Expansion :=
  let e := e.fail "Macro node @@ is nested too deeply to expand (is it recursive?)"
    [e.graph.nodeToken inst]
  { e with graph := e.graph.removeNode inst }

/-- Expands the instances of the graph in passes, until none is left or no pass is. -/
def expandPasses (macros : List Graph) (keep : Bool) : Nat → Expansion → Expansion
  | 0, e => e.instances.foldl abandon e
  | passes + 1, e =>
    if e.instances.isEmpty then e
    else expandPasses macros keep passes (e.instances.foldl (expandInstance macros keep) e)

/-- Macros that nest deeper than this are not expanded. -/
def maxPasses : Nat := 64

end Expansion

/-- Expands every macro instance.  With `keep` the sections are laid out for inspection. -/
def expandMacros (g : Graph) (macros : List Graph) (log : MessageLog) (keep : Bool) : Expansion :=
  Expansion.expandPasses macros keep Expansion.maxPasses { graph := g, log }

end VisualScript
