import VisualScript.Expand.SpawnGrid
import VisualScript.Graph.Link
import VisualScript.Timeline

/-!
# Expanding timelines

A timeline node keeps its data outputs, which read members of the class, and
loses its exec pins: each wired control becomes a call of the method of that name
on the timeline component, and each exec output becomes an internal event.
-/

namespace VisualScript

/-- The class of the components that play timelines. -/
def timelineComponentClass : String := "TimelineComponent"

/-- The control that also takes a time. -/
def setNewTime : String := "SetNewTime"

namespace Graph.Edit

def ofExcept (g : Graph) : Except CompileError Graph → Edit
  | .ok g => ⟨g, none⟩
  | .error e => ⟨g, some e⟩

/-- Goes on with another edit unless this one was stopped. -/
def andThen (e : Edit) (f : Graph → Edit) : Edit :=
  match e.problem? with
  | none => f e.graph
  | some _ => e

end Graph.Edit

namespace Timelines

open VisualScript.Graph (Edit)

/-- A graph and log while a timeline node is expanded. -/
structure State where
  graph : Graph
  log : MessageLog
  /-- The node that reads the timeline component, once there is one. -/
  getter : Option NodeId := none

/-- The node that reads the component, made on first use. -/
def getterFor (s : State) (template : TimelineTemplate) (position : Position) : NodeId × State :=
  match s.getter with
  | some id => (id, s)
  | none =>
    let var := VariableReference.selfMember template.name (.object timelineComponentClass)
    let (id, g) := s.graph.spawnIntermediate (.variableGet var)
    let g := g.setPosition id (position.x - SpawnGrid.nodeWidth) position.y
    (id, { s with graph := g, getter := some id })

/-- Moves the time that the node takes to a new input of the call. -/
def moveNewTime (node call : NodeId) (g : Graph) : Edit :=
  match g.addPin call .input { name := PinName.newTime, ty := .float } with
  | .error e => ⟨g, some e⟩
  | .ok (newTime, g) => match g.findPin? node PinName.newTime (some .input) with
    | some source => g.movePinLinks source newTime
    | none => ⟨g, none⟩

/-- Connects the component to the call and moves the links of the control to it. -/
def wireControl (g : Graph) (template : TimelineTemplate) (control : String)
    (node component call : NodeId) (controlPin : PinId) : Edit :=
  let e := (Edit.ofExcept g (g.connect component template.name call PinName.self)).andThen
    fun g => match g.findPin call PinName.execute (some .input) with
      | .error e => ⟨g, some e⟩
      | .ok execute => g.movePinLinks controlPin execute
  if control = setNewTime then e.andThen (moveNewTime node call) else e

/-- Makes the call for a control that something is wired to. -/
def expandControl (node : NodeId) (template : TimelineTemplate) (position : Position) (s : State)
    (control : String × Nat) : State :=
  match s.graph.findPin? node control.1 (some .input) with
  | none => s
  | some controlPin =>
    if (s.graph.linksOf controlPin).isEmpty then s
    else
      let source := s.graph.nodeRef node
      let (component, s) := getterFor s template position
      let log := s.log.addSource (s.graph.nodeRef component) source
      let (call, g) := s.graph.spawnIntermediate
        (.callFunction (.external control.1 timelineComponentClass false))
      let g := g.setPosition call position.x
        (position.y + (control.2 + 1 : Int) * SpawnGrid.nodeHeight)
      let log := log.addSource (g.nodeRef call) source
      let e := wireControl g template control.1 node component call controlPin
      let log := match e.problem? with
        | none => log
        | some problem => log.error
          s!"Failed to expand timeline control '{control.1}' on @@: {problem.message}"
          [e.graph.nodeToken node]
      { s with graph := e.graph, log }

/-- The event of a track: an event that implements its function, or a new one. -/
def eventFor (s : State) (node : NodeId) (position : Position) (function : String) (row : Nat) :
    NodeId × State :=
  let implements : NodeKind → Bool
    | .event e => e.function == function
    | _ => false
  match (s.graph.nodesWhere implements).head? with
  | some event => (event, s)
  | none =>
    let (event, g) := s.graph.spawnIntermediate (.event { function, isInternal := true })
    let g := g.setPosition event (position.x + SpawnGrid.nodeWidth)
      (position.y + (row : Int) * SpawnGrid.nodeHeight)
    (event, { s with graph := g, log := s.log.addSource (g.nodeRef event) (g.nodeRef node) })

/-- Moves the links of a track pin to the event of the track. -/
def expandTrack (node : NodeId) (position : Position) (s : State)
    (track : (String × String) × Nat) : State :=
  let ((pinName, function), row) := track
  let (event, s) := eventFor s node position function row
  match s.graph.findPin? node pinName (some .output),
      s.graph.findPin? event PinName.thenOut (some .output) with
  | some trackPin, some thenPin =>
    let e := s.graph.movePinLinks trackPin thenPin
    let log := match e.problem? with
      | none => s.log
      | some problem => s.log.error
        s!"Failed to route timeline track '{pinName}' of @@: {problem.message}"
        [e.graph.nodeToken node]
    { s with graph := e.graph, log }
  | _, _ => s

/-- The exec outputs of a timeline and the functions that they become. -/
def tracks (template : TimelineTemplate) : List (String × String) :=
  template.eventTracks.map (fun t => (t, template.eventFunctionName t))
    ++ [(PinName.update, template.updateFunctionName),
      (PinName.finished, template.finishedFunctionName)]

def positionOf (g : Graph) (id : NodeId) : Position :=
  ((g.node? id).map (·.position)).getD .origin

def expandNode (template : TimelineTemplate) (node : NodeId) (s : State) : State :=
  let position := positionOf s.graph node
  let s := NodeKind.timelineControls.zipIdx.foldl (expandControl node template position)
    { s with getter := none }
  (tracks template).zipIdx.foldl (expandTrack node (positionOf s.graph node)) s

end Timelines

/-- Expands every timeline node, and says whether each of them has a template. -/
def expandTimelines (g : Graph) (templates : List TimelineTemplate) (log : MessageLog) :
    Bool × Graph × MessageLog :=
  let isTimeline : NodeKind → Bool
    | .timeline _ => true
    | _ => false
  (g.nodesWhere isTimeline).foldl
    (fun (ok, g, log) node => match g.kind? node with
      | some (.timeline name) => match templates.find? (·.name == name) with
        | none => (false, g, log.error
            s!"Timeline node @@ references a missing timeline template '{name}'"
            [g.nodeToken node])
        | some template =>
          let s := Timelines.expandNode template node { graph := g, log }
          (ok, s.graph, s.log)
      | _ => (ok, g, log))
    (true, g, log)

end VisualScript
