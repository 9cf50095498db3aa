import VisualScript.Handler.Call
import VisualScript.Proofs.Graph.Pins
import VisualScript.Proofs.Log
import VisualScript.Proofs.Terminals.Basic

/-!
# The graphs of stubs

A stub has an entry with the parameters of its event, a call of the event graph, and,
if there are parameters, an assignment of each to the member that stores it.
-/

namespace VisualScript

namespace EventStub

open VisualScript.Graph

/-! ## Parameters -/

/-- A parameter of a stub with its storage, the pin that it is on the entry, and the pin of the
assignment that it feeds. -/
structure Handover where
  param : EventParameter
  storage : String
  output : PinId
  input : PinId

namespace Handover

def named (w : Handover) : EventParameter × String := (w.param, w.storage)

def outputPin (w : Handover) (entry : NodeId) : Pin where
  id := w.output
  owner := entry
  name := w.param.name
  direction := .output
  ty := w.param.ty
  links := [w.input]

def inputPin (w : Handover) (assign : NodeId) : Pin where
  id := w.input
  owner := assign
  name := w.storage
  direction := .input
  ty := w.param.ty
  links := [w.output]

end Handover

/-- The graph has grown by pins that hand parameters from the entry to the assignment. -/
structure Grown (entry assign : NodeId) (g₀ g : Graph) (ws : List Handover) : Prop where
  order : g.order = g₀.order
  kind? : ∀ n, g.kind? n = g₀.kind? n
  onEntry : g.pinsOf entry = g₀.pinsOf entry ++ ws.map (·.output)
  onAssign : g.pinsOf assign = g₀.pinsOf assign ++ ws.map (·.input)
  elsewhere : ∀ n, n ≠ entry → n ≠ assign → g.pinsOf n = g₀.pinsOf n
  old : ∀ p pin, g₀.pin? p = some pin → g.pin? p = some pin
  new : ∀ w ∈ ws, g.pin? w.output = some (w.outputPin entry) ∧
    g.pin? w.input = some (w.inputPin assign)

variable {entry assign : NodeId} {g₀ g g' : Graph} {named : List (EventParameter × String)}
  {ws : List Handover}

theorem Grown.refl (g : Graph) : Grown entry assign g g [] where
  order := rfl
  kind? _ := rfl
  onEntry := (List.append_nil _).symm
  onAssign := (List.append_nil _).symm
  elsewhere _ _ _ := rfl
  old _ _ := id
  new _ hw := by cases hw

theorem Grown.trans {g'' : Graph} {ws' : List Handover} (h : Grown entry assign g g' ws)
    (h' : Grown entry assign g' g'' ws') : Grown entry assign g g'' (ws ++ ws') where
  order := h'.order.trans h.order
  kind? n := (h'.kind? n).trans (h.kind? n)
  onEntry := by rw [h'.onEntry, h.onEntry, List.append_assoc, List.map_append]
  onAssign := by rw [h'.onAssign, h.onAssign, List.append_assoc, List.map_append]
  elsewhere n hn hn' := (h'.elsewhere n hn hn').trans (h.elsewhere n hn hn')
  old p pin hp := h'.old p pin (h.old p pin hp)
  new w hw := by
    rcases List.mem_append.1 hw with hw | hw
    · exact ⟨h'.old _ _ (h.new w hw).1, h'.old _ _ (h.new w hw).2⟩
    · exact h'.new w hw

/-- One parameter. -/
theorem grown_storeParameter {e : EventParameter × String} (hne : entry ≠ assign)
    (h : storeParameter entry assign g e = .ok g') :
    ∃ w : Handover, w.named = e ∧ Grown entry assign g g' [w] := by
  unfold storeParameter at h
  obtain ⟨⟨p, g₁⟩, hp, h⟩ := bind_eq_ok.1 h
  obtain ⟨⟨q, g₂⟩, hq, hlink⟩ := bind_eq_ok.1 h
  have houtput := addsPin_of_addPin hp
  have hinput := addsPin_of_addPin hq
  have hpin := (houtput.pin? p).trans (if_pos rfl)
  have hpq : p ≠ q := by
    rintro rfl
    rw [hinput.fresh] at hpin
    cases hpin
  have hpin₂ := ((hinput.pin? p).trans (if_neg hpq)).trans hpin
  have hqin₂ := (hinput.pin? q).trans (if_pos rfl)
  have hfaces := sameFaces_makeLink hlink
  have hlinked := pin?_makeLink hlink hpin₂ hqin₂ rfl rfl
  refine ⟨⟨e.1, e.2, p, q⟩, rfl, ?_⟩
  exact {
    order := hfaces.order.trans (hinput.order.trans houtput.order)
    kind? := fun n ↦ (hfaces.kind?_eq n).trans ((hinput.kind? n).trans (houtput.kind? n))
    onEntry := by
      rw [hfaces.pinsOf_eq, hinput.pinsOf, if_neg hne.symm, houtput.pinsOf, if_pos rfl]
      rfl
    onAssign := by
      rw [hfaces.pinsOf_eq, hinput.pinsOf, if_pos rfl, houtput.pinsOf, if_neg hne]
      rfl
    elsewhere := fun n hn hn' ↦ by
      rw [hfaces.pinsOf_eq, hinput.pinsOf, if_neg hn'.symm, houtput.pinsOf, if_neg hn.symm]
    old := fun r pin hr ↦ by
      have hrp : r ≠ p := by
        rintro rfl
        rw [houtput.fresh] at hr
        cases hr
      have hrq : r ≠ q := by
        rintro rfl
        have hfresh := hinput.fresh
        rw [houtput.pin?, if_neg hrp, hr] at hfresh
        cases hfresh
      rw [hlinked, if_neg hrp, if_neg hrq, hinput.pin?, if_neg hrq, houtput.pin?, if_neg hrp, hr]
    new := fun w hw ↦ by
      rw [List.mem_singleton.1 hw]
      exact ⟨(hlinked p).trans (if_pos rfl),
        (hlinked q).trans ((if_neg hpq.symm).trans (if_pos rfl))⟩ }

/-- All parameters. -/
theorem grown_storeParameters (hne : entry ≠ assign)
    (h : named.foldlM (storeParameter entry assign) g = .ok g') :
    ∃ ws : List Handover, ws.map (·.named) = named ∧ Grown entry assign g g' ws := by
  induction named generalizing g with
  | nil =>
    cases h
    exact ⟨[], rfl, .refl _⟩
  | cons e named ih =>
    obtain ⟨g₁, hfirst, hrest⟩ := bind_eq_ok.1 h
    obtain ⟨w, rfl, hgrown⟩ := grown_storeParameter hne hfirst
    obtain ⟨ws, rfl, hgrown'⟩ := ih hrest
    exact ⟨w :: ws, rfl, hgrown.trans hgrown'⟩

/-! ## Frames -/

/-- The entry of a stub. -/
def entryId : NodeId := ⟨0⟩

/-- The call of the event graph. -/
def callId : NodeId := ⟨1⟩

/-- The assignment of the parameters. -/
def assignId : NodeId := ⟨2⟩

/-- The pin of a call that takes where to enter the event graph. -/
def pointPin : PinDescription := { name := PinName.entryPoint, ty := .int, defaultValue := "0" }

/-- The entry and the call of a stub, before they are wired. -/
def frame (data : EventData) (ubergraph : String) : Graph :=
  let (_, g) := (Graph.empty data.function).spawnIntermediate (.functionEntry
    { extraFlags := data.functionFlags, customName := some data.function })
  let (call, g) := g.spawnIntermediate (.callFunction (.selfCall ubergraph))
  g.setPosition call (2 * SpawnGrid.nodeWidth) 0

/-- The call takes where to enter. -/
def calling (data : EventData) (ubergraph : String) : Graph :=
  ((frame data ubergraph).allocPin callId .input pointPin).2

/-- There is an assignment for the parameters. -/
def assigning (data : EventData) (ubergraph : String) : Graph :=
  ((calling data ubergraph).spawnIntermediate (.variableSet none)).2.setPosition assignId
    SpawnGrid.nodeWidth 0

def execPin (id : Nat) (owner : NodeId) (name : String) (direction : Direction)
    (links : List PinId) : Pin :=
  { id := ⟨id⟩, owner, name, direction, ty := .exec, links }

/-- The pins of an entry that goes on to `next`. -/
def entryPins (params : List Pin) (next : List PinId) : List Pin :=
  execPin 0 entryId PinName.thenOut .output next :: params

/-- The pins of a call that nothing is linked to. -/
def freePins : List Pin := [
  execPin 2 callId PinName.thenOut .output [],
  { id := ⟨3⟩, owner := callId, name := PinName.self, direction := .input, ty := .selfObject },
  { id := ⟨4⟩, owner := callId, name := PinName.entryPoint, direction := .input, ty := .int
    defaultValue := "0" }]

/-- The pins of a call that comes after `before`. -/
def callPins (before : List PinId) : List Pin :=
  execPin 1 callId PinName.execute .input before :: freePins

/-- The pins of an assignment that comes after `before` and goes on to `next`. -/
def assignPins (values : List Pin) (before next : List PinId) : List Pin :=
  execPin 5 assignId PinName.execute .input before ::
    execPin 6 assignId PinName.thenOut .output next :: values

/-- The graph has an entry and a call. -/
structure Framed (data : EventData) (ubergraph : String) (params : List Pin)
    (next before : List PinId) (g : Graph) : Prop where
  entryKind : g.kind? entryId = some (.functionEntry
    { extraFlags := data.functionFlags, customName := some data.function })
  callKind : g.kind? callId = some (.callFunction (.selfCall ubergraph))
  entry : g.HasPins entryId (entryPins params next)
  call : g.HasPins callId (callPins before)

/-- The graph has an assignment. -/
structure Assigned (values : List Pin) (before next : List PinId) (g : Graph) : Prop where
  kind? : g.kind? assignId = some (.variableSet none)
  pins : g.HasPins assignId (assignPins values before next)

theorem size_empty {α : Type} : (Slots.empty : Slots α).size = 0 := rfl

section Frames

variable (data : EventData) (ubergraph : String)

theorem framed_calling : Framed data ubergraph [] [] [] (calling data ubergraph) := by
  refine ⟨?_, ?_, ⟨?_, ?_⟩, ⟨?_, ?_⟩⟩ <;>
  simp [calling, frame, spawnIntermediate, spawn, NodeKind.startingPins, NodeKind.execIn,
    NodeKind.execOut, allocPin, modifyNode, setPosition, CallData.selfCall, Graph.empty,
    Graph.pinsOf, Graph.kind?, node?, Graph.pin?, size_empty, entryId, callId, pointPin, execPin,
    entryPins, callPins, freePins]

theorem order_calling : (calling data ubergraph).order = [entryId, callId] := by
  simp [calling, frame, spawnIntermediate, spawn, NodeKind.startingPins, NodeKind.execIn,
    NodeKind.execOut, allocPin, modifyNode, setPosition, CallData.selfCall, Graph.empty,
    size_empty, entryId, callId]

theorem framed_assigning : Framed data ubergraph [] [] [] (assigning data ubergraph) := by
  refine ⟨?_, ?_, ⟨?_, ?_⟩, ⟨?_, ?_⟩⟩ <;>
  simp [assigning, calling, frame, spawnIntermediate, spawn, NodeKind.startingPins,
    NodeKind.execIn, NodeKind.execOut, allocPin, modifyNode, setPosition, CallData.selfCall,
    Graph.empty, Graph.pinsOf, Graph.kind?, node?, Graph.pin?, size_empty, entryId, callId,
    assignId, pointPin, execPin, entryPins, callPins, freePins]

theorem assigned_assigning : Assigned [] [] [] (assigning data ubergraph) := by
  refine ⟨?_, ⟨?_, ?_⟩⟩ <;>
  simp [assigning, calling, frame, spawnIntermediate, spawn, NodeKind.startingPins,
    NodeKind.execIn, NodeKind.execOut, allocPin, modifyNode, setPosition, CallData.selfCall,
    Graph.empty, Graph.pinsOf, Graph.kind?, node?, Graph.pin?, size_empty, callId, assignId,
    pointPin, execPin, assignPins]

theorem order_assigning : (assigning data ubergraph).order = [entryId, callId, assignId] := by
  simp [assigning, calling, frame, spawnIntermediate, spawn, NodeKind.startingPins,
    NodeKind.execIn, NodeKind.execOut, allocPin, modifyNode, setPosition, CallData.selfCall,
    Graph.empty, size_empty, entryId, callId, assignId]

end Frames

section Grown

variable {data : EventData} {ubergraph : String} (h : Grown entryId assignId g₀ g ws)
include h

/-- Parameters are added to a frame. -/
theorem Grown.framed (hframed : Framed data ubergraph [] [] [] g₀) :
    Framed data ubergraph (ws.map (·.outputPin entryId)) [] [] g where
  entryKind := (h.kind? _).trans hframed.entryKind
  callKind := (h.kind? _).trans hframed.callKind
  entry := by
    refine ⟨?_, List.forall_mem_cons.2 ⟨?_, List.forall_mem_map.2 fun w hw ↦ (h.new w hw).1⟩⟩
    · rw [h.onEntry, hframed.entry.pinsOf]
      simp [entryPins, Handover.outputPin]
    · exact h.old _ _ (hframed.entry.pin? _ List.mem_cons_self)
  call := ⟨(h.elsewhere _ (by decide) (by decide)).trans hframed.call.pinsOf,
    fun pin hpin ↦ h.old _ _ (hframed.call.pin? pin hpin)⟩

theorem Grown.assigned (hassigned : Assigned [] [] [] g₀) :
    Assigned (ws.map (·.inputPin assignId)) [] [] g where
  kind? := (h.kind? _).trans hassigned.kind?
  pins := by
    refine ⟨?_, List.forall_mem_cons.2 ⟨?_, List.forall_mem_cons.2 ⟨?_,
      List.forall_mem_map.2 fun w hw ↦ (h.new w hw).2⟩⟩⟩
    · rw [h.onAssign, hassigned.pins.pinsOf]
      simp [assignPins, Handover.inputPin]
    · exact h.old _ _ (hassigned.pins.pin? _ List.mem_cons_self)
    · exact h.old _ _ (hassigned.pins.pin? _ (List.mem_cons_of_mem _ List.mem_cons_self))

end Grown

/-! ## Wiring -/

section Relink

variable {data : EventData} {ubergraph : String} {params values : List Pin}
  {next before next' before' : List PinId}

theorem Framed.relink (h : Framed data ubergraph params next before g) (hfaces : SameFaces g g')
    (hnext : g'.pin? ⟨0⟩ = some (execPin 0 entryId PinName.thenOut .output next'))
    (hparams : ∀ pin ∈ params, g'.pin? pin.id = some pin)
    (hbefore : g'.pin? ⟨1⟩ = some (execPin 1 callId PinName.execute .input before'))
    (hfree : ∀ pin ∈ freePins, g'.pin? pin.id = some pin) :
    Framed data ubergraph params next' before' g' where
  entryKind := (hfaces.kind?_eq _).trans h.entryKind
  callKind := (hfaces.kind?_eq _).trans h.callKind
  entry := ⟨(hfaces.pinsOf_eq _).trans h.entry.pinsOf, List.forall_mem_cons.2 ⟨hnext, hparams⟩⟩
  call := ⟨(hfaces.pinsOf_eq _).trans h.call.pinsOf, List.forall_mem_cons.2 ⟨hbefore, hfree⟩⟩

theorem Assigned.relink (h : Assigned values before next g) (hfaces : SameFaces g g')
    (hbefore : g'.pin? ⟨5⟩ = some (execPin 5 assignId PinName.execute .input before'))
    (hnext : g'.pin? ⟨6⟩ = some (execPin 6 assignId PinName.thenOut .output next'))
    (hvalues : ∀ pin ∈ values, g'.pin? pin.id = some pin) :
    Assigned values before' next' g' where
  kind? := (hfaces.kind?_eq _).trans h.kind?
  pins := ⟨(hfaces.pinsOf_eq _).trans h.pins.pinsOf,
    List.forall_mem_cons.2 ⟨hbefore, List.forall_mem_cons.2 ⟨hnext, hvalues⟩⟩⟩

section Framed

variable (h : Framed data ubergraph params next before g)
include h

theorem Framed.entryThen :
    g.pin? ⟨0⟩ = some (execPin 0 entryId PinName.thenOut .output next) :=
  h.entry.pin? _ List.mem_cons_self

theorem Framed.callExecute :
    g.pin? ⟨1⟩ = some (execPin 1 callId PinName.execute .input before) :=
  h.call.pin? _ List.mem_cons_self

theorem Framed.findPin?_then : g.findPin? entryId PinName.thenOut (some .output) = some ⟨0⟩ := by
  rw [h.entry.findPin?]
  rfl

theorem Framed.findPin?_execute :
    g.findPin? callId PinName.execute (some .input) = some ⟨1⟩ := by
  rw [h.call.findPin?]
  rfl

/-- The pins of the call that are free stay so when others are linked. -/
theorem Framed.free_of_link {p q : PinId} (hlink : ∀ r, r ≠ p → r ≠ q → g'.pin? r = g.pin? r)
    (hp : p.index ≤ 1 ∨ 5 ≤ p.index) (hq : q.index ≤ 1 ∨ 5 ≤ q.index) :
    ∀ pin ∈ freePins, g'.pin? pin.id = some pin := by
  intro pin hpin
  have hindex : 1 < pin.id.index ∧ pin.id.index < 5 := by
    revert pin
    decide
  rw [hlink, h.call.pin? pin (List.mem_cons_of_mem _ hpin)]
  all_goals
    rintro rfl
    omega

end Framed

section Assigned

variable (h : Assigned values before next g)
include h

theorem Assigned.execute :
    g.pin? ⟨5⟩ = some (execPin 5 assignId PinName.execute .input before) :=
  h.pins.pin? _ List.mem_cons_self

theorem Assigned.thenOut :
    g.pin? ⟨6⟩ = some (execPin 6 assignId PinName.thenOut .output next) :=
  h.pins.pin? _ (List.mem_cons_of_mem _ List.mem_cons_self)

theorem Assigned.findPin?_execute :
    g.findPin? assignId PinName.execute (some .input) = some ⟨5⟩ := by
  rw [h.pins.findPin?]
  rfl

theorem Assigned.findPin?_then : g.findPin? assignId PinName.thenOut (some .output) = some ⟨6⟩ := by
  rw [h.pins.findPin?]
  rfl

end Assigned

end Relink

/-- The graph of a stub: the entry goes on to the call, through the assignment of the parameters
if there are any. -/
inductive Wired (data : EventData) (ubergraph : String) (g : Graph) : List Handover → Prop
  | straight : Framed data ubergraph [] [⟨1⟩] [⟨0⟩] g → g.order = [entryId, callId] →
      Wired data ubergraph g []
  | assigning {ws : List Handover} : ws ≠ [] →
      Framed data ubergraph (ws.map (·.outputPin entryId)) [⟨5⟩] [⟨6⟩] g →
      Assigned (ws.map (·.inputPin assignId)) [⟨0⟩] [⟨1⟩] g →
      g.order = [entryId, callId, assignId] → Wired data ubergraph g ws

section Wire

variable {data : EventData} {ubergraph : String}

/-- A stub without parameters goes from the entry to the call; else it goes through the assignment
that takes them. -/
theorem wire_eq_ok (h : wire (frame data ubergraph) entryId callId named = .ok g) :
    (named = [] ∧ (calling data ubergraph).connect entryId PinName.thenOut callId PinName.execute =
        .ok g) ∨
      ∃ g₁ ws g₂, named ≠ [] ∧ ws.map (·.named) = named ∧
        Grown entryId assignId (assigning data ubergraph) g₁ ws ∧
        g₁.connect entryId PinName.thenOut assignId PinName.execute = .ok g₂ ∧
        g₂.connect assignId PinName.thenOut callId PinName.execute = .ok g := by
  have hcontains : (frame data ubergraph).contains callId = true := by
    simp [frame, spawnIntermediate, spawn, NodeKind.startingPins, allocPin, modifyNode,
      setPosition, CallData.selfCall, Graph.empty, contains, node?, size_empty, callId]
  have hadd : (frame data ubergraph).addPin callId .input pointPin =
      .ok (⟨(frame data ubergraph).pins.size⟩, calling data ubergraph) := if_pos hcontains
  have hassign : ((calling data ubergraph).spawnIntermediate (.variableSet none)).1 = assignId := by
    simp [calling, frame, spawnIntermediate, spawn, NodeKind.startingPins, allocPin, modifyNode,
      setPosition, CallData.selfCall, Graph.empty, size_empty, assignId]
  unfold wire at h
  obtain ⟨r, hr, h⟩ := bind_eq_ok.1 h
  obtain rfl := Except.ok.inj (hadd.symm.trans hr)
  dsimp only at h
  rw [hassign] at h
  by_cases hnone : named = []
  · rw [if_pos (List.isEmpty_iff.2 hnone)] at h
    exact .inl ⟨hnone, h⟩
  · rw [if_neg (by simpa using hnone)] at h
    obtain ⟨g₁, hstore, h⟩ := bind_eq_ok.1 h
    obtain ⟨g₂, hfirst, hsecond⟩ := bind_eq_ok.1 h
    obtain ⟨ws, hws, hgrown⟩ := grown_storeParameters (by decide) hstore
    exact .inr ⟨g₁, ws, g₂, hnone, hws, hgrown, hfirst, hsecond⟩

/-- The entry of a frame is linked to the call. -/
theorem Framed.link_call (hframed : Framed data ubergraph [] [] [] g)
    (h : g.connect entryId PinName.thenOut callId PinName.execute = .ok g') :
    Framed data ubergraph [] [⟨1⟩] [⟨0⟩] g' ∧ g'.order = g.order := by
  rw [connect_eq_makeLink hframed.findPin?_then hframed.findPin?_execute] at h
  have hpins := pin?_makeLink h hframed.entryThen hframed.callExecute rfl rfl
  refine ⟨hframed.relink (sameFaces_makeLink h) ((hpins _).trans (if_pos rfl))
    (List.forall_mem_nil _) ((hpins _).trans ((if_neg (by decide)).trans (if_pos rfl))) ?_,
    (sameFaces_makeLink h).order⟩
  exact hframed.free_of_link (fun r hp hq ↦ by rw [hpins, if_neg hp, if_neg hq]) (by decide)
    (by decide)

section Links

variable {params values : List Pin} {next before : List PinId}
  (hparams : ∀ pin ∈ params, pin.links ≠ []) (hvalues : ∀ pin ∈ values, pin.links ≠ [])
include hparams hvalues

/-- The entry of a frame is linked to the assignment. -/
theorem Framed.link_assign (hframed : Framed data ubergraph params [] before g)
    (hassigned : Assigned values [] next g)
    (h : g.connect entryId PinName.thenOut assignId PinName.execute = .ok g') :
    Framed data ubergraph params [⟨5⟩] before g' ∧ Assigned values [⟨0⟩] next g' ∧
      g'.order = g.order := by
  rw [connect_eq_makeLink hframed.findPin?_then hassigned.findPin?_execute] at h
  have hpins := pin?_makeLink h hframed.entryThen hassigned.execute rfl rfl
  have hlinked := pin?_makeLink_of_linked h hframed.entryThen hassigned.execute rfl rfl
  refine ⟨hframed.relink (sameFaces_makeLink h) ((hpins _).trans (if_pos rfl)) (fun pin hpin ↦ ?_)
    ?_ ?_, hassigned.relink (sameFaces_makeLink h)
      ((hpins _).trans ((if_neg (by decide)).trans (if_pos rfl))) ?_ fun pin hpin ↦ ?_,
    (sameFaces_makeLink h).order⟩
  · exact hlinked _ _ (hframed.entry.pin? pin (List.mem_cons_of_mem _ hpin)) (hparams pin hpin)
  · rw [hpins, if_neg (by decide), if_neg (by decide), hframed.callExecute]
  · exact hframed.free_of_link (fun r hp hq ↦ by rw [hpins, if_neg hp, if_neg hq]) (by decide)
      (by decide)
  · rw [hpins, if_neg (by decide), if_neg (by decide), hassigned.thenOut]
  · exact hlinked _ _ (hassigned.pins.pin? pin (List.mem_cons_of_mem _
      (List.mem_cons_of_mem _ hpin))) (hvalues pin hpin)

/-- The assignment is linked to the call. -/
theorem Framed.link_execute (hframed : Framed data ubergraph params next [] g)
    (hassigned : Assigned values before [] g)
    (h : g.connect assignId PinName.thenOut callId PinName.execute = .ok g') :
    Framed data ubergraph params next [⟨6⟩] g' ∧ Assigned values before [⟨1⟩] g' ∧
      g'.order = g.order := by
  rw [connect_eq_makeLink hassigned.findPin?_then hframed.findPin?_execute] at h
  have hpins := pin?_makeLink h hassigned.thenOut hframed.callExecute rfl rfl
  have hlinked := pin?_makeLink_of_linked h hassigned.thenOut hframed.callExecute rfl rfl
  refine ⟨hframed.relink (sameFaces_makeLink h) ?_ (fun pin hpin ↦ ?_)
    ((hpins _).trans ((if_neg (by decide)).trans (if_pos rfl))) ?_,
    hassigned.relink (sameFaces_makeLink h) ?_ ((hpins _).trans (if_pos rfl)) fun pin hpin ↦ ?_,
    (sameFaces_makeLink h).order⟩
  · rw [hpins, if_neg (by decide), if_neg (by decide), hframed.entryThen]
  · exact hlinked _ _ (hframed.entry.pin? pin (List.mem_cons_of_mem _ hpin)) (hparams pin hpin)
  · exact hframed.free_of_link (fun r hp hq ↦ by rw [hpins, if_neg hp, if_neg hq]) (by decide)
      (by decide)
  · rw [hpins, if_neg (by decide), if_neg (by decide), hassigned.execute]
  · exact hlinked _ _ (hassigned.pins.pin? pin (List.mem_cons_of_mem _
      (List.mem_cons_of_mem _ hpin))) (hvalues pin hpin)

end Links

/-- What is wired without an error is a stub. -/
theorem wired_of_wire (h : wire (frame data ubergraph) entryId callId named = .ok g) :
    ∃ ws : List Handover, ws.map (·.named) = named ∧ Wired data ubergraph g ws := by
  rcases wire_eq_ok h with ⟨rfl, hlink⟩ | ⟨g₁, ws, g₂, hsome, rfl, hgrown, hfirst, hsecond⟩
  · obtain ⟨hframed, horder⟩ := (framed_calling data ubergraph).link_call hlink
    exact ⟨[], rfl, .straight hframed (horder.trans (order_calling data ubergraph))⟩
  · have hparams : ∀ pin ∈ ws.map (·.outputPin entryId), pin.links ≠ [] :=
      List.forall_mem_map.2 fun _ _ ↦ List.cons_ne_nil _ _
    have hvalues : ∀ pin ∈ ws.map (·.inputPin assignId), pin.links ≠ [] :=
      List.forall_mem_map.2 fun _ _ ↦ List.cons_ne_nil _ _
    obtain ⟨hframed, hassigned, horder⟩ := Framed.link_assign hparams hvalues
      (hgrown.framed (framed_assigning data ubergraph))
      (hgrown.assigned (assigned_assigning data ubergraph)) hfirst
    obtain ⟨hframed, hassigned, horder'⟩ := hframed.link_execute hparams hvalues hassigned hsecond
    exact ⟨ws, rfl, .assigning (by simpa using hsome) hframed hassigned (horder'.trans
      (horder.trans (hgrown.order.trans (order_assigning data ubergraph))))⟩

end Wire

/-! ## What a stub consists of -/

section Framed

variable {data : EventData} {ubergraph : String} {params : List Pin} {next before : List PinId}
  (h : Framed data ubergraph params next before g)
include h

theorem Framed.free (pin : Pin) (hpin : pin ∈ freePins) : g.pin? pin.id = some pin :=
  h.call.pin? pin (List.mem_cons_of_mem _ hpin)

/-- The pin of the call that takes where to enter. -/
theorem Framed.pin?_point : g.pin? ⟨4⟩ = some {
    id := ⟨4⟩, owner := callId, name := PinName.entryPoint, direction := .input, ty := .int
    defaultValue := "0" } :=
  h.free _ (List.mem_cons_of_mem _ (List.mem_cons_of_mem _ List.mem_cons_self))

theorem Framed.findPin?_point :
    g.findPin? callId PinName.entryPoint (some .input) = some ⟨4⟩ := by
  rw [h.call.findPin?]
  rfl

/-- Where to enter is all that the call takes. -/
theorem Framed.inputs : CallFunction.inputs g callId = [⟨4⟩] := by
  have hself : g.pin? ⟨3⟩ = some _ := h.free _ (List.mem_cons_of_mem _ List.mem_cons_self)
  have hfiltered : g.filteredPins callId .input false = [⟨3⟩, ⟨4⟩] := by
    rw [h.call.filteredPins]
    rfl
  rw [CallFunction.inputs, hfiltered, List.filter_cons_of_neg, List.filter_cons_of_pos,
    List.filter_nil]
  · rw [h.pin?_point]
    rfl
  · rw [hself]
    exact Bool.false_ne_true

theorem Framed.outputs : g.filteredPins callId .output false = [] := by
  rw [h.call.filteredPins]
  rfl

/-- The call is made on the object that runs the code. -/
theorem Framed.target : g.selfPin? callId = some ⟨3⟩ ∧ g.linksOf ⟨3⟩ = [] := by
  have hself : g.pin? ⟨3⟩ = some _ := h.free _ (List.mem_cons_of_mem _ List.mem_cons_self)
  constructor
  · rw [selfPin?, h.call.findPin?]
    rfl
  · rw [linksOf, hself]
    rfl

/-- Nothing comes after the call. -/
theorem Framed.last : g.findPin? callId PinName.thenOut (some .output) = some ⟨2⟩ ∧
    g.linksOf ⟨2⟩ = [] := by
  have hthen : g.pin? ⟨2⟩ = some _ := h.free _ List.mem_cons_self
  constructor
  · rw [h.call.findPin?]
    rfl
  · rw [linksOf, hthen]
    rfl

/-- The parameters are the data outputs of the entry. -/
theorem Framed.filteredPins_entry
    (hparams : ∀ pin ∈ params, pin.direction = .output ∧ pin.isExec = false) :
    g.filteredPins entryId .output false = params.map (·.id) := by
  rw [h.entry.filteredPins, entryPins, List.filter_cons_of_neg Bool.false_ne_true,
    List.filter_eq_self.2]
  intro pin hpin
  obtain ⟨hdirection, hexec⟩ := hparams pin hpin
  simp [hdirection, hexec]

/-- A world context is a parameter. -/
theorem Framed.worldContext {p : PinId}
    (hp : g.findPin? entryId PinName.worldContext (some .output) = some p) :
    ∃ pin ∈ params, g.pin? p = some pin := by
  rw [h.entry.findPin?, entryPins, List.find?_cons_of_neg Bool.false_ne_true] at hp
  obtain ⟨pin, hpin, rfl⟩ := Option.map_eq_some_iff.1 hp
  have hmem := List.mem_of_find?_eq_some hpin
  exact ⟨pin, hmem, h.entry.pin? pin (List.mem_cons_of_mem _ hmem)⟩

end Framed

/-- The values are the data inputs of the assignment. -/
theorem Assigned.filteredPins {values : List Pin} {next before : List PinId}
    (h : Assigned values before next g)
    (hvalues : ∀ pin ∈ values, pin.direction = .input ∧ pin.isExec = false) :
    g.filteredPins assignId .input false = values.map (·.id) := by
  rw [h.pins.filteredPins, assignPins, List.filter_cons_of_neg Bool.false_ne_true,
    List.filter_cons_of_neg Bool.false_ne_true, List.filter_eq_self.2]
  intro pin hpin
  obtain ⟨hdirection, hexec⟩ := hvalues pin hpin
  simp [hdirection, hexec]

/-- The nodes of a stub as they run. -/
def path : List Handover → List NodeId
  | [] => [entryId, callId]
  | _ :: _ => [entryId, assignId, callId]

theorem ends_mem_path (ws : List Handover) : entryId ∈ path ws ∧ callId ∈ path ws := by
  cases ws <;> simp [path]

namespace Wired

variable {data : EventData} {ubergraph : String} (h : Wired data ubergraph g ws)
include h

theorem framed : ∃ next before,
    Framed data ubergraph (ws.map (·.outputPin entryId)) next before g := by
  cases h with
  | straight hframed => exact ⟨_, _, hframed⟩
  | assigning _ hframed => exact ⟨_, _, hframed⟩

theorem assigned (hws : ws ≠ []) :
    ∃ next before, Assigned (ws.map (·.inputPin assignId)) next before g := by
  cases h with
  | straight => exact absurd rfl hws
  | assigning _ _ hassigned => exact ⟨_, _, hassigned⟩

section Data

variable (hdata : ∀ w ∈ ws, w.param.ty.isExec = false)
include hdata

theorem filteredPins_entry : g.filteredPins entryId .output false = ws.map (·.output) := by
  obtain ⟨next, before, hframed⟩ := h.framed
  rw [hframed.filteredPins_entry fun pin hpin ↦ ?_, List.map_map]
  · rfl
  · obtain ⟨w, hw, rfl⟩ := List.mem_map.1 hpin
    exact ⟨rfl, hdata w hw⟩

theorem filteredPins_assign (hws : ws ≠ []) :
    g.filteredPins assignId .input false = ws.map (·.input) := by
  obtain ⟨next, before, hassigned⟩ := h.assigned hws
  rw [hassigned.filteredPins fun pin hpin ↦ ?_, List.map_map]
  · rfl
  · obtain ⟨w, hw, rfl⟩ := List.mem_map.1 hpin
    exact ⟨rfl, hdata w hw⟩

end Data

/-- The pins that hand a parameter over. -/
theorem pin?_of_mem {w : Handover} (hw : w ∈ ws) :
    g.pin? w.output = some (w.outputPin entryId) ∧ g.pin? w.input = some (w.inputPin assignId) := by
  obtain ⟨next, before, hframed⟩ := h.framed
  obtain ⟨next', before', hassigned⟩ := h.assigned (List.ne_nil_of_mem hw)
  exact ⟨hframed.entry.pin? _ (List.mem_cons_of_mem _ (List.mem_map_of_mem hw)),
    hassigned.pins.pin? _
      (List.mem_cons_of_mem _ (List.mem_cons_of_mem _ (List.mem_map_of_mem hw)))⟩

theorem mem_order {n : NodeId} : n ∈ g.order ↔ n ∈ path ws := by
  cases h with
  | straight _ horder =>
    rw [horder]
    rfl
  | assigning hws _ _ horder =>
    cases ws with
    | nil => exact absurd rfl hws
    | cons w ws =>
      rw [horder]
      simp [path, or_comm, or_left_comm]

/-- Each node goes on to the next. -/
theorem chain : (path ws).IsChain g.GoesOn := by
  cases h with
  | straight hframed =>
    refine .cons_cons ⟨⟨0⟩, ⟨1⟩, hframed.findPin?_then, ?_, ?_, ?_⟩ (.singleton _)
    · rw [hframed.entry.filteredPins]
      exact List.mem_cons_self
    · rw [linksOf, hframed.entryThen]
      rfl
    · rw [ownerOf?, hframed.callExecute]
      rfl
  | assigning hws hframed hassigned =>
    cases ws with
    | nil => exact absurd rfl hws
    | cons w ws =>
      refine .cons_cons ⟨⟨0⟩, ⟨5⟩, hframed.findPin?_then, ?_, ?_, ?_⟩
        (.cons_cons ⟨⟨6⟩, ⟨1⟩, hassigned.findPin?_then, ?_, ?_, ?_⟩ (.singleton _))
      · rw [hframed.entry.filteredPins]
        exact List.mem_cons_self
      · rw [linksOf, hframed.entryThen]
        rfl
      · rw [ownerOf?, hassigned.execute]
        rfl
      · rw [hassigned.pins.filteredPins]
        exact List.mem_cons_self
      · rw [linksOf, hassigned.thenOut]
        rfl
      · rw [ownerOf?, hframed.callExecute]
        rfl

/-- The kinds of the nodes. -/
theorem kind?_of_mem {n : NodeId} (hn : n ∈ g.order) :
    n = entryId ∨ n = callId ∨ n = assignId ∧ ws ≠ [] ∧ g.kind? n = some (.variableSet none) := by
  rw [h.mem_order] at hn
  cases ws with
  | nil =>
    rcases List.mem_pair.1 hn with rfl | rfl
    · exact .inl rfl
    · exact .inr (.inl rfl)
  | cons w ws =>
    obtain ⟨next, before, hassigned⟩ := h.assigned (List.cons_ne_nil w ws)
    simp only [path, List.mem_cons, List.not_mem_nil, or_false] at hn
    rcases hn with rfl | rfl | rfl
    · exact .inl rfl
    · exact .inr (.inr ⟨rfl, List.cons_ne_nil w ws, hassigned.kind?⟩)
    · exact .inr (.inl rfl)

end Wired

/-! ## Building -/

/-- Parameters carry data. -/
theorem isExec_of_mem_parametersOf {event : NodeId} {p : EventParameter}
    (hp : p ∈ parametersOf g event) : p.ty.isExec = false := by
  obtain ⟨id, hid, hpin⟩ := List.mem_filterMap.1 hp
  obtain ⟨-, pin, hpin', -, hexec⟩ := mem_filteredPins.1 hid
  rw [hpin', Option.map_some] at hpin
  cases hpin
  exact hexec

/-- Every parameter gets the name of its net, and nets keep the names that they have. -/
theorem storageNames_spec (names : NetNameMap) (g : Graph) (params : List EventParameter) :
    (storageNames names g params).1.map (·.1) = params ∧
      names.Extends (storageNames names g params).2 ∧
      ∀ e ∈ (storageNames names g params).1,
        (storageNames names g params).2.get? e.1.pin = some e.2 := by
  have hfold (params : List EventParameter) (named : List (EventParameter × String))
      (names : NetNameMap) (hnamed : ∀ e ∈ named, names.get? e.1.pin = some e.2) :
      let result := params.foldl (fun (acc : List (EventParameter × String) × NetNameMap) p ↦
        (acc.1 ++ [(p, (acc.2.nameOf g p.pin).1)], (acc.2.nameOf g p.pin).2)) (named, names)
      result.1.map (·.1) = named.map (·.1) ++ params ∧ names.Extends result.2 ∧
        ∀ e ∈ result.1, result.2.get? e.1.pin = some e.2 := by
    induction params generalizing named names with
    | nil => exact ⟨(List.append_nil _).symm, .refl _, hnamed⟩
    | cons p params ih =>
      have hextends := NetNameMap.extends_nameOf names g p.pin
      obtain ⟨hfirst, hext, hlast⟩ := ih (named ++ [(p, (names.nameOf g p.pin).1)])
        (names.nameOf g p.pin).2 fun e he ↦ by
          rcases List.mem_append.1 he with he | he
          · exact hextends.kept _ _ (hnamed e he)
          · rw [List.mem_singleton.1 he]
            exact NetNameMap.get?_nameOf names g p.pin
      refine ⟨hfirst.trans ?_, hextends.trans hext, hlast⟩
      rw [List.map_append, List.append_assoc]
      rfl
  exact hfold params [] names (List.forall_mem_nil _)

/-- An event gets a wired stub that stores its parameters under the names of their nets, or there
is an error. -/
theorem build_cases {ubergraph : Graph} {event : NodeId} {data : EventData}
    (hkind : ubergraph.kind? event = some (.event data)) (schema : Schema) (parent : Class)
    (names : NetNameMap) (log : MessageLog) :
    ((build ubergraph event schema parent names log).1 = none ∧
        log.numErrors < (build ubergraph event schema parent names log).2.2.numErrors) ∨
      ∃ stub ws, (build ubergraph event schema parent names log).1 = some stub ∧
        stub.call = callId ∧ Wired data schema.ubergraphFunctionName stub.graph ws ∧
        ws.map (·.param) = parametersOf ubergraph event ∧
        (∀ w ∈ ws, (build ubergraph event schema parent names log).2.1.get? w.param.pin =
          some w.storage) := by
  have hnames := storageNames_spec names ubergraph (parametersOf ubergraph event)
  unfold build
  rw [hkind]
  dsimp only
  split
  · exact .inl ⟨rfl, Nat.lt_succ_self _⟩
  · have hcall : (((Graph.empty data.function).spawnIntermediate (.functionEntry
        { extraFlags := data.functionFlags, customName := some data.function })).2.spawnIntermediate
          (.callFunction (.selfCall schema.ubergraphFunctionName))).1 = callId := by
      simp [spawnIntermediate, spawn, NodeKind.startingPins, allocPin, modifyNode, Graph.empty,
        size_empty, callId]
    rw [hcall]
    split
    · exact .inl ⟨rfl, Nat.lt_succ_self _⟩
    · next g hwire =>
      have hframe : frame data schema.ubergraphFunctionName =
          (((Graph.empty data.function).spawnIntermediate (.functionEntry
            { extraFlags := data.functionFlags, customName := some data.function })).2.spawnIntermediate
              (.callFunction (.selfCall schema.ubergraphFunctionName))).2.setPosition callId
                (2 * SpawnGrid.nodeWidth) 0 := by
        rw [← hcall]
        rfl
      rw [← hframe] at hwire
      obtain ⟨ws, hws, hwired⟩ := wired_of_wire hwire
      obtain ⟨hparams, -, hstored⟩ := hnames
      refine .inr ⟨_, ws, rfl, rfl, hwired, ?_, fun w hw ↦ hstored w.named ?_⟩
      · rw [← hparams, ← hws, List.map_map]
        rfl
      · rw [← hws]
        exact List.mem_map_of_mem hw

end EventStub

end VisualScript
