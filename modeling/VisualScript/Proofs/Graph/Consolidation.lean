import VisualScript.Compile.FunctionList
import VisualScript.Proofs.Graph.Expansion

/-!
# The consolidated event graph

The event graph consists of the pages of events under an entry of its own.  Events are
added and macros and timelines expanded around that entry.
-/

namespace VisualScript

namespace Graph

/-! ## Moving links -/

theorem sameFaces_linkAll (g : Graph) (target : PinId) (ps : List PinId) :
    SameFaces g (g.linkAll target ps).graph := by
  induction ps generalizing g with
  | nil => exact .refl g
  | cons p ps ih =>
    unfold linkAll
    split
    · next g' hg' => exact (sameFaces_makeLink hg').trans (ih g')
    · exact .refl g

theorem sameFaces_copyPinLinks (g : Graph) (source target : PinId) :
    SameFaces g (g.copyPinLinks source target).graph := by
  unfold copyPinLinks
  split
  · exact .refl g
  · exact .refl g
  · next pin _ _ _ =>
    have hlinks := sameFaces_linkAll g target pin.links
    split
    · next heq =>
      rw [heq] at hlinks
      exact hlinks
    · next heq =>
      rw [heq] at hlinks
      refine hlinks.trans (.modifyPin _ target fun q ↦ ?_)
      split <;> rfl

theorem sameFaces_movePinLinks (g : Graph) (source target : PinId) :
    SameFaces g (g.movePinLinks source target).graph := by
  have hcopy := sameFaces_copyPinLinks g source target
  unfold movePinLinks
  split
  · next heq =>
    rw [heq] at hcopy
    exact hcopy
  · next heq =>
    rw [heq] at hcopy
    exact hcopy.trans (sameFaces_breakPinLinks _ _)

theorem sameFaces_connect {g g' : Graph} {source target : NodeId} {output input : String}
    (h : g.connect source output target input = .ok g') : SameFaces g g' := by
  obtain ⟨a, -, h⟩ := bind_eq_ok.1 h
  obtain ⟨b, -, h⟩ := bind_eq_ok.1 h
  exact sameFaces_makeLink h

/-! ## Entries of event graphs -/

/-- The node is an entry whose pins are outputs, and one is the parameter `EntryPoint`. -/
structure Headed (entry : NodeId) (g : Graph) : Prop where
  kind? : ∃ name : String, g.kind? entry = some (.functionEntry { customName := some name })
  outputs : ∀ p ∈ g.pinsOf entry, g.directionOf? p = some .output
  entryPoint : ∃ p, g.findPin? entry PinName.entryPoint (some .output) = some p ∧
    p ∈ g.filteredPins entry .output false
  noContext : g.findPin? entry PinName.worldContext (some .output) = none

section Headed

variable {g g' : Graph} {entry : NodeId}

theorem Headed.keep (h : Headed entry g) (hkeeps : KeepsNode entry g g') : Headed entry g' where
  kind? := hkeeps.kind?.symm ▸ h.kind?
  outputs p hp := by
    rw [hkeeps.pinsOf] at hp
    exact (hkeeps.face (fun _ ↦ rfl) hp).trans (h.outputs p hp)
  entryPoint := by
    rw [hkeeps.filteredPins, hkeeps.findPin?]
    exact h.entryPoint
  noContext := (hkeeps.findPin? _ _).trans h.noContext

/-- An entry to which a pin `EntryPoint` was added. -/
theorem headed_addPin (g : Graph) (name : String) : ∃ p g',
    (g.spawnIntermediate (.functionEntry { customName := some name })).2.addPin ⟨g.nodes.size⟩
        .output { name := PinName.entryPoint, ty := .int } = .ok (p, g') ∧
      g'.Headed ⟨g.nodes.size⟩ := by
  let spawned := (g.spawnIntermediate (.functionEntry { customName := some name })).2
  let g' := (spawned.allocPin ⟨g.nodes.size⟩ .output { name := PinName.entryPoint, ty := .int }).2
  have hadd : spawned.contains ⟨g.nodes.size⟩ = true := by
    simp [spawned, spawnIntermediate, spawn, NodeKind.startingPins, allocPin, modifyNode, contains,
      node?]
  have hkind : g'.kind? ⟨g.nodes.size⟩ = some (.functionEntry { customName := some name }) := by
    simp [g', spawned, spawnIntermediate, spawn, NodeKind.startingPins, allocPin, modifyNode,
      Graph.kind?, node?]
  have hpins : g'.pinsOf ⟨g.nodes.size⟩ = [⟨g.pins.size⟩, ⟨g.pins.size + 1⟩] := by
    simp [g', spawned, spawnIntermediate, spawn, NodeKind.startingPins, allocPin, modifyNode, pinsOf,
      node?]
  have hthen : g'.pin? ⟨g.pins.size⟩ = some {
      id := ⟨g.pins.size⟩, owner := ⟨g.nodes.size⟩, name := PinName.thenOut
      direction := .output, ty := .exec } := by
    simp [g', spawned, spawnIntermediate, spawn, NodeKind.startingPins, NodeKind.execOut, allocPin,
      modifyNode, pin?]
  have hpoint : g'.pin? ⟨g.pins.size + 1⟩ = some {
      id := ⟨g.pins.size + 1⟩, owner := ⟨g.nodes.size⟩, name := PinName.entryPoint
      direction := .output, ty := .int } := by
    simp [g', spawned, spawnIntermediate, spawn, NodeKind.startingPins, allocPin, modifyNode, pin?]
  have hmem {q : PinId} (hq : q ∈ g'.pinsOf ⟨g.nodes.size⟩) :
      q = ⟨g.pins.size⟩ ∨ q = ⟨g.pins.size + 1⟩ := by
    rwa [hpins, List.mem_pair] at hq
  refine ⟨_, g', if_pos hadd, ⟨⟨name, hkind⟩, fun q hq ↦ ?_, ⟨⟨g.pins.size + 1⟩, ?_, ?_⟩, ?_⟩⟩
  · rcases hmem hq with rfl | rfl
    · rw [directionOf?, hthen]
      rfl
    · rw [directionOf?, hpoint]
      rfl
  · rw [Graph.findPin?, hpins, List.find?_cons_of_neg, List.find?_cons_of_pos]
    · rw [pinMatches, hpoint]
      rfl
    · rw [pinMatches, hthen]
      exact Bool.false_ne_true
  · refine mem_filteredPins.2 ⟨?_, _, hpoint, rfl, rfl⟩
    rw [hpins]
    exact List.mem_cons_of_mem _ List.mem_cons_self
  · refine List.find?_eq_none.2 fun q hq ↦ ?_
    rcases hmem hq with rfl | rfl
    · rw [pinMatches, hthen]
      exact Bool.false_ne_true
    · rw [pinMatches, hpoint]
      exact Bool.false_ne_true

end Headed

end Graph

/-- Adds an event for an interface function without outputs that has neither a graph nor
an event. -/
def addMissingEvent (acc : List NodeId × Graph × MessageLog) (e : ImplementedInterface × Function) :
    List NodeId × Graph × MessageLog :=
  if e.2.hasOutputs || e.1.graphs.any (·.name == e.2.name) || acc.2.1.hasEvent e.2.name then acc
  else
    let (event, g, log) := spawnOverride acc.2.1 e.1.interface e.2 acc.2.2
    (acc.1 ++ [event], g, log)

namespace Graph.KeptAround

variable {anchored : NodeId → Prop} {body P : Graph → Prop} (hP : KeptAround anchored body P)

/-! ## Timelines -/

section Timelines

open Timelines

variable {s : State}

omit hP in
theorem andThen {e : Edit} (he : P e.graph) {f : Graph → Edit}
    (hf : ∀ g, P g → P (f g).graph) : P (e.andThen f).graph := by
  unfold Edit.andThen
  split
  · exact hf e.graph he
  · exact he

include hP

theorem moveNewTime {g : Graph} (hg : P g) {call : NodeId} (hcall : ¬anchored call) (node : NodeId) :
    P (moveNewTime node call g).graph := by
  unfold Timelines.moveNewTime
  split
  · exact hg
  · next hadd =>
    have hadded := hP.addPin hg hcall hadd
    split
    · exact hP.sameFaces hadded (sameFaces_movePinLinks _ _ _)
    · exact hadded

theorem wireControl {g : Graph} (hg : P g) (template : TimelineTemplate) (control : String)
    (node component : NodeId) {call : NodeId} (hcall : ¬anchored call) (controlPin : PinId) :
    P (wireControl g template control node component call controlPin).graph := by
  have hconnected : P (Edit.ofExcept g (g.connect component template.name call PinName.self)).graph := by
    unfold Edit.ofExcept
    split
    · next hconnect => exact hP.sameFaces hg (sameFaces_connect hconnect)
    · exact hg
  unfold Timelines.wireControl
  extract_lets e
  have hmoved : P e.graph := by
    refine andThen hconnected fun g hg ↦ ?_
    split
    · exact hg
    · exact hP.sameFaces hg (sameFaces_movePinLinks _ _ _)
  split
  · exact andThen hmoved fun g hg ↦ hP.moveNewTime hg hcall node
  · exact hmoved

variable (h : P s.graph)
include h

theorem getterFor (template : TimelineTemplate) (position : Position) :
    P (getterFor s template position).2.graph := by
  unfold Timelines.getterFor
  split
  · exact h
  · exact hP.setPosition (hP.spawnIntermediate _ h) _ _ _

theorem expandControl (node : NodeId) (template : TimelineTemplate) (position : Position)
    (control : String × Nat) : P (expandControl node template position s control).graph := by
  unfold Timelines.expandControl
  split
  · exact h
  · split
    · exact h
    · have hgetter := hP.getterFor h template position
      refine hP.wireControl ?_ template control.1 node _ (hP.fresh hgetter) _
      exact hP.setPosition (hP.spawnIntermediate _ hgetter) _ _ _

theorem eventFor (node : NodeId) (position : Position) (function : String) (row : Nat) :
    P (eventFor s node position function row).2.graph := by
  unfold Timelines.eventFor
  extract_lets implements
  split
  · exact h
  · exact hP.setPosition (hP.spawnIntermediate _ h) _ _ _

theorem expandTrack (node : NodeId) (position : Position) (track : (String × String) × Nat) :
    P (expandTrack node position s track).graph := by
  have hevent := hP.eventFor h node position track.1.2 track.2
  unfold Timelines.expandTrack
  dsimp only
  split
  · exact hP.sameFaces hevent (sameFaces_movePinLinks _ _ _)
  · exact hevent

theorem expandNode (template : TimelineTemplate) (node : NodeId) :
    P (expandNode template node s).graph := by
  refine List.foldlRecOn (motive := fun s : State ↦ P s.graph) _ _ ?_
    fun s hs track _ ↦ hP.expandTrack hs node _ track
  exact List.foldlRecOn (motive := fun s : State ↦ P s.graph) _ _ h
    fun s hs control _ ↦ hP.expandControl hs node template _ control

end Timelines

variable {g : Graph} (h : P g)
include hP h

/-- Timelines are expanded around all nodes. -/
theorem expandTimelines (templates : List TimelineTemplate) (log : MessageLog) :
    P (expandTimelines g templates log).2.1 := by
  refine List.foldlRecOn (motive := fun acc : Bool × Graph × MessageLog ↦ P acc.2.1)
    _ _ h fun acc hacc node _ ↦ ?_
  dsimp only
  split
  · split
    · exact hacc
    · exact hP.expandNode hacc _ node
  · exact hacc

/-! ## Events of interfaces -/

theorem spawnOverride (interface : Class) (f : Function) (log : MessageLog) :
    P (spawnOverride g interface f log).2.1 := by
  refine List.foldlRecOn (motive := fun acc : Graph × MessageLog ↦ P acc.1)
    _ _ (hP.spawnIntermediate _ h) fun acc hacc p _ ↦ ?_
  dsimp only
  split
  · next hadd => exact hP.addPin hacc (hP.fresh h) hadd
  · exact hacc

theorem addMissingEvent (spawned : List NodeId) (log : MessageLog)
    (e : ImplementedInterface × Function) : P (addMissingEvent (spawned, g, log) e).2.1 := by
  unfold VisualScript.addMissingEvent
  split
  · exact h
  · exact hP.spawnOverride h e.1.interface e.2 _

theorem addMissingEvents (functions : List (ImplementedInterface × Function))
    (spawned : List NodeId) (log : MessageLog) :
    P (functions.foldl VisualScript.addMissingEvent (spawned, g, log)).2.1 :=
  List.foldlRecOn (motive := fun acc : List NodeId × Graph × MessageLog ↦ P acc.2.1)
    functions _ h fun acc hacc e _ ↦ hP.addMissingEvent hacc acc.1 acc.2.2 e

theorem spawnMissingEvents (interfaces : List ImplementedInterface) (log : MessageLog) :
    P (spawnMissingEvents g interfaces log).2.1 :=
  hP.addMissingEvents h _ [] log

end Graph.KeptAround

/-! ## Pages -/

section Pages

variable {anchored : NodeId → Prop} {body P : Graph → Prop}
  (hP : Graph.KeptAround anchored body P) {s : Graph × SpawnGrid × MessageLog}
include hP

/-- A page that is merged is laid out around all nodes. -/
theorem Graph.KeptAround.mergePage {page : Graph} (h : P (s.1.mergeFragment page).2)
    (keep : Bool) : P (VisualScript.mergePage keep s page).1 := by
  unfold VisualScript.mergePage
  dsimp only
  split
  · exact hP.placeSection h _ _ _
  · exact h

theorem Graph.KeptAround.foldl_mergePage (h : P s.1) {pages : List Graph}
    (hpages : ∀ page ∈ pages, body page) (keep : Bool) :
    P (pages.foldl (VisualScript.mergePage keep) s).1 :=
  List.foldlRecOn (motive := fun s : Graph × SpawnGrid × MessageLog ↦ P s.1) pages _ h
    fun _ hs page hpage ↦ hP.mergePage (hP.mergeFragment hs (hpages page hpage)) keep

end Pages

/-- The pages are merged under an entry of their own, and the graph is well-formed. -/
theorem headed_mergePages {pages : List Graph} (hpages : ∀ g ∈ pages, g.WellFormed) (name : String)
    (log : MessageLog) (keep : Bool) :
    (mergePages pages name log keep).2.1.WellFormed ∧
      (mergePages pages name log keep).2.1.Headed (mergePages pages name log keep).1 := by
  have hmerged := Graph.keptAround_wellFormed.foldl_mergePage (s := (.empty name, {}, log))
    (Graph.wellFormed_empty name) hpages keep
  unfold mergePages
  generalize pages.foldl (mergePage keep) (.empty name, {}, log) = merged at hmerged
  obtain ⟨g, grid, log⟩ := merged
  obtain ⟨p, g', hadd, hheaded⟩ := g.headed_addPin name
  have hspawned : (g.spawnIntermediate (.functionEntry { customName := some name })).1 =
      ⟨g.nodes.size⟩ := rfl
  dsimp only
  rw [hspawned, hadd]
  refine ⟨?_, hheaded.keep (.of_eq rfl fun _ _ ↦ rfl)⟩
  exact ((hmerged.spawnIntermediate _).addPin hadd).setOrder (List.nodup_singleton _)

/-! ## The whole graph -/

namespace Graph

/-- What is done around a node that is not replaced begins with its graph. -/
theorem Around.start {g : Graph} {n : NodeId} {kind : NodeKind} (h : g.WellFormed)
    (hkind : g.kind? n = some kind) (hstays : kind.isReplaced = false) : Around [n] g g where
  wellFormed := h
  stays m hm := by
    rw [List.mem_singleton.1 hm]
    exact ⟨kind, hkind, hstays⟩
  keeps m _ := .refl m g

theorem Around.keepsNode {g₀ g : Graph} {n : NodeId} (h : Around [n] g₀ g) : KeepsNode n g₀ g :=
  h.keeps n (List.mem_singleton_self n)

end Graph

namespace Compilation

variable {c : Compilation}

/-- The pages with the events of interfaces, before macros and timelines are expanded. -/
def pageGraph (env : CompileEnv) (c : Compilation) : Graph × MessageLog :=
  let merged := mergePages c.blueprint.ubergraphPages env.schema.ubergraphFunctionName c.log
    env.options.saveIntermediateProducts
  (spawnMissingEvents merged.2.1 c.blueprint.implementedInterfaces merged.2.2).2

/-- Macros and timelines are expanded around all other nodes. -/
theorem kept_eventGraph {anchored : NodeId → Prop} {body P : Graph → Prop}
    (hP : Graph.KeptAround anchored body P) (env : CompileEnv)
    (hmacros : ∀ source ∈ c.blueprint.macroGraphs, ∀ data, body (source.macroBody data))
    (h : P (c.pageGraph env).1) : P (c.eventGraph env).1 := by
  unfold pageGraph at h
  unfold eventGraph
  dsimp only at h ⊢
  generalize mergePages c.blueprint.ubergraphPages env.schema.ubergraphFunctionName c.log
    env.options.saveIntermediateProducts = merged at h ⊢
  obtain ⟨entry, g, log⟩ := merged
  dsimp only at h ⊢
  generalize spawnMissingEvents g c.blueprint.implementedInterfaces log = spawned at h ⊢
  obtain ⟨events, g₁, log₁⟩ := spawned
  exact hP.expandTimelines
    (hP.expandMacros h hmacros log₁ env.options.saveIntermediateProducts) c.blueprint.timelines _

theorem around_eventGraph (env : CompileEnv)
    (hmacros : ∀ g ∈ c.blueprint.macroGraphs, g.WellFormed) {ns : List NodeId} {g₀ : Graph}
    (h : Graph.Around ns g₀ (c.pageGraph env).1) : Graph.Around ns g₀ (c.eventGraph env).1 :=
  kept_eventGraph (Graph.keptAround_around ns g₀) env
    (fun g hg data ↦ (hmacros g hg).macroBody data) h

/-- What the compile adds to the pages and expands in them leaves their entry as it is. -/
theorem headed_eventGraph (hpages : ∀ g ∈ c.blueprint.ubergraphPages, g.WellFormed)
    (hmacros : ∀ g ∈ c.blueprint.macroGraphs, g.WellFormed) (env : CompileEnv) :
    (c.eventGraph env).1.WellFormed ∧ ∃ entry, (c.eventGraph env).1.Headed entry := by
  obtain ⟨hwf, hheaded⟩ := headed_mergePages hpages env.schema.ubergraphFunctionName c.log
    env.options.saveIntermediateProducts
  obtain ⟨name, hkind⟩ := hheaded.kind?
  have hevents := (Graph.keptAround_around _ _).spawnMissingEvents
    (Graph.Around.start hwf hkind rfl) c.blueprint.implementedInterfaces
      (mergePages c.blueprint.ubergraphPages env.schema.ubergraphFunctionName c.log
        env.options.saveIntermediateProducts).2.2
  have hwhole := around_eventGraph env hmacros hevents
  exact ⟨hwhole.wellFormed, _, hheaded.keep hwhole.keepsNode⟩

end Compilation

end VisualScript
