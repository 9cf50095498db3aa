import VisualScript.Proofs.Compile.Listing
import VisualScript.Proofs.Macros.Descent

/-!
# Sources of listed functions

Pages, macros, timelines and stubs all add objects that come from others.  Under a rank in
which each kind of graph is above those that it takes its nodes from, the sources descend once
the functions of a compile are listed.
-/

namespace VisualScript

open VisualScript.Graph

variable {ρ : Type} [LinearOrder ρ] {rank : ObjectRef → ρ} {name : String} {log : MessageLog}

/-! ## Pages and interfaces -/

theorem descends_mergePage {keep : Bool} {s : Graph × SpawnGrid × MessageLog}
    (h : s.1.name = name ∧ s.2.2.Descends rank) {page : Graph}
    (habove : GraphAbove rank name page.name) :
    (mergePage keep s page).1.name = name ∧ (mergePage keep s page).2.2.Descends rank := by
  have hmerged := Graph.Widens.mergeFragment s.1 page
  have hlog : (s.2.2.addRemapped (s.1.mergeFragment page).2 page
      (s.1.mergeFragment page).1).Descends rank := by
    refine h.2.addRemapped ?_ _
    rwa [hmerged.name, h.1]
  unfold mergePage
  dsimp only
  split
  · exact ⟨(hmerged.trans (.placeSection _ _ _ _)).name.trans h.1, hlog⟩
  · exact ⟨hmerged.name.trans h.1, hlog⟩

theorem descends_mergePages {pages : List Graph}
    (habove : ∀ page ∈ pages, GraphAbove rank name page.name) (h : log.Descends rank)
    (keep : Bool) : (mergePages pages name log keep).2.1.name = name ∧
      (mergePages pages name log keep).2.2.Descends rank := by
  have hmerged : let s := pages.foldl (mergePage keep) (.empty name, {}, log)
      s.1.name = name ∧ s.2.2.Descends rank :=
    List.foldlRecOn (motive := fun s : Graph × SpawnGrid × MessageLog ↦
      s.1.name = name ∧ s.2.2.Descends rank) pages _ ⟨rfl, h⟩
      fun s hs page hpage ↦ descends_mergePage hs (habove page hpage)
  unfold mergePages
  generalize pages.foldl (mergePage keep) (.empty name, {}, log) = merged at hmerged
  obtain ⟨g, grid, log⟩ := merged
  have hentry := Graph.Widens.spawnIntermediate g (.functionEntry { customName := some name })
  dsimp only at hmerged ⊢
  split
  · next hadd => exact ⟨(hentry.trans (.addPin hadd)).name.trans hmerged.1, hmerged.2⟩
  · exact ⟨hentry.name.trans hmerged.1, hmerged.2⟩

theorem descends_addMissingEvent {acc : List NodeId × Graph × MessageLog}
    (h : acc.2.1.name = name ∧ acc.2.2.Descends rank) (e : ImplementedInterface × Function) :
    (addMissingEvent acc e).2.1.name = name ∧ (addMissingEvent acc e).2.2.Descends rank := by
  unfold addMissingEvent
  split
  · exact h
  · refine List.foldlRecOn (motive := fun acc : Graph × MessageLog ↦
      acc.1.name = name ∧ acc.2.Descends rank) _ _
        ⟨(Graph.Widens.spawnIntermediate _ _).name.trans h.1, h.2⟩ fun acc hacc p _ ↦ ?_
    dsimp only
    split
    · next hadd => exact ⟨(Graph.Widens.addPin hadd).name.trans hacc.1, hacc.2⟩
    · exact hacc

theorem descends_spawnMissingEvents {g : Graph} (hname : g.name = name) (h : log.Descends rank)
    (interfaces : List ImplementedInterface) :
    (spawnMissingEvents g interfaces log).2.1.name = name ∧
      (spawnMissingEvents g interfaces log).2.2.Descends rank :=
  List.foldlRecOn (motive := fun acc : List NodeId × Graph × MessageLog ↦
    acc.2.1.name = name ∧ acc.2.2.Descends rank) _ _ ⟨hname, h⟩
    fun _ hacc e _ ↦ descends_addMissingEvent hacc e

/-! ## Timelines -/

namespace Timelines

/-- Sources descend while the node is expanded, and what is made for it are later nodes. -/
structure Descends (rank : ObjectRef → ρ) (name : String) (node : NodeId) (s : State) : Prop where
  name : s.graph.name = name
  log : s.log.Descends rank
  later : node.index < s.graph.nodes.size
  getter : ∀ n, s.getter = some n → node.index < n.index

theorem widens_wireControl (g : Graph) (template : TimelineTemplate) (control : String)
    (node component call : NodeId) (controlPin : PinId) :
    Graph.Widens g (wireControl g template control node component call controlPin).graph := by
  have handThen {g : Graph} {e : Edit} (he : Graph.Widens g e.graph) {f : Graph → Edit}
      (hf : ∀ g', Graph.Widens g' (f g').graph) : Graph.Widens g (e.andThen f).graph := by
    unfold Edit.andThen
    split
    · exact he.trans (hf e.graph)
    · exact he
  have hconnected : Graph.Widens g
      (Edit.ofExcept g (g.connect component template.name call PinName.self)).graph := by
    unfold Edit.ofExcept
    split
    · next hconnect => exact .connect hconnect
    · exact .refl g
  have htime (g : Graph) : Graph.Widens g (moveNewTime node call g).graph := by
    unfold moveNewTime
    split
    · exact .refl g
    · next hadd =>
      split
      · exact (Graph.Widens.addPin hadd).trans (.movePinLinks _ _ _)
      · exact .addPin hadd
  unfold wireControl
  extract_lets e
  have hmoved : Graph.Widens g e.graph := by
    refine handThen hconnected fun g ↦ ?_
    split
    · exact .refl g
    · exact .movePinLinks g _ _
  split
  · exact handThen hmoved htime
  · exact hmoved

variable {node : NodeId} {s : State} (h : Descends rank name node s)
include h

/-- The graph widens and other sources descend. -/
theorem Descends.widen {g : Graph} (hwidens : Graph.Widens s.graph g) {log : MessageLog}
    (hlog : log.Descends rank) : Descends rank name node { s with graph := g, log } where
  name := hwidens.name.trans h.name
  log := hlog
  later := Nat.lt_of_lt_of_le h.later hwidens.size_nodes
  getter := h.getter

theorem descends_getterFor (template : TimelineTemplate) (position : Position) :
    node.index < (getterFor s template position).1.index ∧
      Descends rank name node (getterFor s template position).2 := by
  unfold getterFor
  split
  · next id hid => exact ⟨h.getter id hid, h⟩
  · refine ⟨h.later, ?_⟩
    have hspawned := (Graph.Widens.spawnIntermediate s.graph (.variableGet (.selfMember template.name
      (.object timelineComponentClass)))).trans (.modifyNode _ ⟨s.graph.nodes.size⟩ fun n ↦
        { n with position := ⟨position.x - SpawnGrid.nodeWidth, position.y⟩ })
    refine ⟨hspawned.name.trans h.name, h.log, Nat.lt_of_lt_of_le h.later hspawned.size_nodes,
      fun n hn ↦ ?_⟩
    cases hn
    exact h.later

variable (hnode : ∀ {m n : NodeId}, m.index < n.index → rank (.node name m) < rank (.node name n))
include hnode

theorem descends_expandControl (template : TimelineTemplate) (position : Position)
    (control : String × Nat) :
    Descends rank name node (expandControl node template position s control) := by
  unfold expandControl
  split
  · exact h
  · next controlPin _ =>
    split
    · exact h
    · obtain ⟨hlater, hgetter⟩ := descends_getterFor h template position
      generalize getterFor s template position = made at hlater hgetter
      obtain ⟨component, t⟩ := made
      dsimp only at hlater hgetter ⊢
      -- the call is spawned last
      have hcalled := (Graph.Widens.spawnIntermediate t.graph (.callFunction
        (.external control.1 timelineComponentClass false))).trans (.modifyNode _
          ⟨t.graph.nodes.size⟩ fun n ↦ { n with position :=
            ⟨position.x, position.y + (control.2 + 1 : Int) * SpawnGrid.nodeHeight⟩ })
      have hsource {g : Graph} (hg : g.name = name) {n : NodeId} (hn : node.index < n.index) :
          rank (s.graph.nodeRef node) < rank (g.nodeRef n) := by
        rw [Graph.nodeRef, Graph.nodeRef, h.name, hg]
        exact hnode hn
      have hlog := (hgetter.log.addSource (hsource hgetter.name hlater)).addSource
        (hsource (hcalled.name.trans hgetter.name) hgetter.later)
      refine hgetter.widen (hcalled.trans (widens_wireControl _ template control.1 node component
        ⟨t.graph.nodes.size⟩ controlPin)) ?_
      split
      · exact hlog
      · exact hlog.of_sources rfl

theorem descends_eventFor (position : Position) (function : String) (row : Nat) :
    Descends rank name node (eventFor s node position function row).2 := by
  unfold eventFor
  extract_lets implements
  split
  · exact h
  · have hspawned := (Graph.Widens.spawnIntermediate s.graph
      (.event { function, isInternal := true })).trans (.modifyNode _ ⟨s.graph.nodes.size⟩ fun n ↦
        { n with position := ⟨position.x + SpawnGrid.nodeWidth,
          position.y + (row : Int) * SpawnGrid.nodeHeight⟩ })
    refine h.widen hspawned (h.log.addSource ?_)
    have hname := hspawned.name.trans h.name
    rw [Graph.nodeRef, Graph.nodeRef]
    refine Eq.subst (motive := fun name' ↦ rank (.node name' node) < rank (.node name' _))
      hname.symm ?_
    exact hnode h.later

theorem descends_expandTrack (position : Position) (track : (String × String) × Nat) :
    Descends rank name node (expandTrack node position s track) := by
  have hevent := descends_eventFor h hnode position track.1.2 track.2
  unfold expandTrack
  dsimp only
  split
  · refine hevent.widen (.movePinLinks _ _ _) ?_
    split
    · exact hevent.log
    · exact hevent.log.of_sources rfl
  · exact hevent

theorem descends_expandNode (template : TimelineTemplate) :
    Descends rank name node (expandNode template node s) := by
  have hstart : Descends rank name node { s with getter := none } :=
    ⟨h.name, h.log, h.later, fun n hn ↦ by cases hn⟩
  refine List.foldlRecOn (motive := Descends rank name node) _ _ ?_
    fun s hs track _ ↦ descends_expandTrack hs hnode _ track
  exact List.foldlRecOn (motive := Descends rank name node) _ _ hstart
    fun s hs control _ ↦ descends_expandControl hs hnode template _ control

end Timelines

/-- Sources descend while timelines are expanded. -/
theorem descends_expandTimelines {g : Graph} (hname : g.name = name) (h : log.Descends rank)
    (hnode : ∀ {m n : NodeId}, m.index < n.index → rank (.node name m) < rank (.node name n))
    (templates : List TimelineTemplate) :
    (expandTimelines g templates log).2.1.name = name ∧
      (expandTimelines g templates log).2.2.Descends rank := by
  refine List.foldlRecOn (motive := fun acc : Bool × Graph × MessageLog ↦
    acc.2.1.name = name ∧ acc.2.2.Descends rank) _ _ ⟨hname, h⟩ fun acc hacc node _ ↦ ?_
  dsimp only
  split
  · next hkind =>
    split
    · exact hacc
    · next template _ =>
      have hstart : Timelines.Descends rank name node { graph := acc.2.1, log := acc.2.2 } :=
        ⟨hacc.1, hacc.2, lt_size_of_kind? hkind, fun n hn ↦ by cases hn⟩
      have hexpanded := Timelines.descends_expandNode hstart hnode template
      exact ⟨hexpanded.name, hexpanded.log⟩
  · exact hacc

/-! ## Stubs -/

/-- The graph of a stub is above the event that it stands for. -/
theorem EventStub.descends_build (ubergraph : Graph) (event : NodeId) (schema : Schema)
    (parent : Class) (names : NetNameMap) (h : log.Descends rank)
    (hstub : ∀ stub, (build ubergraph event schema parent names log).1 = some stub →
      ∀ n, rank (.node ubergraph.name event) < rank (.node stub.graph.name n)) :
    (build ubergraph event schema parent names log).2.2.Descends rank := by
  unfold build at hstub ⊢
  split at hstub
  · dsimp only at hstub ⊢
    split at hstub
    · next hmismatch =>
      rw [if_pos hmismatch]
      exact h.of_sources rfl
    · next hmatch =>
      rw [if_neg hmatch]
      split at hstub
      · exact h.of_sources rfl
      · next g hwire =>
        exact .foldl (fun log n _ hlog ↦ hlog.addSource (hstub _ rfl n)) h
  · exact h

/-! ## Listing -/

namespace Compilation

variable {env : CompileEnv} {c : Compilation}

/-- Each graph that the functions are listed with is above those that it takes nodes from. -/
structure Ranked (rank : ObjectRef → ρ) (env : CompileEnv) (c : Compilation) : Prop where
  page : ∀ page ∈ c.blueprint.ubergraphPages,
    GraphAbove rank env.schema.ubergraphFunctionName page.name
  ubergraph : Hosts rank c.blueprint.macroGraphs env.schema.ubergraphFunctionName
  graph : ∀ g ∈ c.blueprint.functionGraphs ++ c.blueprint.delegateSignatureGraphs ++
    c.blueprint.implementedInterfaces.flatMap (·.graphs), Hosts rank c.blueprint.macroGraphs g.name
  stub : ∀ d ∈ (c.addFunctions env).contexts, d.stub.isSome = true →
    ∀ m n, rank (.node env.schema.ubergraphFunctionName m) < rank (.node d.graph.name n)

theorem descends_expand (env : CompileEnv) {g : Graph}
    (hosts : Hosts rank c.blueprint.macroGraphs g.name) (h : c.log.Descends rank) :
    (c.expand env g).1.name = g.name ∧ (c.expand env g).2.log.Descends rank := by
  have hexpanded := descends_expandMacros hosts h env.options.saveIntermediateProducts
  exact ⟨hexpanded.name, hexpanded.log⟩

theorem descends_eventGraph (hpage : ∀ page ∈ c.blueprint.ubergraphPages,
    GraphAbove rank env.schema.ubergraphFunctionName page.name)
    (hosts : Hosts rank c.blueprint.macroGraphs env.schema.ubergraphFunctionName)
    (h : c.log.Descends rank) :
    (c.eventGraph env).1.name = env.schema.ubergraphFunctionName ∧
      (c.eventGraph env).2.log.Descends rank := by
  have hmerged := descends_mergePages hpage h env.options.saveIntermediateProducts
  unfold eventGraph
  dsimp only
  generalize mergePages c.blueprint.ubergraphPages _ c.log _ = merged at hmerged ⊢
  obtain ⟨_, g, log⟩ := merged
  have hspawned := descends_spawnMissingEvents hmerged.1 hmerged.2 c.blueprint.implementedInterfaces
  dsimp only at hspawned ⊢
  generalize spawnMissingEvents g c.blueprint.implementedInterfaces log = spawned at hspawned ⊢
  obtain ⟨_, g, log⟩ := spawned
  obtain ⟨hname, hlog⟩ := hspawned
  have hexpanded := descends_expand env (c := { c with log }) (g := g)
    (by rw [hname]; exact hosts) hlog
  generalize expand env { c with log } g = expanded at hexpanded ⊢
  obtain ⟨g, c'⟩ := expanded
  have htimelines := descends_expandTimelines (hexpanded.1.trans hname) hexpanded.2 hosts.node
    c.blueprint.timelines
  generalize expandTimelines g c.blueprint.timelines c'.log = timelines at htimelines ⊢
  exact htimelines

theorem descends_addStub {ubergraph : Graph} {event : NodeId}
    (hstub : ∀ d ∈ (c.addStub env ubergraph event).contexts, d.stub.isSome = true →
      ∀ m n, rank (.node ubergraph.name m) < rank (.node d.graph.name n))
    (h : c.log.Descends rank) : (c.addStub env ubergraph event).log.Descends rank := by
  have hbuild := EventStub.descends_build ubergraph event env.schema c.cls c.classNetNames h
  unfold addStub at hstub ⊢
  split
  · next hkind =>
    rw [hkind] at hstub
    dsimp only at hstub ⊢
    generalize EventStub.build ubergraph event env.schema c.cls c.classNetNames c.log = built
      at hbuild hstub ⊢
    obtain ⟨_ | stub, names, log⟩ := built
    · exact hbuild nofun
    · refine hbuild fun stub' heq n ↦ ?_
      cases heq
      exact hstub _ (List.mem_append_right _ (List.mem_singleton_self _)) rfl event n
  · exact h

theorem descends_addStubs {ubergraph : Graph} {events : List NodeId}
    (hstub : ∀ d ∈ (events.foldl (addStub env ubergraph) c).contexts, d.stub.isSome = true →
      ∀ m n, rank (.node ubergraph.name m) < rank (.node d.graph.name n))
    (h : c.log.Descends rank) : (events.foldl (addStub env ubergraph) c).log.Descends rank := by
  induction events generalizing c with
  | nil => exact h
  | cons event events ih =>
    refine ih hstub (descends_addStub (fun d hd ↦ hstub d ?_) h)
    exact (Enlarges.foldl (enlarges_addStub env ubergraph) events _).mem hd

/-- Sources descend once the functions are listed. -/
theorem descends_addFunctions (hranked : c.Ranked rank env) (h : c.log.Descends rank) :
    (c.addFunctions env).log.Descends rank := by
  have hgraphs {f : Compilation → Graph → Compilation} {gs : List Graph} {c' : Compilation}
      (hf : ∀ c g, (f c g).blueprint = c.blueprint ∧ (f c g).log = (c.expand env g).2.log)
      (hgs : ∀ g ∈ gs, Hosts rank c.blueprint.macroGraphs g.name)
      (hc' : c'.blueprint = c.blueprint ∧ c'.log.Descends rank) :
      (gs.foldl f c').blueprint = c.blueprint ∧ (gs.foldl f c').log.Descends rank := by
    refine List.foldlRecOn (motive := fun c' : Compilation ↦
      c'.blueprint = c.blueprint ∧ c'.log.Descends rank) gs f hc' fun c' hc' g hg ↦ ?_
    obtain ⟨hblueprint, hlog⟩ := hf c' g
    refine ⟨hblueprint.trans hc'.1, ?_⟩
    rw [hlog]
    exact (descends_expand env (hc'.1 ▸ hgs g hg) hc'.2).2
  have hhosts := hranked.graph
  simp only [List.mem_append] at hhosts
  have hevents : let c' := if (c.blueprint.blueprintType.supportsEventGraphs &&
      !c.blueprint.ubergraphPages.isEmpty) = true then c.addEventGraph env else c
      c'.blueprint = c.blueprint ∧ c'.log.Descends rank := by
    dsimp only
    split
    · next hevents =>
      obtain ⟨hname, hlog⟩ := descends_eventGraph hranked.page hranked.ubergraph h
      refine ⟨(Lists.addEventGraph (sound_true env c.blueprint) ⟨rfl, fun _ _ ↦ trivial⟩).1, ?_⟩
      rw [addEventGraph_eq]
      refine descends_addStubs (fun d hd ↦ ?_) hlog
      rw [hname]
      refine hranked.stub d ?_
      rw [← addEventGraph_eq] at hd
      exact (enlarges_addFunctions hevents).mem hd
    · exact ⟨rfl, h⟩
  refine (hgraphs (f := addInterfaceGraph env) (fun _ _ ↦ ⟨rfl, rfl⟩)
    (fun g hg ↦ hhosts g (.inr hg)) ?_).2
  refine hgraphs (f := addDelegateGraph env) (fun _ _ ↦ ⟨rfl, rfl⟩)
    (fun g hg ↦ hhosts g (.inl (.inr hg))) ?_
  exact hgraphs (f := addFunctionGraph env) (fun _ _ ↦ ⟨rfl, rfl⟩)
    (fun g hg ↦ hhosts g (.inl (.inl hg))) hevents

end Compilation

end VisualScript
