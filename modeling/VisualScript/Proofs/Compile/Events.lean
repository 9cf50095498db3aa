import VisualScript.Proofs.Compile.Lineage
import VisualScript.Proofs.Compile.Listing
import VisualScript.Proofs.Compile.Overriding
import VisualScript.Proofs.Compile.Sources
import VisualScript.Proofs.Graph.Consolidation
import VisualScript.Proofs.Graph.Linking
import VisualScript.Proofs.Graph.Numbering
import VisualScript.Proofs.Graph.Pins
import VisualScript.Proofs.Names.References
import VisualScript.Proofs.Reports.Expansion

/-!
# Functions of events

In a full compile that reports no error every event of the author has a function, and so has
every function of an interface that could be an event, if there is a page of events at all.
For the interfaces it does not matter whether the graphs are well-formed.
That an event is marked as an override is no reason to look for what it overrides: one that
overrides nothing becomes a root.
-/

namespace VisualScript

/-!
## Events of the consolidated graph

Settling the names of members leaves events alone.  Every event of a page is enrolled in the
consolidated graph, and so is one of every interface function without outputs that has no graph
of its own.
-/

namespace Graph

/-! ### Renaming -/

/-- The events of the graph are events of the other, under the same names. -/
def KeepsEvents (g g' : Graph) : Prop :=
  ∀ n data, g.kind? n = some (.event data) → g'.kind? n = some (.event data)

namespace KeepsEvents

variable {g g' g'' : Graph}

theorem refl (g : Graph) : KeepsEvents g g := fun _ _ h ↦ h

theorem trans (h : KeepsEvents g g') (h' : KeepsEvents g' g'') : KeepsEvents g g'' :=
  fun n data hkind ↦ h' n data (h n data hkind)

theorem foldl {α : Type} {f : Graph → α → Graph} (hf : ∀ g a, KeepsEvents g (f g a)) (l : List α)
    (g : Graph) : KeepsEvents g (l.foldl f g) :=
  List.foldlRecOn (motive := KeepsEvents g) l f (.refl g) fun g' hg a _ ↦ hg.trans (hf g' a)

/-- Kinds that change at one node, and there not if it is an event. -/
theorem of_kind? {f : NodeKind → NodeKind} (hf : ∀ data, f (.event data) = .event data)
    {m : NodeId} (hkind : ∀ n, g'.kind? n = if m = n then (g.kind? n).map f else g.kind? n) :
    KeepsEvents g g' := by
  intro n data hn
  rw [hkind, hn]
  split
  · exact congrArg some (hf data)
  · rfl

end KeepsEvents

theorem keepsEvents_mapKinds {f : NodeKind → NodeKind} (hf : ∀ data, f (.event data) = .event data)
    (g : Graph) : KeepsEvents g (g.mapKinds f) :=
  .foldl (fun g m ↦ .of_kind? hf fun n ↦ g.kind?_modifyNode m n f) g.order g

theorem keepsEvents_renameVariable (old new : String) (g : Graph) :
    KeepsEvents g (g.renameVariable old new) :=
  .foldl (fun g m ↦ .of_kind? (fun _ ↦ by rfl) (g.kind?_renameVariableAt old new m)) g.order g

theorem keepsEvents_renameFunction (old new : String) (g : Graph) :
    KeepsEvents g (g.renameFunction old new) :=
  keepsEvents_mapKinds (f := (·.renameCall old new)) (fun _ ↦ by rfl) g

end Graph

/-! ### Events of interfaces -/

/-- The functions of valid interfaces, each with the interface that it comes from. -/
abbrev interfaceFunctions (interfaces : List ImplementedInterface) :
    List (ImplementedInterface × Function) :=
  interfaces.flatMap fun i ↦
    if i.interface.own.flags.contains ClassFlags.interface then
      (i.interface.hierarchy.flatMap (·.own.functions)).map (i, ·)
    else []

namespace Graph.Enrolled

variable {kept : List (NodeId × NodeKind)} {g : Graph} (h : Enrolled kept g)
include h

theorem exists_of_hasEvent {function : String} (hevent : g.hasEvent function = true) :
    ∃ n data, data.function = function ∧ Enrolled [(n, .event data)] g := by
  obtain ⟨node, hnode, hmatch⟩ := List.any_eq_true.1 hevent
  obtain ⟨n, hn, hnode⟩ := List.mem_filterMap.1 hnode
  have hkind : g.kind? n = some node.kind := congrArg _ hnode
  cases hcase : node.kind with
  | event data =>
    rw [hcase] at hmatch hkind
    exact ⟨n, data, beq_iff_eq.1 hmatch, h.keep hn hkind rfl⟩
  | _ =>
    rw [hcase] at hmatch
    cases hmatch

/-- The new event is enrolled. -/
theorem spawnOverride (interface : Class) (f : Function) (log : MessageLog) :
    Enrolled [((VisualScript.spawnOverride g interface f log).1,
      .event (.overriding f.name interface.name))]
        (VisualScript.spawnOverride g interface f log).2.1 := by
  refine List.foldlRecOn (motive := fun acc : Graph × MessageLog ↦ Enrolled
    [(⟨g.nodes.size⟩, .event (.overriding f.name interface.name))] acc.1) _ _ (h.spawned rfl)
      fun acc hacc p _ ↦ ?_
  dsimp only
  split
  · next hadd => exact hacc.addPin hadd
  · exact hacc

/-- A function that has neither a graph nor outputs has an event once all events are there. -/
theorem exists_event_spawnMissingEvents {interfaces : List ImplementedInterface}
    {i : ImplementedInterface} {f : Function} (hf : (i, f) ∈ interfaceFunctions interfaces)
    (houtputs : f.hasOutputs = false) (hgraphs : ∀ graph ∈ i.graphs, graph.name ≠ f.name)
    (log : MessageLog) : ∃ n data, data.function = f.name ∧
      Enrolled [(n, .event data)] (spawnMissingEvents g interfaces log).2.1 := by
  have hevents : spawnMissingEvents g interfaces log =
      (interfaceFunctions interfaces).foldl addMissingEvent ([], g, log) := rfl
  obtain ⟨before, after, hsplit⟩ := List.append_of_mem hf
  rw [hevents, hsplit, List.foldl_append, List.foldl_cons]
  have hbefore := (keptAround_enrolled kept).addMissingEvents h before [] log
  generalize before.foldl addMissingEvent ([], g, log) = acc at hbefore
  obtain ⟨spawned, g', log'⟩ := acc
  -- the event is there after the turn of the function, and stays
  obtain ⟨n, data, hname, hturn⟩ : ∃ n data, data.function = f.name ∧
      Enrolled [(n, .event data)] (addMissingEvent (spawned, g', log') (i, f)).2.1 := by
    unfold addMissingEvent
    split
    · next hskip =>
      have hskip : (∃ graph ∈ i.graphs, graph.name = f.name) ∨ g'.hasEvent f.name = true := by
        simpa [houtputs] using hskip
      exact hbefore.exists_of_hasEvent (hskip.resolve_left
        fun ⟨graph, hgraph, hname⟩ ↦ hgraphs graph hgraph hname)
    · exact ⟨_, _, rfl, hbefore.spawnOverride i.interface f log'⟩
  exact ⟨n, data, hname, (keptAround_enrolled _).addMissingEvents hturn after _ _⟩

end Graph.Enrolled

/-! ### The whole graph -/

namespace Compilation

variable {c : Compilation}

theorem enrolled_eventGraph (env : CompileEnv) {kept : List (NodeId × NodeKind)}
    (h : Graph.Enrolled kept (c.pageGraph env).1) : Graph.Enrolled kept (c.eventGraph env).1 :=
  kept_eventGraph (Graph.keptAround_enrolled kept) env (fun _ _ _ ↦ trivial) h

/-- Every event of a well-formed page is an event of the consolidated graph. -/
theorem exists_event_of_page (env : CompileEnv) {page : Graph}
    (hpage : page ∈ c.blueprint.ubergraphPages) (hwf : page.WellFormed) {n : NodeId}
    {data : EventData} (hkind : page.kind? n = some (.event data)) :
    ∃ m, Graph.Enrolled [(m, .event data)] (c.eventGraph env).1 := by
  obtain ⟨m, hm⟩ := exists_enrolled_mergePages env.schema.ubergraphFunctionName c.log
    env.options.saveIntermediateProducts hpage hwf hkind rfl
  exact ⟨m, enrolled_eventGraph env ((Graph.keptAround_enrolled _).spawnMissingEvents hm _ _)⟩

/-- Every interface function without outputs that has no graph has an event, whatever the pages
and macros are. -/
theorem exists_event_of_interface (env : CompileEnv) {i : ImplementedInterface} {f : Function}
    (hf : (i, f) ∈ interfaceFunctions c.blueprint.implementedInterfaces)
    (houtputs : f.hasOutputs = false) (hgraphs : ∀ graph ∈ i.graphs, graph.name ≠ f.name) :
    ∃ n data, data.function = f.name ∧ Graph.Enrolled [(n, .event data)] (c.eventGraph env).1 := by
  obtain ⟨n, data, hname, hspawned⟩ := (enrolled_mergePages env.schema.ubergraphFunctionName c.log
    env.options.saveIntermediateProducts).exists_event_spawnMissingEvents hf houtputs hgraphs _
  exact ⟨n, data, hname, enrolled_eventGraph env hspawned⟩

end Compilation

/-! ## Settled names -/

namespace Blueprint

/-- The events of the pages are those of the other Blueprint, and so are the interfaces. -/
structure KeepsEvents (b b' : Blueprint) : Prop where
  blueprintType : b'.blueprintType = b.blueprintType
  interfaces :
    b'.implementedInterfaces.map (·.interface) = b.implementedInterfaces.map (·.interface)
  pages : List.Forall₂ Graph.KeepsEvents b.ubergraphPages b'.ubergraphPages

namespace KeepsEvents

variable {b b' b'' : Blueprint}

theorem refl (b : Blueprint) : KeepsEvents b b :=
  ⟨rfl, rfl, List.forall₂_same.2 fun g _ ↦ .refl g⟩

theorem trans (h : KeepsEvents b b') (h' : KeepsEvents b' b'') : KeepsEvents b b'' := by
  refine ⟨h'.blueprintType.trans h.blueprintType, h'.interfaces.trans h.interfaces, ?_⟩
  have hpages := h.pages
  have hpages' := h'.pages
  generalize b.ubergraphPages = pages, b'.ubergraphPages = pages', b''.ubergraphPages = pages''
    at hpages hpages'
  induction hpages generalizing pages'' with
  | nil =>
    cases hpages'
    exact .nil
  | cons hg _ ih =>
    cases hpages' with
    | cons hg' hrest' => exact .cons (hg.trans hg') (ih _ hrest')

theorem mapGraphs {f : Graph → Graph} (hf : ∀ g, Graph.KeepsEvents g (f g)) (b : Blueprint) :
    KeepsEvents b (b.mapGraphs f) where
  blueprintType := rfl
  interfaces := List.map_map
  pages := List.forall₂_map_right_iff.2 (List.forall₂_same.2 fun g _ ↦ hf g)

theorem foldl {α : Type} {f : Naming → α → Naming}
    (hf : ∀ s a, KeepsEvents s.blueprint (f s a).blueprint) (l : List α) {s : Naming}
    (h : KeepsEvents b s.blueprint) : KeepsEvents b (l.foldl f s).blueprint :=
  List.foldlRecOn (motive := fun s : Naming ↦ KeepsEvents b s.blueprint) l f h
    fun s hs a _ ↦ hs.trans (hf s a)

/-- An event of a page is found on a page of the other Blueprint. -/
theorem exists_page (h : KeepsEvents b b') {page : Graph} (hpage : page ∈ b.ubergraphPages)
    {n : NodeId} {data : EventData} (hkind : page.kind? n = some (.event data)) :
    ∃ page' ∈ b'.ubergraphPages, page'.kind? n = some (.event data) := by
  have hpages := h.pages
  generalize b.ubergraphPages = pages, b'.ubergraphPages = pages' at hpages hpage
  induction hpages with
  | nil => cases hpage
  | @cons g g' _ _ hg _ ih =>
    rcases List.mem_cons.1 hpage with rfl | hmem
    · exact ⟨g', List.mem_cons_self, hg n data hkind⟩
    · obtain ⟨page', hpage', hkind'⟩ := ih hmem
      exact ⟨page', List.mem_cons_of_mem _ hpage', hkind'⟩

end KeepsEvents

end Blueprint

namespace Naming

open Blueprint (KeepsEvents)

variable (s : Naming)

theorem keepsEvents_settleVariable (i : Nat) :
    KeepsEvents s.blueprint (s.settleVariable i).blueprint := by
  unfold settleVariable
  split
  · exact .refl _
  · next var _ =>
    have hrename (new : String) : KeepsEvents s.blueprint
        (if isDeclaredElsewhere s.blueprint i var.name then s.blueprint
          else s.blueprint.renameVariableReferences var.name new) := by
      split
      · exact .refl _
      · exact .mapGraphs (Graph.keepsEvents_renameVariable _ _) _
    dsimp only
    split
    · exact .refl _
    · next new _ =>
      exact ⟨(hrename new).blueprintType, (hrename new).interfaces, (hrename new).pages⟩

theorem keepsEvents_settleTimeline (i : Nat) :
    KeepsEvents s.blueprint (s.settleTimeline i).blueprint := by
  unfold settleTimeline
  split
  · exact .refl _
  · next timeline _ =>
    dsimp only
    split
    · exact .refl _
    · next new _ =>
      have hrename : KeepsEvents s.blueprint
          (s.blueprint.renameTimelineReferences timeline.name new) :=
        .mapGraphs (Graph.keepsEvents_mapKinds fun _ ↦ rfl) _
      exact ⟨hrename.blueprintType, hrename.interfaces, hrename.pages⟩

theorem keepsEvents_settleComponents : KeepsEvents s.blueprint s.settleComponents.blueprint := by
  unfold settleComponents
  split
  · exact .refl _
  · refine .foldl (fun s e ↦ ?_) _ ⟨rfl, rfl, List.forall₂_same.2 fun g _ ↦ .refl g⟩
    exact .mapGraphs (Graph.keepsEvents_renameVariable _ _) _

theorem keepsEvents_settleFunction (i : Nat) :
    KeepsEvents s.blueprint (s.settleFunction i).blueprint := by
  unfold settleFunction
  split
  · exact .refl _
  · next graph _ =>
    dsimp only
    split
    · exact .refl _
    · next new _ =>
      have hrename : KeepsEvents s.blueprint
          (s.blueprint.renameFunctionReferences graph.name new) :=
        .mapGraphs (Graph.keepsEvents_renameFunction _ _) _
      exact ⟨hrename.blueprintType, hrename.interfaces, hrename.pages⟩

end Naming

/-- Settling names keeps events and interfaces. -/
theorem Blueprint.keepsEvents_settleNames (b : Blueprint) (log : MessageLog) :
    KeepsEvents b (b.settleNames log).1 := by
  refine .foldl Naming.keepsEvents_settleFunction _ ?_
  refine KeepsEvents.trans ?_ (Naming.keepsEvents_settleComponents _)
  refine .foldl Naming.keepsEvents_settleTimeline _ ?_
  exact .foldl Naming.keepsEvents_settleVariable _ (.refl b)

/-! ## Interface graphs -/

/-- The name of the function that a graph becomes. -/
def Blueprint.compiledName (b : Blueprint) (options : CompileOptions) (g : Graph) : String :=
  (expandMacros g b.macroGraphs .empty options.saveIntermediateProducts).graph.functionName

namespace Compilation

variable {c : Compilation}

/-- The graph of an interface becomes a function. -/
theorem exists_context_of_interfaceGraph (env : CompileEnv) {g : Graph}
    (hg : g ∈ c.blueprint.implementedInterfaces.flatMap (·.graphs)) :
    ∃ d ∈ (c.addFunctions env).contexts,
      d.functionName = c.blueprint.compiledName env.options g := by
  have hany := sound_true env c.blueprint
  have hstart : Lists c.blueprint (fun _ ↦ True) c := ⟨rfl, fun _ _ ↦ trivial⟩
  obtain ⟨before, after, hsplit⟩ := List.append_of_mem hg
  unfold addFunctions
  dsimp only
  rw [hsplit, List.foldl_append, List.foldl_cons]
  -- the Blueprint is the same when it is the turn of the graph
  generalize hturn : before.foldl (addInterfaceGraph env) _ = c'
  have hblueprint : c'.blueprint = c.blueprint := by
    refine hturn ▸ (Lists.foldl (b := c.blueprint) (P := fun _ ↦ True) (fun _ _ _ hc ↦ ?_)
      (Lists.foldl (fun _ _ _ hc ↦ ?_) (Lists.foldl (fun _ _ _ hc ↦ ?_) ?_))).1
    · exact Lists.addContext hc trivial
    · exact Lists.addContext hc trivial
    · exact Lists.addContext hc trivial
    · split
      · exact hstart.addEventGraph hany
      · exact hstart
  have hrest := Enlarges.foldl (enlarges_addInterfaceGraph env) after (c'.addInterfaceGraph env g)
  refine ⟨_, hrest.mem (List.mem_append_right _ (List.mem_singleton_self _)), ?_⟩
  have hgraph := Expansion.graph_of_alike (expandMacros_ignoresLog g c.blueprint.macroGraphs
    env.options.saveIntermediateProducts (s := .empty) (t := c'.log) trivial)
  show (expandMacros g c'.blueprint.macroGraphs c'.log
    env.options.saveIntermediateProducts).graph.functionName = _
  rw [hblueprint, hgraph]
  rfl

end Compilation

/-! ## The whole compile -/

namespace Blueprint

variable {b : Blueprint} {options : CompileOptions} {suffix : Bool}

/-- Every function that is listed is there in the end, and settled. -/
theorem settled_of_listed (hfull : options.compileType = .full)
    (hlog : (b.compile options suffix).log.numErrors = 0) {d : FunctionContext}
    (hd : d ∈ ((b.shaped suffix).addFunctions (b.environment options)).contexts) :
    ∃ f, (b.compile options suffix).cls.findOwnFunction? d.functionName = some f ∧
      f.SettledAgainst ((b.compile options suffix).cls.findOverridden? d.functionName) := by
  obtain ⟨s, c₂, c₃, hc₃, -, hlineage⟩ := exists_lineage hfull hlog hd
  let patched := Compilation.patchStub (b.passed options suffix).eventLabels c₃
  have hpatched : patched ∈ (b.compile options suffix).contexts := by
    rw [contexts_compile hfull]
    exact List.mem_map_of_mem hc₃
  have hname : patched.functionName = d.functionName :=
    (c₃.sameHeader_patchStub _).functionName.trans hlineage.header.functionName
  obtain ⟨-, f, hf, -⟩ := script_of_compile hfull hlog hpatched
  have hsettled := settled_of_compile hlog f (List.mem_of_find?_eq_some hf)
  rw [Class.name_of_findOwnFunction? hf, hname] at hsettled
  exact ⟨f, hname ▸ hf, hsettled⟩

theorem numErrors_listed (hfull : options.compileType = .full)
    (hlog : (b.compile options suffix).log.numErrors = 0) :
    ((b.shaped suffix).addFunctions (b.environment options)).log.numErrors = 0 := by
  have hquiet := (compile_keeps b suffix hfull).2.2
  rw [hlog, passed] at hquiet
  generalize (b.shaped suffix).addFunctions (b.environment options) = c at hquiet ⊢
  exact Nat.le_zero.1 (Nat.le_trans (c.afterPasses_keeps _).2.1 hquiet)

theorem WellFormed.pages (h : b.WellFormed) : ∀ g ∈ b.ubergraphPages, g.WellFormed :=
  fun g hg ↦ h g (by simp only [allGraphs, List.mem_append]; exact .inl (.inl (.inl (.inl hg))))

theorem WellFormed.macros (h : b.WellFormed) : ∀ g ∈ b.macroGraphs, g.WellFormed :=
  fun g hg ↦ h g (by simp only [allGraphs, List.mem_append]; exact .inl (.inr hg))

/-- The pages and macros that a compile begins with are well-formed. -/
theorem wellFormed_shaped (hwf : b.WellFormed) (suffix : Bool) :
    (∀ g ∈ (b.shaped suffix).blueprint.ubergraphPages, g.WellFormed) ∧
      ∀ g ∈ (b.shaped suffix).blueprint.macroGraphs, g.WellFormed := by
  have hsettled := hwf.settleNames .empty
  rw [blueprint_shaped]
  exact ⟨hsettled.pages, hsettled.macros⟩

theorem keepsEvents_shaped (b : Blueprint) (suffix : Bool) :
    KeepsEvents b (b.shaped suffix).blueprint := by
  have hkeeps := b.keepsEvents_settleNames .empty
  rw [blueprint_shaped]
  exact ⟨hkeeps.blueprintType, hkeeps.interfaces, hkeeps.pages⟩

/-- With a page of events the compile begins with an event graph. -/
theorem supportsEvents_shaped (suffix : Bool)
    (htype : b.blueprintType.supportsEventGraphs = true) (hpages : b.ubergraphPages ≠ []) :
    ((b.shaped suffix).blueprint.blueprintType.supportsEventGraphs &&
      !(b.shaped suffix).blueprint.ubergraphPages.isEmpty) = true := by
  have hkeeps := b.keepsEvents_shaped suffix
  have hlength := hkeeps.pages.length_eq
  rw [hkeeps.blueprintType, htype, Bool.true_and, Bool.not_eq_true', List.isEmpty_eq_false_iff]
  intro hnil
  rw [hnil, List.length_nil, List.length_eq_zero_iff] at hlength
  exact hpages hlength

/-- Every event that the consolidated graph lists has a function. -/
theorem settled_of_event (hfull : options.compileType = .full)
    (hlog : (b.compile options suffix).log.numErrors = 0)
    (htype : b.blueprintType.supportsEventGraphs = true) (hpages : b.ubergraphPages ≠ [])
    {n : NodeId} {data : EventData} (hevent : Graph.Enrolled [(n, .event data)]
      ((b.shaped suffix).eventGraph (b.environment options)).1) :
    ∃ f, (b.compile options suffix).cls.findOwnFunction? data.function = some f ∧
      f.SettledAgainst ((b.compile options suffix).cls.findOverridden? data.function) := by
  obtain ⟨hn, hkind, -⟩ := hevent.kept _ (List.mem_singleton_self _)
  obtain ⟨others, hcontexts, -, hstubs⟩ := Compilation.exists_stubOf_of_listed
    (supportsEvents_shaped suffix htype hpages) (contexts_shaped b suffix)
      (numErrors_listed hfull hlog)
  obtain ⟨d, hd, ws, hstub⟩ := hstubs n (hevent.mem_nodesWhere.2 ⟨hn, _, hkind, rfl⟩) data hkind
  have hsettled := settled_of_listed hfull hlog (hcontexts ▸ List.mem_cons_of_mem _ hd)
  rwa [hstub.functionName] at hsettled

/-! ### Events of pages -/

/-- Every event of a page has a function of its own.  It is settled against the function of its
name that is declared before; without one it is a root, even if the event is marked as an
override. -/
theorem function_of_event (hwf : b.WellFormed) (hfull : options.compileType = .full)
    (hlog : (b.compile options suffix).log.numErrors = 0)
    (htype : b.blueprintType.supportsEventGraphs = true) {page : Graph}
    (hpage : page ∈ b.ubergraphPages) {n : NodeId} {data : EventData}
    (hkind : page.kind? n = some (.event data)) :
    ∃ f, (b.compile options suffix).cls.findOwnFunction? data.function = some f ∧
      f.SettledAgainst ((b.compile options suffix).cls.findOverridden? data.function) := by
  obtain ⟨page', hpage', hkind'⟩ := (b.keepsEvents_shaped suffix).exists_page hpage hkind
  obtain ⟨m, hm⟩ := Compilation.exists_event_of_page (b.environment options) hpage'
    ((wellFormed_shaped hwf suffix).1 page' hpage') hkind'
  exact settled_of_event hfull hlog htype (List.ne_nil_of_mem hpage) hm

/-- An event that is marked as an override of a function that nobody declares. -/
def stray : Blueprint :=
  let page := ((Graph.empty "Page").spawn (.event (.overriding "Haunt" "Actor"))).2
  { Blueprint.new "House" (Class.new "Actor" none) with ubergraphPages := [page] }

theorem function_of_event_stray :
    let c := stray.compile .full true
    stray.WellFormed ∧ c.log.numErrors = 0 ∧ ∃ page ∈ stray.ubergraphPages, ∃ n data,
      page.kind? n = some (.event data) ∧ data.isOverride ∧
        c.cls.findOverridden? data.function = none ∧
          ∃ f, c.cls.findOwnFunction? data.function = some f ∧ f.IsRoot := by
  intro c
  have hgraphs : ∀ g ∈ stray.allGraphs, g.WellFormed := by decide +kernel
  have hlog : c.log.numErrors = 0 := by decide +kernel
  have hnone : c.cls.findOverridden? "Haunt" = none := by
    rw [← Option.isNone_iff_eq_none]
    decide +kernel
  let page := ((Graph.empty "Page").spawn (.event (.overriding "Haunt" "Actor"))).2
  have hpage : page ∈ stray.ubergraphPages := List.mem_singleton_self page
  have hkind : page.kind? ⟨0⟩ = some (.event (.overriding "Haunt" "Actor")) := by decide +kernel
  obtain ⟨f, hf, hsettled⟩ := function_of_event hgraphs rfl hlog rfl hpage hkind
  rw [show (EventData.overriding "Haunt" "Actor").function = "Haunt" from rfl, hnone] at hsettled
  exact ⟨hgraphs, hlog, page, hpage, ⟨0⟩, _, hkind, rfl, hnone, f, hf, hsettled⟩

theorem not_error_of_stray_event : ¬∀ (b : Blueprint) (options : CompileOptions) (suffix : Bool),
    options.compileType = .full → b.blueprintType.supportsEventGraphs = true →
      ∀ page ∈ b.ubergraphPages, ∀ n data, page.kind? n = some (.event data) →
        data.isOverride = true → (b.parentClass.findFunction? data.function).isNone = true →
          (∀ i ∈ b.implementedInterfaces,
            (i.interface.findFunction? data.function).isNone = true) →
          0 < (b.compile options suffix).log.numErrors := by
  intro h
  have hlog : (stray.compile .full true).log.numErrors = 0 := by decide +kernel
  have herror := h stray .full true rfl rfl _ (List.mem_singleton_self _) ⟨0⟩
    (.overriding "Haunt" "Actor") (by decide +kernel) rfl (by decide +kernel) (by decide +kernel)
  rw [hlog] at herror
  exact absurd herror (Nat.lt_irrefl 0)

/-! ### Functions of interfaces -/

theorem compiledName_withoutClass (b : Blueprint) (options : CompileOptions) (g : Graph) :
    { b with generatedClass := none }.compiledName options g = b.compiledName options g := rfl

/-- Every function without outputs of an interface has a function of its name on the class, if the
graphs of that name become one and there is a graph or, for the event, a page.  Nothing is asked
of the graphs otherwise. -/
theorem function_of_interface (hfull : options.compileType = .full)
    (hlog : (b.compile options suffix).log.numErrors = 0)
    (htype : b.blueprintType.supportsEventGraphs = true)
    {interface : Class} (hinterface : interface ∈ b.implementedInterfaces.map (·.interface))
    (hvalid : interface.own.flags.contains ClassFlags.interface = true) {f : Function}
    (hf : f ∈ interface.hierarchy.flatMap (·.own.functions)) (houtputs : f.hasOutputs = false)
    (hnamed : ∀ i ∈ (b.settleNames .empty).1.implementedInterfaces, i.interface = interface →
      ∀ g ∈ i.graphs, g.name = f.name →
        (b.settleNames .empty).1.compiledName options g = f.name)
    (hpages : b.ubergraphPages = [] → ∃ i ∈ (b.settleNames .empty).1.implementedInterfaces,
      i.interface = interface ∧ ∃ g ∈ i.graphs, g.name = f.name) :
    ∃ f', (b.compile options suffix).cls.findOwnFunction? f.name = some f' ∧
      f'.SettledAgainst ((b.compile options suffix).cls.findOverridden? f.name) := by
  by_cases hgraph : ∃ i ∈ (b.settleNames .empty).1.implementedInterfaces,
      i.interface = interface ∧ ∃ g ∈ i.graphs, g.name = f.name
  · obtain ⟨i, hi, heq, g, hg, hname⟩ := hgraph
    have hmem : g ∈ (b.shaped suffix).blueprint.implementedInterfaces.flatMap (·.graphs) := by
      rw [blueprint_shaped]
      exact List.mem_flatMap.2 ⟨i, hi, hg⟩
    obtain ⟨d, hd, hfunction⟩ := Compilation.exists_context_of_interfaceGraph
      (b.environment options) hmem
    rw [blueprint_shaped, compiledName_withoutClass] at hfunction
    have hlisted := settled_of_listed hfull hlog hd
    rwa [hfunction.trans (hnamed i hi heq g hg hname)] at hlisted
  · -- nothing but an event is left for the function
    rw [← (b.keepsEvents_shaped suffix).interfaces] at hinterface
    obtain ⟨i, hi, rfl⟩ := List.mem_map.1 hinterface
    have hpair : (i, f) ∈ interfaceFunctions (b.shaped suffix).blueprint.implementedInterfaces := by
      refine List.mem_flatMap.2 ⟨i, hi, ?_⟩
      rw [if_pos hvalid]
      exact List.mem_map_of_mem hf
    rw [blueprint_shaped] at hi
    obtain ⟨n, data, hname, hevent⟩ := Compilation.exists_event_of_interface
      (b.environment options) hpair houtputs fun g hg hname ↦ hgraph ⟨i, hi, rfl, g, hg, hname⟩
    exact hname ▸ settled_of_event hfull hlog htype (mt hpages hgraph) hevent

/-- An interface with a function that has a graph, and one that has none. -/
def talking (pages : List Graph) (entry : EntryData) : Blueprint :=
  let declared (name : String) : Function := {
    name
    flags := .union [FunctionFlags.event, FunctionFlags.blueprintEvent,
      FunctionFlags.publicAccess] }
  let talker := Class.new "Talker" none
  let wave := ((Graph.empty "Wave").spawn (.functionEntry entry)).2
  { Blueprint.new "Statue" (Class.new "Actor" none) with
    ubergraphPages := pages
    implementedInterfaces := [{
      interface := { talker with
        own.flags := ClassFlags.interface
        own.functions := [declared "Wave", declared "Greet"] }
      graphs := [wave] }] }

theorem function_of_interface_talking :
    let b := talking [Graph.empty "Page"] {}
    (b.compile .full true).log.numErrors = 0 ∧
      ∃ i ∈ b.implementedInterfaces, i.interface.own.functions.length = 2 ∧
        ∀ f ∈ i.interface.own.functions, ∃ f',
          (b.compile .full true).cls.findOwnFunction? f.name = some f' ∧
            f'.SettledAgainst ((b.compile .full true).cls.findOverridden? f.name) := by
  intro b
  have hlog : (b.compile .full true).log.numErrors = 0 := by decide +kernel
  have hall : ∀ i ∈ b.implementedInterfaces,
      i.interface.own.flags.contains ClassFlags.interface = true ∧
        (∀ f ∈ i.interface.own.functions, f.hasOutputs = false) := by decide +kernel
  have hnamed : ∀ i ∈ (b.settleNames .empty).1.implementedInterfaces, ∀ g ∈ i.graphs,
      (b.settleNames .empty).1.compiledName .full g = g.name := by decide +kernel
  refine ⟨hlog, _, List.mem_singleton_self _, rfl, fun f hf ↦ ?_⟩
  obtain ⟨hvalid, houtputs⟩ := hall _ (List.mem_singleton_self _)
  refine function_of_interface rfl hlog rfl (List.mem_singleton_self _) hvalid
    (List.mem_flatMap.2 ⟨_, List.mem_singleton_self _, hf⟩) (houtputs f hf) ?_ ?_
  · exact fun i hi _ g hg hname ↦ (hnamed i hi g hg).trans hname
  · exact fun hnil ↦ absurd hnil (List.cons_ne_nil _ _)

/-- A graph whose entry asks for another name becomes another function, and keeps the event out. -/
example :
    let c := (talking [Graph.empty "Page"] { customName := some "Bow" }).compile .full true
    c.log.numErrors = 0 ∧ c.cls.findOwnFunction? "Wave" = none := by
  decide +kernel

theorem not_function_of_interface : ¬∀ (b : Blueprint) (options : CompileOptions) (suffix : Bool),
    options.compileType = .full → b.blueprintType.supportsEventGraphs = true →
      (b.compile options suffix).log.numErrors = 0 → ∀ i ∈ b.implementedInterfaces,
        i.interface.own.flags.contains ClassFlags.interface = true →
          ∀ f ∈ i.interface.hierarchy.flatMap (·.own.functions), f.hasOutputs = false →
            ((b.compile options suffix).cls.findOwnFunction? f.name).isSome = true := by
  intro h
  have hall := h (talking [] {}) .full true rfl rfl (by decide +kernel)
  have hgreet : ¬∀ i ∈ (talking [] {}).implementedInterfaces,
      i.interface.own.flags.contains ClassFlags.interface = true →
        ∀ f ∈ i.interface.hierarchy.flatMap (·.own.functions), f.hasOutputs = false →
          (((talking [] {}).compile .full true).cls.findOwnFunction? f.name).isSome = true := by
    decide +kernel
  exact hgreet hall

end Blueprint

end VisualScript
