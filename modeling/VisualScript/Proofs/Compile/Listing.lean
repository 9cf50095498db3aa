import VisualScript.Proofs.Compile.Sources
import VisualScript.Proofs.Graph.Consolidation
import VisualScript.Proofs.Graph.Stubs
import VisualScript.Proofs.Macros.Arrays
import VisualScript.Proofs.Macros.Copies
import VisualScript.Proofs.Macros.Tunnels

/-!
# Listed stubs

When the functions of a compile are listed without an error, the event graph comes first
and every event of it has a stub, which stores the parameters under the names of their
nets.
-/

namespace VisualScript

/-! ## Errors of expansions -/

namespace Expansion

theorem numErrors_placeCopies (e : Expansion) (source : Graph) (inst : NodeId)
    (copies : List NodeId) (keep : Bool) :
    (e.placeCopies source inst copies keep).log.numErrors = e.log.numErrors := by
  unfold placeCopies
  split
  · dsimp only
    split
    · exact MessageLog.numErrors_addSource ..
    · rfl
  · split <;> rfl

theorem le_numErrors_expandInstance (macros : List Graph) (keep : Bool) (e : Expansion)
    (inst : NodeId) : e.log.numErrors ≤ (expandInstance macros keep e inst).log.numErrors := by
  unfold expandInstance
  split
  · next data _ =>
    split
    · exact Nat.le_succ _
    · next source _ =>
      dsimp only
      refine Nat.le_trans ?_ (le_numErrors_foldl (le_numErrors_collapseTunnel inst) _ _)
      rw [numErrors_placeCopies, (dressed_recordCopies _ source (source.macroBody data) inst _).2]
      exact le_numErrors_foldl (le_numErrors_addEmptyArray inst) _ e
  · exact Nat.le_refl _

theorem le_numErrors_expandPasses (macros : List Graph) (keep : Bool) (passes : Nat)
    (e : Expansion) : e.log.numErrors ≤ (expandPasses macros keep passes e).log.numErrors := by
  induction passes generalizing e with
  | zero => exact le_numErrors_foldl (fun _ _ ↦ Nat.le_succ _) _ e
  | succ passes ih =>
    unfold expandPasses
    split
    · exact Nat.le_refl _
    · exact Nat.le_trans (le_numErrors_foldl (le_numErrors_expandInstance macros keep) _ e) (ih _)

end Expansion

namespace EventStub

/-- Building a stub keeps the names of nets and takes no error back. -/
theorem build_keeps (ubergraph : Graph) (event : NodeId) (schema : Schema) (parent : Class)
    (names : NetNameMap) (log : MessageLog) :
    names.Extends (build ubergraph event schema parent names log).2.1 ∧
      log.numErrors ≤ (build ubergraph event schema parent names log).2.2.numErrors := by
  have hsources (stub : Graph) (source : ObjectRef) :
      (recordSources log stub source).numErrors = log.numErrors :=
    List.foldlRecOn (motive := fun log' : MessageLog ↦ log'.numErrors = log.numErrors) stub.order
      _ rfl fun log' hlog id _ ↦ (MessageLog.numErrors_addSource ..).trans hlog
  have hnames := (storageNames_spec names ubergraph (parametersOf ubergraph event)).2.1
  unfold build
  split
  · dsimp only
    split
    · exact ⟨.refl _, Nat.le_succ _⟩
    · split
      · exact ⟨hnames, Nat.le_succ _⟩
      · exact ⟨hnames, (hsources _ _).ge⟩
  · exact ⟨.refl _, Nat.le_refl _⟩

end EventStub

namespace Compilation

variable {env : CompileEnv} {c c' : Compilation}

/-! ## Listing more functions -/

/-- Functions, names of nets and errors are added, but no event graph. -/
structure Enlarges (c c' : Compilation) : Prop where
  contexts : ∃ new, c'.contexts = c.contexts ++ new ∧ ∀ d ∈ new, d.isEventGraph = false
  names : c.classNetNames.Extends c'.classNetNames
  errors : c.log.numErrors ≤ c'.log.numErrors

namespace Enlarges

theorem refl (c : Compilation) : Enlarges c c :=
  ⟨⟨[], (List.append_nil _).symm, List.forall_mem_nil _⟩, .refl _, Nat.le_refl _⟩

theorem trans {c'' : Compilation} (h : Enlarges c c') (h' : Enlarges c' c'') : Enlarges c c'' := by
  obtain ⟨new, hnew, hothers⟩ := h.contexts
  obtain ⟨new', hnew', hothers'⟩ := h'.contexts
  refine ⟨⟨new ++ new', ?_, ?_⟩, h.names.trans h'.names, Nat.le_trans h.errors h'.errors⟩
  · rw [hnew', hnew, List.append_assoc]
  · exact List.forall_mem_append.2 ⟨hothers, hothers'⟩

theorem foldl {α : Type} {f : Compilation → α → Compilation} (hf : ∀ c a, Enlarges c (f c a))
    (l : List α) (c : Compilation) : Enlarges c (l.foldl f c) :=
  List.foldlRecOn (motive := fun c' ↦ Enlarges c c') l f (.refl c) fun c' hc a _ ↦
    hc.trans (hf c' a)

theorem mem (h : Enlarges c c') {d : FunctionContext} (hd : d ∈ c.contexts) : d ∈ c'.contexts := by
  obtain ⟨new, hnew, -⟩ := h.contexts
  rw [hnew]
  exact List.mem_append_left new hd

end Enlarges

theorem enlarges_addContext (c : Compilation) {d : FunctionContext} (hd : d.isEventGraph = false) :
    Enlarges c (c.addContext d) :=
  ⟨⟨[d], rfl, List.forall_mem_singleton.2 hd⟩, .refl _, Nat.le_refl _⟩

theorem enlarges_expand (env : CompileEnv) (c : Compilation) (g : Graph) :
    Enlarges c (c.expand env g).2 :=
  ⟨⟨[], (List.append_nil _).symm, List.forall_mem_nil _⟩, .refl _,
    Expansion.le_numErrors_expandPasses c.blueprint.macroGraphs env.options.saveIntermediateProducts
      Expansion.maxPasses { graph := g, log := c.log }⟩

theorem enlarges_addStub (env : CompileEnv) (ubergraph : Graph) (c : Compilation)
    (event : NodeId) : Enlarges c (c.addStub env ubergraph event) := by
  unfold addStub
  split
  · dsimp only
    obtain ⟨hnames, hlog⟩ := EventStub.build_keeps ubergraph event env.schema c.cls
      c.classNetNames c.log
    split
    · exact ⟨⟨[], (List.append_nil _).symm, List.forall_mem_nil _⟩, hnames, hlog⟩
    · exact ⟨⟨_, rfl, List.forall_mem_singleton.2 rfl⟩, hnames, hlog⟩
  · exact .refl c

theorem enlarges_addFunctionGraph (env : CompileEnv) (c : Compilation) (source : Graph) :
    Enlarges c (c.addFunctionGraph env source) :=
  (enlarges_expand env c source).trans (enlarges_addContext _ rfl)

theorem enlarges_addDelegateGraph (env : CompileEnv) (c : Compilation) (source : Graph) :
    Enlarges c (c.addDelegateGraph env source) :=
  (enlarges_expand env c source).trans (enlarges_addContext _ rfl)

theorem enlarges_addInterfaceGraph (env : CompileEnv) (c : Compilation) (source : Graph) :
    Enlarges c (c.addInterfaceGraph env source) :=
  (enlarges_expand env c source).trans (enlarges_addContext _ rfl)

/-! ## Stubs -/

/-- The function is the stub of an event, which takes the parameters and knows their storage. -/
structure StubOf (env : CompileEnv) (ubergraph : Graph) (event : NodeId) (data : EventData)
    (names : NetNameMap) (ws : List EventStub.Handover) (d : FunctionContext) : Prop where
  functionName : d.functionName = data.function
  stub : d.stub = some ⟨event, EventStub.callId⟩
  isEventGraph : d.isEventGraph = false
  interfaceStub : d.flags.interfaceStub = false
  userLocals : d.userLocals = []
  terms : d.terms = []
  wellFormed : d.graph.WellFormed
  wired : EventStub.Wired data env.schema.ubergraphFunctionName d.graph ws
  params : ws.map (·.param) = EventStub.parametersOf ubergraph event
  stored : ∀ w ∈ ws, names.get? w.param.pin = some w.storage

theorem StubOf.extend {ubergraph : Graph} {event : NodeId} {data : EventData}
    {names names' : NetNameMap} {ws : List EventStub.Handover} {d : FunctionContext}
    (h : StubOf env ubergraph event data names ws d) (hext : names.Extends names') :
    StubOf env ubergraph event data names' ws d :=
  { h with stored := fun w hw ↦ hext.kept _ _ (h.stored w hw) }

theorem StubOf.isExec_param {ubergraph : Graph} {event : NodeId} {data : EventData}
    {names : NetNameMap} {ws : List EventStub.Handover} {d : FunctionContext}
    (h : StubOf env ubergraph event data names ws d) : ∀ w ∈ ws, w.param.ty.isExec = false := by
  intro w hw
  have hparam : w.param ∈ EventStub.parametersOf ubergraph event := by
    rw [← h.params]
    exact List.mem_map_of_mem hw
  exact EventStub.isExec_of_mem_parametersOf hparam

/-- Whatever graphs there are, the stubs that are listed are of events. -/
theorem sound_stubOf (env : CompileEnv) (b : Blueprint) :
    Sound env b fun d ↦ ∀ link, d.stub = some link →
      ∃ ubergraph data names ws, StubOf env ubergraph link.sourceEvent data names ws d where
  eventGraph _ _ _ _ _ _ _ hlink := by cases hlink
  graph _ _ _ _ _ _ _ _ _ hlink := by cases hlink
  stub c ubergraph event data s flags hkind hevents hinterface _ hbuild link hlink := by
    obtain rfl := Option.some.inj hlink
    rcases EventStub.build_cases hkind env.schema c.cls c.classNetNames c.log with
      ⟨hnone, -⟩ | ⟨stub, ws, hstub, hcall, hwired, hparams, hstored⟩
    · cases hbuild.symm.trans hnone
    · obtain rfl := Option.some.inj (hbuild.symm.trans hstub)
      refine ⟨ubergraph, data, _, ws, rfl, ?_, hevents, hinterface, rfl, rfl,
        EventStub.wellFormed_build hbuild, hwired, hparams, hstored⟩
      rw [← hcall]
      rfl

/-- An event is given its stub, or there is an error. -/
theorem exists_stubOf_addStub {ubergraph : Graph} {event : NodeId} {data : EventData}
    (hkind : ubergraph.kind? event = some (.event data))
    (hlog : (c.addStub env ubergraph event).log.numErrors = 0) :
    ∃ d ∈ (c.addStub env ubergraph event).contexts, ∃ ws,
      StubOf env ubergraph event data (c.addStub env ubergraph event).classNetNames ws d := by
  have hwf {stub : EventStub} (h : (EventStub.build ubergraph event env.schema c.cls
      c.classNetNames c.log).1 = some stub) : stub.graph.WellFormed := EventStub.wellFormed_build h
  have hcases := EventStub.build_cases hkind env.schema c.cls c.classNetNames c.log
  unfold addStub at hlog ⊢
  rw [hkind] at hlog ⊢
  dsimp only at hlog ⊢
  generalize EventStub.build ubergraph event env.schema c.cls c.classNetNames c.log = result at *
  obtain ⟨built, names, log⟩ := result
  rcases hcases with ⟨-, hlt⟩ | ⟨stub, ws, rfl, hcall, hwired, hparams, hstored⟩
  · have hzero : log.numErrors = 0 := by
      cases built with
      | none => exact hlog
      | some stub => exact hlog
    have hlt' : c.log.numErrors < log.numErrors := hlt
    omega
  · refine ⟨_, List.mem_append_right _ (List.mem_singleton_self _), ws, rfl, ?_, rfl, rfl, rfl,
      rfl, hwf rfl, hwired, hparams, hstored⟩
    rw [← hcall]

/-- Among the stubs of events is that of every event. -/
theorem exists_stubOf_addStubs {ubergraph : Graph} {events : List NodeId}
    (hlog : (events.foldl (addStub env ubergraph) c).log.numErrors = 0) {event : NodeId}
    (hevent : event ∈ events) {data : EventData}
    (hkind : ubergraph.kind? event = some (.event data)) :
    ∃ d ∈ (events.foldl (addStub env ubergraph) c).contexts, ∃ ws, StubOf env ubergraph event data
      (events.foldl (addStub env ubergraph) c).classNetNames ws d := by
  obtain ⟨before, after, rfl⟩ := List.append_of_mem hevent
  rw [List.foldl_append, List.foldl_cons] at hlog ⊢
  have hrest := Enlarges.foldl (enlarges_addStub env ubergraph) after
    (addStub env ubergraph (before.foldl (addStub env ubergraph) c) event)
  have hquiet := hrest.errors
  rw [hlog, Nat.le_zero] at hquiet
  obtain ⟨d, hd, ws, hstub⟩ := exists_stubOf_addStub hkind hquiet
  exact ⟨d, hrest.mem hd, ws, hstub.extend hrest.names⟩

/-! ## The whole list -/

/-- The event graph as it is listed. -/
structure EventGraphOf (env : CompileEnv) (g : Graph) (u : FunctionContext) : Prop where
  functionName : u.functionName = env.schema.ubergraphFunctionName
  graph : u.graph = g
  isEventGraph : u.isEventGraph = true
  interfaceStub : u.flags.interfaceStub = false
  createDebugData : u.flags.createDebugData = true
  stub : u.stub = none

/-- The event graph as a function. -/
def eventContext (env : CompileEnv) (c : Compilation) : FunctionContext :=
  { (c.eventGraph env).2.newContext env.schema.ubergraphFunctionName (c.eventGraph env).1 with
    flags.eventGraph := true }

theorem eventGraphOf_eventContext (env : CompileEnv) (c : Compilation) :
    EventGraphOf env (c.eventGraph env).1 (c.eventContext env) := by
  unfold eventContext
  generalize c.eventGraph env = result
  exact ⟨rfl, rfl, rfl, rfl, rfl, rfl⟩

theorem addEventGraph_eq (env : CompileEnv) (c : Compilation) :
    c.addEventGraph env = ((c.eventGraph env).1.nodesWhere (·.isEvent)).foldl
      (addStub env (c.eventGraph env).1) ((c.eventGraph env).2.addContext (c.eventContext env)) := by
  unfold addEventGraph eventContext
  generalize c.eventGraph env = result
  rfl

theorem contexts_eventGraph (env : CompileEnv) (c : Compilation) :
    (c.eventGraph env).2.contexts = c.contexts := by
  unfold eventGraph
  rfl

/-- After the event graph come functions of graphs. -/
theorem enlarges_addGraphs (env : CompileEnv) (b : Blueprint) (c : Compilation) :
    Enlarges c ((b.implementedInterfaces.flatMap (·.graphs)).foldl (addInterfaceGraph env)
      (b.delegateSignatureGraphs.foldl (addDelegateGraph env)
        (b.functionGraphs.foldl (addFunctionGraph env) c))) :=
  ((Enlarges.foldl (enlarges_addFunctionGraph env) _ _).trans
    (.foldl (enlarges_addDelegateGraph env) _ _)).trans
      (.foldl (enlarges_addInterfaceGraph env) _ _)

theorem enlarges_addFunctions (hevents : (c.blueprint.blueprintType.supportsEventGraphs &&
    !c.blueprint.ubergraphPages.isEmpty) = true) :
    Enlarges (c.addEventGraph env) (c.addFunctions env) := by
  unfold addFunctions
  dsimp only
  rw [if_pos hevents]
  exact enlarges_addGraphs env c.blueprint _

/-- The event graph comes first, and there is no other. -/
theorem contexts_addFunctions (hevents : (c.blueprint.blueprintType.supportsEventGraphs &&
    !c.blueprint.ubergraphPages.isEmpty) = true) (hnone : c.contexts = []) :
    ∃ others, (c.addFunctions env).contexts = c.eventContext env :: others ∧
      ∀ d ∈ others, d.isEventGraph = false := by
  have hrest : Enlarges (c.addEventGraph env) (c.addFunctions env) := enlarges_addFunctions hevents
  have hstubs := Enlarges.foldl (enlarges_addStub env (c.eventGraph env).1)
    ((c.eventGraph env).1.nodesWhere (·.isEvent))
    ((c.eventGraph env).2.addContext (c.eventContext env))
  rw [addEventGraph_eq] at hrest
  have hfirst : ((c.eventGraph env).2.addContext (c.eventContext env)).contexts =
      [c.eventContext env] := by
    rw [addContext, contexts_eventGraph, hnone]
    rfl
  obtain ⟨others, hothers, hordinary⟩ := (hstubs.trans hrest).contexts
  rw [hfirst] at hothers
  exact ⟨others, hothers, hordinary⟩

/-- The consolidated graph is the only event graph that is listed. -/
theorem eq_eventContext_of_isEventGraph (hnone : c.contexts = []) {d : FunctionContext}
    (hd : d ∈ (c.addFunctions env).contexts) (hgraph : d.isEventGraph = true) :
    d = c.eventContext env := by
  have hother {others : List FunctionContext} (hothers : ∀ d ∈ others, d.isEventGraph = false) :
      d ∉ others := fun hmem ↦ by
    rw [hothers d hmem] at hgraph
    exact Bool.false_ne_true hgraph
  by_cases hevents : (c.blueprint.blueprintType.supportsEventGraphs &&
      !c.blueprint.ubergraphPages.isEmpty) = true
  · obtain ⟨others, hlisted, hothers⟩ := contexts_addFunctions hevents hnone
    rw [hlisted] at hd
    exact (List.mem_cons.1 hd).resolve_right (hother hothers)
  · have hrest := enlarges_addGraphs env c.blueprint c
    unfold addFunctions at hd
    dsimp only at hd
    rw [if_neg hevents] at hd
    obtain ⟨others, hlisted, hothers⟩ := hrest.contexts
    rw [hlisted, hnone] at hd
    exact absurd hd (hother hothers)

/-- Without an error, the event graph comes first and every event that it lists has its stub. -/
theorem exists_stubOf_of_listed (hevents : (c.blueprint.blueprintType.supportsEventGraphs &&
    !c.blueprint.ubergraphPages.isEmpty) = true) (hnone : c.contexts = [])
    (hlog : (c.addFunctions env).log.numErrors = 0) :
    ∃ others, (c.addFunctions env).contexts = c.eventContext env :: others ∧
      (∀ d ∈ others, d.isEventGraph = false) ∧
      ∀ event ∈ (c.eventGraph env).1.nodesWhere (·.isEvent), ∀ data,
        (c.eventGraph env).1.kind? event = some (.event data) →
          ∃ d ∈ others, ∃ ws, StubOf env (c.eventGraph env).1 event data
            (c.addFunctions env).classNetNames ws d := by
  have hrest : Enlarges (c.addEventGraph env) (c.addFunctions env) := enlarges_addFunctions hevents
  rw [addEventGraph_eq] at hrest
  obtain ⟨others, hothers, hordinary⟩ : ∃ others,
      (c.addFunctions env).contexts = c.eventContext env :: others ∧
        ∀ d ∈ others, d.isEventGraph = false := contexts_addFunctions hevents hnone
  refine ⟨others, hothers, hordinary, fun event hevent data hkind ↦ ?_⟩
  have hquiet := hrest.errors
  rw [hlog, Nat.le_zero] at hquiet
  obtain ⟨d, hd, ws, hstub⟩ := exists_stubOf_addStubs hquiet hevent hkind
  refine ⟨d, ?_, ws, hstub.extend hrest.names⟩
  have hmem := hrest.mem hd
  rw [hothers] at hmem
  refine (List.mem_cons.1 hmem).resolve_left ?_
  rintro rfl
  have hflag := (eventGraphOf_eventContext env c).isEventGraph
  rw [hstub.isEventGraph] at hflag
  exact Bool.false_ne_true hflag

/-- Every event of well-formed graphs is listed, and has its stub. -/
theorem exists_stubOf_addFunctions (hpages : ∀ g ∈ c.blueprint.ubergraphPages, g.WellFormed)
    (hmacros : ∀ g ∈ c.blueprint.macroGraphs, g.WellFormed)
    (hevents : (c.blueprint.blueprintType.supportsEventGraphs &&
      !c.blueprint.ubergraphPages.isEmpty) = true)
    (hnone : c.contexts = []) (hlog : (c.addFunctions env).log.numErrors = 0) :
    ∃ others, (c.addFunctions env).contexts = c.eventContext env :: others ∧
      (∀ d ∈ others, d.isEventGraph = false) ∧
      ∀ event data, (c.eventGraph env).1.kind? event = some (.event data) →
        ∃ d ∈ others, ∃ ws, StubOf env (c.eventGraph env).1 event data
          (c.addFunctions env).classNetNames ws d := by
  obtain ⟨hwf, -⟩ := headed_eventGraph hpages hmacros env
  obtain ⟨others, hothers, hordinary, hstubs⟩ := exists_stubOf_of_listed hevents hnone hlog
  refine ⟨others, hothers, hordinary, fun event data hkind ↦ hstubs event ?_ data hkind⟩
  exact hwf.mem_nodesWhere.2 ⟨_, hkind, rfl⟩

end Compilation

end VisualScript
