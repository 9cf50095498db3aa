import VisualScript.Proofs.Compile.EventGraph
import VisualScript.Proofs.Compile.Events
import VisualScript.Proofs.Compile.StubRuns

/-!
# Entering the event graph

A stub and the event graph agree: parameters are read where the stub stores them, and the
event graph is entered where the code of the event begins.
-/

namespace VisualScript

open EventStub FunctionContext

/-- The name under which the function keeps what is on the net of a pin. -/
def FunctionContext.storageOf (c : FunctionContext) (p : PinId) : String :=
  (((c.net? p).bind c.term?).map (·.name)).getD ""

/-- The function `f` of the event `e` enters the event graph `u`, whose function is `main`, where
the code of the event begins. -/
structure Compilation.Enters (c : Compilation) (g : Graph) (e : NodeId) (data : EventData)
    (u : FunctionContext) (main f : Function) (before block rest : Script) : Prop where
  /-- The event graph begins with a jump to where its parameter says. -/
  dispatcher : c.cls.findOwnFunction? u.functionName = some main
  parameter : PinName.entryPoint ∈ main.parameters.map (·.name)
  jumps : main.script.head? = some (.computedJump (.frame PinName.entryPoint))
  /-- The code of the event is a part of that of the event graph. -/
  script : main.script = before ++ (block ++ rest)
  code : block = (u.block e).map (u.lower (u.statements.length - 1))
  marked : ScriptOp.tracepoint e ∈ block
  /-- Nothing else has the name of the event, and it is called as the event is. -/
  unique : c.cls.functionNames.count data.function = 1
  function : c.cls.findOwnFunction? data.function = some f
  parameters : f.parameters.map (·.name) = (parametersOf g e).map (·.name)
  /-- The event graph reads parameters from properties of the class. -/
  stored : ∀ p ∈ parametersOf g e, (c.cls.findOwnProperty? (u.storageOf p.pin)).isSome ∧
    ∃ t, u.net? p.pin = some t ∧ u.operand t = .inst (u.storageOf p.pin)
  /-- The function of the event stores them there, and enters the event graph. -/
  runs : before.length < 0x80000000 → ∀ oracle, (Script.machine oracle f.script).StopsWith 0
    ((parametersOf g e).map (fun p ↦ .assign (.inst (u.storageOf p.pin)) (.frame p.name)) ++
      [.callFunction u.functionName none
        [.literal (.int (Int32.ofNat before.length))] none]) true

theorem EventStub.mem_filteredPins_of_mem_parametersOf {g : Graph} {e : NodeId} {p : EventParameter}
    (h : p ∈ parametersOf g e) : p.pin ∈ g.filteredPins e .output false := by
  obtain ⟨q, hq, hp⟩ := List.mem_filterMap.1 h
  obtain ⟨pin, -, rfl⟩ := Option.map_eq_some_iff.1 hp
  exact hq

/-- Only stubs are told labels. -/
theorem Compilation.patchStub_of_none {c : FunctionContext} (h : c.stub = none)
    (labels : List (NodeId × Nat)) : patchStub labels c = c := by
  rw [patchStub, h]

namespace Blueprint

variable {b : Blueprint} {options : CompileOptions} {suffix : Bool}

section Quiet

variable (hfull : options.compileType = .full)
  (hlog : (b.compile options suffix).log.numErrors = 0)
include hfull hlog

/-- Stubs are told the labels of the event graph. -/
theorem eventLabels_passed {u : FunctionContext} {others : List FunctionContext}
    (hlisted : ((b.shaped suffix).addFunctions (b.environment options)).contexts = u :: others)
    (hothers : ∀ d ∈ others, d.isEventGraph = false) {c : FunctionContext}
    (hc : c ∈ (b.passed options suffix).contexts) (hheader : FunctionState.SameHeader u c)
    (hevents : u.isEventGraph = true) : (b.passed options suffix).eventLabels = c.nodeLabels := by
  have hsame {d d' : FunctionContext} (h : FunctionState.SameHeader d d') :
      d'.isEventGraph = d.isEventGraph := congrArg ContextFlags.eventGraph h.flags
  have hsome : ((b.passed options suffix).contexts.find? (·.isEventGraph)).isSome := by
    rw [List.find?_isSome]
    exact ⟨c, hc, (hsame hheader).trans hevents⟩
  obtain ⟨d, hd⟩ := Option.isSome_iff_exists.1 hsome
  -- there is no other event graph
  obtain ⟨u', hu', hheader'⟩ := exists_listed hfull hlog (List.mem_of_find?_eq_some hd)
  have hevents' : u'.isEventGraph = true := (hsame hheader').symm.trans (List.find?_some hd)
  obtain rfl : u' = u := by
    rw [hlisted] at hu'
    refine (List.mem_cons.1 hu').resolve_right fun hmem ↦ ?_
    rw [hothers u' hmem] at hevents'
    exact Bool.false_ne_true hevents'
  obtain rfl := List.inj_on_of_nodup_map (nodup_passed hfull hlog) (List.mem_of_find?_eq_some hd) hc
    (hheader'.functionName.trans hheader.functionName.symm)
  rw [Compilation.eventLabels, hd]
  rfl

/-- A function that was listed has its code and its parameters at the end. -/
theorem exists_function_of_lineage {d : FunctionContext} {s : FunctionState}
    {c₂ c₃ : FunctionContext} (hc₃ : c₃ ∈ (b.passed options suffix).contexts)
    (hlineage : Lineage (b.environment options) (b.passed options suffix).cls d s c₂ c₃) :
    ∃ f, (b.compile options suffix).cls.findOwnFunction? d.functionName = some f ∧
      f.script = c₃.statements.map ((Compilation.patchStub (b.passed options suffix).eventLabels
        c₃).lower (c₃.statements.length - 1)) ∧
      f.parameters.map (·.name) = (s.precompile (b.environment options)).ctx.namesOf .parameter ++
        (s.precompile (b.environment options)).ctx.namesOf .result := by
  have hpatched : Compilation.patchStub (b.passed options suffix).eventLabels c₃ ∈
      (b.compile options suffix).contexts := by
    rw [contexts_compile hfull]
    exact List.mem_map_of_mem hc₃
  obtain ⟨-, f, hf, hscript⟩ := script_of_compile hfull hlog hpatched
  rw [(c₃.sameHeader_patchStub _).functionName, hlineage.header.functionName] at hf
  rw [(Compilation.statements_patchStub c₃ _).1] at hscript
  obtain ⟨f₀, hf₀, hnames⟩ := hlineage.signature
  obtain ⟨f', hf', hsignature⟩ := (b.develops_passed suffix hfull).signatures _ f₀ hf₀
  obtain rfl := Option.some.inj (hf'.symm.trans hf)
  refine ⟨f', hf, hscript, ?_⟩
  rw [← hnames, ← hsignature, Function.signature, List.map_map]
  rfl

section EventGraph

variable {g : Graph} {entry : NodeId} {u c c₂ : FunctionContext} {s : FunctionState}
  (hu : Compilation.EventGraphOf (b.environment options) g u)
  (hc : c ∈ (b.passed options suffix).contexts)
  (hlineage : Lineage (b.environment options) (b.passed options suffix).cls u s c₂ c)
  (hwf : g.WellFormed) (hheaded : g.Headed entry)
include hu hc hlineage

omit hlog in
theorem mem_contexts_of_eventGraph :
    Compilation.patchStub (b.passed options suffix).eventLabels c = c ∧
      c ∈ (b.compile options suffix).contexts := by
  have hpatch := Compilation.patchStub_of_none (hlineage.header.stub.trans hu.stub)
    (b.passed options suffix).eventLabels
  refine ⟨hpatch, ?_⟩
  rw [contexts_compile hfull]
  exact List.mem_map.2 ⟨c, hc, hpatch⟩

include hwf hheaded

/-- The function of the event graph has its code, and begins with a jump to where it is told. -/
theorem exists_dispatcher : ∃ main,
    (b.compile options suffix).cls.findOwnFunction? c.functionName = some main ∧
      main.script = c.statements.map (c.lower (c.statements.length - 1)) ∧
      main.script.head? = some (.computedJump (.frame PinName.entryPoint)) ∧
      PinName.entryPoint ∈ main.parameters.map (·.name) := by
  obtain ⟨main, hmain, hcode, hparameters⟩ := exists_function_of_lineage hfull hlog hc hlineage
  rw [(mem_contexts_of_eventGraph hfull hu hc hlineage).1] at hcode
  rw [← hlineage.header.functionName] at hmain
  obtain ⟨t, term, hterm, hkind, hname, hhead⟩ := hu.jumps hlineage handlesAll_environment hwf hheaded
  refine ⟨main, hmain, hcode, ?_, ?_⟩
  · rw [hcode, List.head?_map, hhead, Option.map_some, FunctionContext.lower,
      FunctionContext.operand, hterm, Option.map_some, Option.getD_some, Terminal.operand, hkind,
      hname]
  · have hmem : PinName.entryPoint ∈ c.namesOf .parameter :=
      List.mem_map.2 ⟨term, List.mem_filter.2 ⟨mem_terms_of_term? hterm, by simpa using hkind⟩, hname⟩
    rw [hlineage.namesOf] at hmem
    rw [hparameters]
    exact List.mem_append_left _ hmem

/-- The event graph reads a parameter of an event from a property of the class. -/
theorem storageOf_eventGraph {names : NetNameMap} (hnames : names.Extends s.classNetNames)
    {e : NodeId} {data : EventData} (hkind : g.kind? e = some (.event data)) {p : EventParameter}
    (hp : p ∈ parametersOf g e) {name : String} (hname : names.get? p.pin = some name) :
    c.storageOf p.pin = name ∧ ((b.compile options suffix).cls.findOwnProperty? name).isSome ∧
      ∃ t, c.net? p.pin = some t ∧ c.operand t = .inst name := by
  have hstored := stored_of_compile hfull hlog
    (mem_contexts_of_eventGraph hfull hu hc hlineage).2
  obtain ⟨t, term, hnet, hterm, hlocal, hname⟩ := hu.stores hlineage handlesAll_environment hwf
    hheaded hnames hkind (mem_filteredPins_of_mem_parametersOf hp) hname
  refine ⟨?_, hstored.onClass name ⟨t, term, hterm, hlocal, hname⟩, t, hnet, ?_⟩
  · rw [FunctionContext.storageOf, hnet, Option.bind_some, hterm, Option.map_some, hname]
    rfl
  · rw [FunctionContext.operand, hterm, Option.map_some, Option.getD_some, Terminal.operand, hlocal,
      hname]

end EventGraph

end Quiet

/-- Every event of the consolidated graph has one function, which stores its parameters where the
event graph reads them and enters the event graph where the code of the event begins. -/
theorem enters_of_event (hwf : b.WellFormed) (hfull : options.compileType = .full)
    (hlog : (b.compile options suffix).log.numErrors = 0)
    (htype : b.blueprintType.supportsEventGraphs = true) (hpages : b.ubergraphPages ≠ [])
    {e : NodeId} {data : EventData} (hkind : ((b.shaped suffix).eventGraph
      (b.environment options)).1.kind? e = some (.event data)) :
    ∃ u ∈ (b.compile options suffix).contexts, ∃ main f before block rest,
      u.functionName = (b.environment options).schema.ubergraphFunctionName ∧
        (b.compile options suffix).Enters
          ((b.shaped suffix).eventGraph (b.environment options)).1 e data u main f before block
            rest := by
  have hevents := supportsEvents_shaped suffix htype hpages
  obtain ⟨hpages, hmacros⟩ := wellFormed_shaped hwf suffix
  have henv : (b.environment options).HandlesAll := handlesAll_environment
  obtain ⟨hgraph, entry, hheaded⟩ := Compilation.headed_eventGraph hpages hmacros
    (b.environment options)
  obtain ⟨others, hlisted, hothers, hstubs⟩ := Compilation.exists_stubOf_addFunctions hpages hmacros
    hevents (contexts_shaped b suffix) (numErrors_listed hfull hlog)
  obtain ⟨d, hd, ws, hstub⟩ := hstubs e data hkind
  have hu := Compilation.eventGraphOf_eventContext (b.environment options) (b.shaped suffix)
  -- the event graph
  obtain ⟨s, c₂, c, hc, hnames, hlineage⟩ := exists_lineage hfull hlog
    (hlisted ▸ List.mem_cons_self)
  obtain ⟨main, hmain, hcode, hjumps, hparameter⟩ := exists_dispatcher hfull hlog hu hc hlineage
    hgraph hheaded
  obtain ⟨before, rest, hstatements, hlabel, hmark⟩ := hu.exists_block hlineage hgraph hheaded hkind
  rw [← eventLabels_passed hfull hlog hlisted hothers hc hlineage.header hu.isEventGraph] at hlabel
  have hstorage : ∀ w ∈ ws, c.storageOf w.param.pin = w.storage ∧
      ((b.compile options suffix).cls.findOwnProperty? w.storage).isSome ∧
        ∃ t, c.net? w.param.pin = some t ∧ c.operand t = .inst w.storage := fun w hw ↦
    storageOf_eventGraph hfull hlog hu hc hlineage hgraph hheaded hnames hkind
      (hstub.params ▸ List.mem_map_of_mem hw) (hstub.stored w hw)
  -- the function of the event
  obtain ⟨s', d₂, d₃, hd₃, -, hlineage'⟩ := exists_lineage hfull hlog
    (hlisted ▸ List.mem_cons_of_mem _ hd)
  obtain ⟨f, hf, hcode', hparameters⟩ := exists_function_of_lineage hfull hlog hd₃ hlineage'
  rw [hstub.functionName] at hf
  have hstores : ws.map (·.store) = (parametersOf ((b.shaped suffix).eventGraph
      (b.environment options)).1 e).map fun p ↦ .assign (.inst (c.storageOf p.pin))
        (.frame p.name) := by
    rw [← hstub.params, List.map_map]
    refine List.map_congr_left fun w hw ↦ ?_
    rw [Function.comp_apply, (hstorage w hw).1]
    rfl
  refine ⟨c, (mem_contexts_of_eventGraph hfull hu hc hlineage).2, main, f,
    before.map (c.lower (c.statements.length - 1)),
    (c.block e).map (c.lower (c.statements.length - 1)),
    rest.map (c.lower (c.statements.length - 1)),
    hlineage.header.functionName.trans hu.functionName, ?_⟩
  exact {
    dispatcher := hmain
    parameter := hparameter
    jumps := hjumps
    script := by rw [hcode, ← List.map_append, ← List.map_append, ← hstatements]
    code := rfl
    marked := List.mem_map.2 ⟨_, hmark, rfl⟩
    unique := Class.count_functionNames (nodup_functionNames b suffix hfull) hf
    function := hf
    parameters := by
      rw [hparameters, (hstub.prepared hlineage' henv).signature, ← hstub.params, List.map_map]
      rfl
    stored := by
      rw [← hstub.params]
      refine List.forall_mem_map.2 fun w hw ↦ ?_
      rw [(hstorage w hw).1]
      exact (hstorage w hw).2
    runs := by
      intro hk oracle
      rw [List.length_map] at hk ⊢
      rw [hcode', ← hstores, hlineage.header.functionName, hu.functionName]
      exact hstub.stopsWith hlineage' henv hlabel hk oracle }

theorem enters_of_event_clock :
    let c := clock.compile .full true
    let g := ((clock.shaped true).eventGraph (clock.environment .full)).1
    clock.WellFormed ∧ c.log.numErrors = 0 ∧ clock.blueprintType.supportsEventGraphs = true ∧
      clock.ubergraphPages ≠ [] ∧ ∃ e data, g.kind? e = some (.event data) ∧
        (parametersOf g e).map (·.name) = ["Delta"] ∧ ∃ u ∈ c.contexts,
          ∃ main f before block rest, u.functionName = "ExecuteUbergraph_Clock" ∧
            c.Enters g e data u main f before block rest ∧ before.length < 0x80000000 := by
  intro c g
  have hgraphs : ∀ g ∈ clock.allGraphs, g.WellFormed := by decide +kernel
  have hlog : c.log.numErrors = 0 := by decide +kernel
  have hpages : clock.ubergraphPages ≠ [] := List.cons_ne_nil _ _
  have hkind : g.kind? ⟨0⟩ = some (.event (.custom "Tick")) := by decide +kernel
  have hparameters : (parametersOf g ⟨0⟩).map (·.name) = ["Delta"] := by decide +kernel
  have hshort : ∀ f ∈ c.cls.own.functions, f.script.length < 0x80000000 := by decide +kernel
  obtain ⟨u, hu, main, f, before, block, rest, hname, henters⟩ :=
    enters_of_event hgraphs rfl hlog rfl hpages hkind
  refine ⟨hgraphs, hlog, rfl, hpages, ⟨0⟩, _, hkind, hparameters, u, hu, main, f, before, block, rest,
    hname, henters, ?_⟩
  refine Nat.lt_of_le_of_lt ?_ (hshort main (List.mem_of_find?_eq_some henters.dispatcher))
  rw [henters.script, List.length_append]
  exact Nat.le_add_right _ _

/-- The code of the event stands after the jump. -/
example : ((clock.compile .full true).cls.findOwnFunction? "Tick").map
    (·.script.map (·.listing)) = some ["tracepoint n0", "tracepoint n2",
      "self.Event_0_Delta = Delta", "tracepoint n1", "ExecuteUbergraph_Clock(Int(1))", "return"] := by
  decide +kernel

/-! ### Pins that are not there -/

/-- A page whose event lists two pins more than there are. -/
def misprinted : Blueprint :=
  let (event, g) := (Graph.empty "Page").spawn (.event (.custom "Tick"))
  let page := g.modifyNode event fun node ↦ { node with pins := node.pins ++ [⟨5⟩, ⟨6⟩] }
  { Blueprint.new "Clock" (Class.new "Actor" none) with ubergraphPages := [page] }

/-- Merging the page gives out names for these pins as well, so the event comes to list the pins
of the entry, and the event graph jumps to where a property of the class says. -/
theorem not_enters_of_event : ¬∀ (b : Blueprint) (options : CompileOptions) (suffix : Bool),
    options.compileType = .full → (b.compile options suffix).log.numErrors = 0 →
      b.blueprintType.supportsEventGraphs = true → b.ubergraphPages ≠ [] →
        ∀ e data, ((b.shaped suffix).eventGraph (b.environment options)).1.kind? e =
            some (.event data) →
          ∃ u ∈ (b.compile options suffix).contexts, ∃ main f before block rest,
            u.functionName = (b.environment options).schema.ubergraphFunctionName ∧
              (b.compile options suffix).Enters
                ((b.shaped suffix).eventGraph (b.environment options)).1 e data u main f before
                  block rest := by
  intro h
  have hlog : (misprinted.compile .full true).log.numErrors = 0 := by decide +kernel
  have hkind : ((misprinted.shaped true).eventGraph (misprinted.environment .full)).1.kind? ⟨0⟩ =
      some (.event (.custom "Tick")) := by decide +kernel
  have hjumps : ∀ main ∈ (misprinted.compile .full true).cls.findOwnFunction?
      (misprinted.environment .full).schema.ubergraphFunctionName,
      main.script.head?.map (·.listing) = some "jump [self.FunctionEntry_1_EntryPoint]" := by
    decide +kernel
  obtain ⟨u, -, main, f, before, block, rest, hname, henters⟩ :=
    h misprinted .full true rfl hlog rfl (List.cons_ne_nil _ _) ⟨0⟩ _ hkind
  have hjump := hjumps main (hname ▸ henters.dispatcher)
  rw [henters.jumps] at hjump
  exact absurd hjump (by decide)

end Blueprint

end VisualScript
