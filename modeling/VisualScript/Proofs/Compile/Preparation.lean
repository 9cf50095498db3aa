import VisualScript.Proofs.Terminals.Storage
import VisualScript.Proofs.Terminals.Variables

/-!
# Prepared functions

A function that was prepared without an error has its place on the class: it is
the first of its name, every terminal has storage, and every node that could be
scheduled has registered.
-/

namespace VisualScript

/-! ## Before and after -/

/-- The kinds of nodes that have a handler can be compiled. -/
def CompileEnv.HandlesAll (env : CompileEnv) : Prop :=
  ∀ kind : NodeKind, env.handles kind = kind.tag.hasHandler

namespace FunctionContext

/-- Nothing was added to the function by its nodes. -/
structure Blank (c : FunctionContext) : Prop where
  terms : c.terms = []
  lists : ∀ kind, c.listOf kind = []
  netMap : c.netMap = []
  nodeStatements : c.nodeStatements = []
  failed : c.failed = false

/-- No pass has worked on the function yet. -/
structure Fresh (c : FunctionContext) : Prop extends Blank c where
  entryPoint : c.entryPoint = none

/-- A context whose function was prepared without an error. -/
structure Prepared (c : FunctionContext) (cls : Class) : Prop where
  failed : c.failed = false
  enlisted : c.Enlisted
  nets : c.NetsTyped
  stored : c.Stored cls
  settled : ∀ n ∈ c.executionList, c.Settled cls n
  scheduled : c.graph.schedule = (c.executionList, [])
  uncoded : c.nodeStatements = []
  placed : c.isEventGraph = false → ∀ n ∈ c.executionList, ∀ kind, c.graph.kind? n = some kind →
    kind.tag ≠ .event ∧ kind.tag ≠ .timeline

end FunctionContext

namespace FunctionState

/-! ## Simplifying the graph -/

/-- Only the graph and the log change, and errors and sources stay. -/
def EditsGraph (s s' : FunctionState) : Prop :=
  ∃ g log, s' = { s with ctx := { s.ctx with graph := g }, log } ∧
    s.log.numErrors ≤ log.numErrors ∧ log.sources = s.log.sources

namespace EditsGraph

theorem refl (s : FunctionState) : EditsGraph s s := ⟨s.graph, s.log, rfl, Nat.le_refl _, rfl⟩

theorem trans {s s' s'' : FunctionState} (h : EditsGraph s s') (h' : EditsGraph s' s'') :
    EditsGraph s s'' := by
  obtain ⟨g, log, rfl, hle, hsources⟩ := h
  obtain ⟨g', log', rfl, hle', hsources'⟩ := h'
  exact ⟨g', log', rfl, Nat.le_trans hle hle', hsources'.trans hsources⟩

theorem graph (s : FunctionState) (g : Graph) : EditsGraph s { s with ctx.graph := g } :=
  ⟨g, s.log, rfl, Nat.le_refl _, rfl⟩

theorem foldl {α : Type} {f : FunctionState → α → FunctionState}
    (hf : ∀ s a, EditsGraph s (f s a)) (l : List α) (s : FunctionState) :
    EditsGraph s (l.foldl f s) := by
  induction l generalizing s with
  | nil => exact refl s
  | cons a l ih => exact (hf s a).trans (ih (f s a))

end EditsGraph

theorem editsGraph_bridge (n : NodeId) (target : PinId) (s : FunctionState) (source : PinId) :
    EditsGraph s (Knot.bridge n target s source) := by
  unfold Knot.bridge
  split
  · exact .graph s _
  · exact ⟨s.graph, _, rfl, Nat.le_succ _, rfl⟩

theorem editsGraph_transform (kind : NodeKind) (s : FunctionState) (n : NodeId) :
    EditsGraph s (kind.transform s n) := by
  cases kind with
  | knot ty =>
    simp only [NodeKind.transform, Knot.transform]
    split
    · refine EditsGraph.trans ?_ (.graph _ _)
      refine EditsGraph.foldl (fun s target ↦ ?_) _ s
      exact (EditsGraph.graph s _).trans
        (.foldl (fun s source ↦ editsGraph_bridge n target s source) _ _)
    · exact .refl s
  | _ => exact .refl s

theorem editsGraph_transformNodes (env : CompileEnv) (s : FunctionState) :
    EditsGraph s (s.transformNodes env) := by
  refine EditsGraph.foldl (fun s n ↦ ?_) s.graph.order s
  split
  · split
    · exact editsGraph_transform _ s n
    · exact .refl s
  · exact .refl s

theorem EditsGraph.pushAll (s : FunctionState) (messages : List Message) :
    EditsGraph s { s with log := s.log.pushAll messages } :=
  ⟨s.graph, _, rfl, MessageLog.le_numErrors_pushAll messages, MessageLog.sources_pushAll _ messages⟩

/-- Simplifying settles the entry and edits the graph. -/
theorem editsGraph_simplifyGraph (env : CompileEnv) (s : FunctionState) (entry : NodeId) :
    EditsGraph { s with ctx.entryPoint := some entry } (s.simplifyGraph env entry) := by
  unfold simplifyGraph
  refine EditsGraph.trans ?_ (.graph _ _)
  refine EditsGraph.trans ?_ (editsGraph_transformNodes env _)
  refine EditsGraph.trans ?_ (.pushAll _ _)
  exact (EditsGraph.pushAll _ _).trans (.graph _ _)

/-! ## Creating the function -/

/-- A function is created under a name that is new to the class, or there is an error. -/
theorem createFunction_cases (s : FunctionState) (entry : NodeId) :
    (∃ text tokens, s.createFunction entry = (none, s.error text tokens)) ∨
      ∃ f cls flags, f = newFunction s.ctx (entryData s.graph entry)
          (s.cls.findOverridden? s.ctx.functionName) ∧ s.cls.addFunction f = .ok cls ∧
        s.createFunction entry = (some (s.cls.findOverridden? s.ctx.functionName),
          { s with cls, ctx := s.ctx.markAsNetFunction flags }) := by
  unfold createFunction
  dsimp only
  split
  · exact .inl ⟨_, _, rfl⟩
  · split
    · exact .inl ⟨_, _, rfl⟩
    · next cls hcls => exact .inr ⟨_, cls, _, rfl, hcls, rfl⟩

/-! ## Laying the function out -/

/-- The state in which the nodes are put in order. -/
def ordered (s : FunctionState) : FunctionState :=
  { s with ctx.executionList := s.graph.schedule.1, log := s.log.pushAll s.graph.schedule.2 }

/-- The state in which the local variables are declared. -/
def declared (s : FunctionState) (entry : NodeId) : FunctionState :=
  (entryData s.graph entry).localVariables.foldl (addUserLocal entry) s.ordered

/-- The terminals of a function, before they become properties. -/
def registered (env : CompileEnv) (s : FunctionState) (entry : NodeId) : FunctionState :=
  let s' := { s with
    ctx.executionList := s.graph.schedule.1
    log := s.log.pushAll s.graph.schedule.2 }
  ((entryData s.graph entry).localVariables.foldl (addUserLocal entry) s').registerNodes env

theorem layOut_eq (env : CompileEnv) (s : FunctionState) (entry : NodeId) :
    s.layOut env entry = (s.registered env entry).createProperties := rfl

theorem registered_eq (env : CompileEnv) (s : FunctionState) (entry : NodeId) :
    s.registered env entry = (s.declared entry).registerNodes env := rfl

theorem graphSteps_declared (s : FunctionState) (entry : NodeId) :
    GraphSteps (· = .userLocal) False s.ordered (s.declared entry) :=
  graphSteps_addUserLocals entry _ s.ordered

theorem graphSteps_registered (env : CompileEnv) (s : FunctionState) (entry : NodeId) :
    GraphSteps (fun _ ↦ True) False s.ordered (s.registered env entry) :=
  graphSteps_register env entry _ s.ordered

theorem severity_of_mem_schedule {g : Graph} {m : Message} (h : m ∈ g.schedule.2) :
    m.severity = .error := by
  obtain ⟨e, -, rfl⟩ := List.mem_map.1 h
  unfold Graph.scheduleFault
  split <;> rfl

/-! ## The whole preparation -/

theorem numErrors_le_checkSignature (s : FunctionState) (entry : NodeId)
    (overridden : Option (String × Function)) :
    s.log.numErrors ≤ (s.checkSignature entry overridden).log.numErrors ∧
      (s.checkSignature entry overridden).ctx = s.ctx ∧
      (s.checkSignature entry overridden).cls = s.cls := by
  cases overridden with
  | none => exact ⟨Nat.le_refl _, rfl, rfl⟩
  | some o =>
    simp only [checkSignature]
    split
    · exact ⟨Nat.le_refl _, rfl, rfl⟩
    · split
      · exact ⟨Nat.le_refl _, rfl, rfl⟩
      · exact ⟨Nat.le_succ _, rfl, rfl⟩

/-- What no pass changes. -/
structure SameHeader (c d : FunctionContext) : Prop where
  functionName : d.functionName = c.functionName
  flags : d.flags = c.flags
  delegateSignatureName : d.delegateSignatureName = c.delegateSignatureName
  stub : d.stub = c.stub

theorem SameHeader.refl (c : FunctionContext) : SameHeader c c := ⟨rfl, rfl, rfl, rfl⟩

theorem SameHeader.trans {c d e : FunctionContext} (h : SameHeader c d) (h' : SameHeader d e) :
    SameHeader c e :=
  ⟨h'.functionName.trans h.functionName, h'.flags.trans h.flags,
    h'.delegateSignatureName.trans h.delegateSignatureName, h'.stub.trans h.stub⟩

theorem SameHeader.of_outline {c d : FunctionContext} (h : d.outline = c.outline) :
    SameHeader c d where
  functionName := FunctionContext.functionName_of_outline h
  flags := FunctionContext.flags_of_outline h
  delegateSignatureName := FunctionContext.delegateSignatureName_of_outline h
  stub := FunctionContext.stub_of_outline h

theorem SameHeader.symm {c d : FunctionContext} (h : SameHeader c d) : SameHeader d c :=
  ⟨h.functionName.symm, h.flags.symm, h.delegateSignatureName.symm, h.stub.symm⟩

/-- The state in which a function is laid out: the graph is simplified and the function is on
the class. -/
def created (s : FunctionState) (entry : NodeId) (g : Graph) (log : MessageLog) (cls : Class)
    (flags : FunctionFlags) : FunctionState :=
  { s with
    ctx := { s.ctx with graph := g, entryPoint := some entry }.markAsNetFunction flags
    log
    cls }

/-- Either preparation fails with an error, or the function is created and laid out. -/
theorem precompile_cases (env : CompileEnv) (s : FunctionState) :
    (∃ ctx log, s.precompile env = { s with ctx, log } ∧ s.log.numErrors < log.numErrors ∧
        SameHeader s.ctx ctx ∧ ctx.failed = true ∧ ctx.terms = s.ctx.terms ∧
        ctx.netMap = s.ctx.netMap ∧ log.sources = s.log.sources) ∨
      ∃ entry g log f cls flags overridden, s.findEntry = .ok entry ∧
        s.simplifyGraph env entry =
          { s with ctx := { s.ctx with graph := g, entryPoint := some entry }, log } ∧
        s.log.numErrors ≤ log.numErrors ∧
        f = newFunction s.ctx (entryData g entry) (s.cls.findOverridden? s.ctx.functionName) ∧
        s.cls.addFunction f = .ok cls ∧ s.precompile env =
          ((s.created entry g log cls flags).layOut env entry).checkSignature entry overridden := by
  unfold precompile
  cases hentry : s.findEntry with
  | error m =>
    have hseverity : m.severity = .error := by
      unfold findEntry at hentry
      split at hentry <;> cases hentry <;> rfl
    refine .inl ⟨_, _, rfl, ?_, ⟨rfl, rfl, rfl, rfl⟩, rfl, rfl, rfl, rfl⟩
    rw [MessageLog.numErrors_push, hseverity]
    exact Nat.lt_succ_self _
  | ok entry =>
    obtain ⟨g, log, hsimplify, hle, hsources⟩ := editsGraph_simplifyGraph env s entry
    dsimp only
    rcases createFunction_cases (s.simplifyGraph env entry) entry with
      ⟨text, tokens, hcreate⟩ | ⟨f, cls, flags, hf, hcls, hcreate⟩
    · rw [hcreate, hsimplify]
      refine .inl ⟨_, _, rfl, ?_, ⟨rfl, rfl, rfl, rfl⟩, rfl, rfl, rfl, hsources⟩
      exact Nat.lt_succ_of_le hle
    · rw [hsimplify] at hf hcls
      rw [hcreate, hsimplify]
      exact .inr ⟨entry, g, log, f, cls, flags, _, rfl, hsimplify, hle, hf, hcls, rfl⟩

/-- Registering and storing change no more than the terminals and what the nodes add. -/
theorem outline_layOut (env : CompileEnv) (s : FunctionState) (entry : NodeId) :
    (s.layOut env entry).ctx.outline = s.ordered.ctx.outline :=
  (sameShape_createProperties (s.registered env entry)).outline.trans
    (graphSteps_registered env s entry).sameFunction.outline

theorem sameHeader_layOut (env : CompileEnv) (s : FunctionState) (entry : NodeId) :
    SameHeader s.ctx (s.layOut env entry).ctx :=
  .trans (d := s.ordered.ctx) ⟨rfl, rfl, rfl, rfl⟩ (.of_outline (outline_layOut env s entry))

theorem graph_layOut (env : CompileEnv) (s : FunctionState) (entry : NodeId) :
    (s.layOut env entry).ctx.graph = s.ctx.graph :=
  FunctionContext.graph_of_outline (c := s.ordered.ctx) (outline_layOut env s entry)

theorem entryPoint_layOut (env : CompileEnv) (s : FunctionState) (entry : NodeId) :
    (s.layOut env entry).ctx.entryPoint = s.ctx.entryPoint :=
  FunctionContext.entryPoint_of_outline (c := s.ordered.ctx) (outline_layOut env s entry)

theorem executionList_layOut (env : CompileEnv) (s : FunctionState) (entry : NodeId) :
    (s.layOut env entry).ctx.executionList = s.graph.schedule.1 :=
  FunctionContext.executionList_of_outline (c := s.ordered.ctx) (outline_layOut env s entry)

theorem nodeStatements_layOut (env : CompileEnv) (s : FunctionState) (entry : NodeId) :
    (s.layOut env entry).ctx.nodeStatements = s.ctx.nodeStatements := by
  rw [layOut_eq, (sameShape_createProperties (s.registered env entry)).nodeStatements,
    (graphSteps_registered env s entry).nodeStatements]
  rfl

theorem numErrors_le_layOut (env : CompileEnv) (s : FunctionState) (entry : NodeId) :
    s.log.numErrors ≤ (s.layOut env entry).log.numErrors := by
  refine Nat.le_trans (MessageLog.le_numErrors_pushAll s.graph.schedule.2) ?_
  exact Nat.le_trans (graphSteps_registered env s entry).errors.1
    (numErrors_le_createProperties (s.registered env entry))

theorem extends_layOut (env : CompileEnv) (s : FunctionState) (entry : NodeId) :
    s.cls.Extends (s.layOut env entry).cls := by
  have hcls := (graphSteps_registered env s entry).sameFunction.cls
  rw [layOut_eq]
  exact hcls ▸ extends_createProperties (s.registered env entry)

/-- Preparation keeps the header, the members of the class and the errors. -/
theorem precompile_keeps (env : CompileEnv) (s : FunctionState) :
    SameHeader s.ctx (s.precompile env).ctx ∧ s.cls.Extends (s.precompile env).cls ∧
      s.log.numErrors ≤ (s.precompile env).log.numErrors := by
  rcases precompile_cases env s with ⟨ctx, log, hs, hlt, hheader, -⟩ |
    ⟨entry, g, log, f, cls, flags, overridden, -, -, hle, -, hcls, hs⟩
  · rw [hs]
    exact ⟨hheader, .refl _, Nat.le_of_lt hlt⟩
  · obtain ⟨hlog, hctx, hcls'⟩ :=
      numErrors_le_checkSignature ((s.created entry g log cls flags).layOut env entry) entry
        overridden
    rw [hs, hctx, hcls']
    refine ⟨.trans (d := (s.created entry g log cls flags).ctx) ⟨rfl, rfl, rfl, rfl⟩
      (sameHeader_layOut env (s.created entry g log cls flags) entry), ?_, ?_⟩
    · exact (Class.extends_addFunction hcls).trans
        (extends_layOut env (s.created entry g log cls flags) entry)
    · exact Nat.le_trans hle (Nat.le_trans
        (numErrors_le_layOut env (s.created entry g log cls flags) entry) hlog)

/-- Where nothing was added there is nothing to get wrong yet. -/
theorem registered_of_blank {s : FunctionState} (hs : s.ctx.Blank) : s.Registered where
  enlisted kind := by rw [hs.lists, hs.terms]; rfl
  nets p t h := by rw [FunctionContext.net?, hs.netMap] at h; cases h
  members term h := by rw [hs.terms] at h; cases h

section Registered

variable (env : CompileEnv) {s : FunctionState} (entry : NodeId)

theorem registered_ordered (hs : s.ctx.Blank) : s.ordered.Registered :=
  registered_of_blank ⟨hs.terms, hs.lists, hs.netMap, hs.nodeStatements, hs.failed⟩

theorem registered_registered (hs : s.ctx.Blank) : (s.registered env entry).Registered :=
  (graphSteps_registered env s entry).registered (registered_ordered hs)

theorem unassociated_registered (hs : s.ctx.Blank) :
    ∀ term ∈ (s.registered env entry).ctx.terms, term.associatedProperty = none := by
  refine (graphSteps_registered env s entry).unassociated fun term hterm ↦ ?_
  rw [show s.ordered.ctx.terms = [] from hs.terms] at hterm
  cases hterm

/-- The function stays where it was made. -/
theorem findOwnFunction?_registered {f : Function}
    (hf : s.cls.findOwnFunction? s.ctx.functionName = some f) :
    (s.registered env entry).cls.findOwnFunction?
      (s.registered env entry).ctx.functionName = some f := by
  have hsame := (graphSteps_registered env s entry).sameFunction
  rw [hsame.cls, hsame.functionName]
  exact hf

end Registered

/-- A new function is found under its name. -/
theorem findOwnFunction?_created {s : FunctionState} {entry : NodeId} {g : Graph}
    {log : MessageLog} {f : Function} {cls : Class} {flags : FunctionFlags}
    (hname : f.name = s.ctx.functionName) (hcls : s.cls.addFunction f = .ok cls) :
    (s.created entry g log cls flags).cls.findOwnFunction?
      (s.created entry g log cls flags).ctx.functionName = some f :=
  (Class.findOwnFunction?_addFunction hcls _).trans (if_pos hname.symm)

/-- No part of laying a function out reports an error. -/
structure LaidQuietly (env : CompileEnv) (s : FunctionState) (entry : NodeId) : Prop where
  ordered : s.ordered.log.numErrors ≤ s.log.numErrors
  registered : (s.registered env entry).log.numErrors ≤ s.ordered.log.numErrors
  nodes : ((s.declared entry).registerNodes env).log.numErrors ≤ (s.declared entry).log.numErrors
  properties : (s.registered env entry).createProperties.log.numErrors ≤
    (s.registered env entry).log.numErrors

theorem laidQuietly {env : CompileEnv} {s : FunctionState} {entry : NodeId}
    (hlog : (s.layOut env entry).log.numErrors ≤ s.log.numErrors) : s.LaidQuietly env entry := by
  have hordered : s.log.numErrors ≤ s.ordered.log.numErrors :=
    MessageLog.le_numErrors_pushAll s.graph.schedule.2
  have hdeclared := (graphSteps_declared s entry).errors.1
  have hnodes := (graphSteps_registerNodes env (s.declared entry)).errors.1
  have hproperties := numErrors_le_createProperties (s.registered env entry)
  rw [layOut_eq] at hlog
  rw [registered_eq] at hlog hproperties
  exact {
    ordered := by omega
    registered := by
      rw [registered_eq]
      omega
    nodes := by omega
    properties := by
      rw [registered_eq]
      omega }

namespace LaidQuietly

variable {env : CompileEnv} {s : FunctionState} {entry : NodeId} (h : s.LaidQuietly env entry)
include h

/-- The schedule has no faults, each of which would be an error. -/
theorem schedule_eq : s.graph.schedule.2 = [] :=
  List.eq_nil_iff_forall_not_mem.2 fun m hm ↦
    MessageLog.severity_ne_error_of_pushAll h.ordered m hm (severity_of_mem_schedule hm)

theorem failed_layOut (hs : s.ctx.Blank) : (s.layOut env entry).ctx.failed = false := by
  have hfailed := (graphSteps_registered env s entry).errors.2.resolve_right
    (Nat.not_lt.2 h.registered)
  rw [layOut_eq, (sameShape_createProperties (s.registered env entry)).failed, hfailed]
  exact hs.failed

theorem settled_layOut (henv : env.HandlesAll) (hs : s.ctx.Blank) {n : NodeId}
    (hn : n ∈ s.graph.schedule.1) : (s.layOut env entry).ctx.Settled (s.layOut env entry).cls n := by
  have hlist := (graphSteps_declared s entry).sameFunction.executionList
  have hsettled := settled_registerNodes (fun var ↦ henv (.variableSet var))
    ((graphSteps_declared s entry).registered (registered_ordered hs)) h.nodes n (hlist ▸ hn)
  rw [layOut_eq]
  exact ((sameShape_createProperties _).settled hsettled).extend (extends_createProperties _)

/-- Events and timelines stand in the event graph. -/
theorem placed_layOut (henv : env.HandlesAll) (hfunction : s.ctx.isEventGraph = false) {n : NodeId}
    (hn : n ∈ s.graph.schedule.1) {kind : NodeKind} (hkind : s.graph.kind? n = some kind) :
    kind.tag ≠ .event ∧ kind.tag ≠ .timeline := by
  have hsame := (graphSteps_declared s entry).sameFunction
  have hplaced := placed_registerNodes h.nodes n (hsame.executionList ▸ hn)
  rw [Placed, FunctionContext.isEventGraph, hsame.flags, ← graph, hsame.graph] at hplaced
  constructor
  · intro htag
    exact (hplaced hfunction kind hkind ((henv kind).trans (by rw [htag]; rfl))).1 htag
  · intro htag
    exact (hplaced hfunction kind hkind ((henv kind).trans (by rw [htag]; rfl))).2 htag

end LaidQuietly

/-- A function that is laid out without an error is prepared. -/
theorem prepared_layOut {env : CompileEnv} (henv : env.HandlesAll)
    {s : FunctionState} (entry : NodeId) {f : Function}
    (hf : s.cls.findOwnFunction? s.ctx.functionName = some f) (hs : s.ctx.Blank)
    (hlog : (s.layOut env entry).log.numErrors ≤ s.log.numErrors) :
    (s.layOut env entry).ctx.Prepared (s.layOut env entry).cls ∧
      ∀ name, (s.layOut env entry).ctx.HasTerm .eventGraphLocal name →
        s.cls.findOwnProperty? name = none := by
  have hquiet := laidQuietly hlog
  have hregistered := registered_registered env entry hs
  have hshape := sameShape_createProperties (s.registered env entry)
  have hlist := executionList_layOut env s entry
  have hgraph := graph_layOut env s entry
  obtain ⟨hstored, hnew⟩ := stored_createProperties (findOwnFunction?_registered env entry hf)
    hregistered (unassociated_registered env entry hs) hquiet.properties
  constructor
  · exact {
      failed := hquiet.failed_layOut hs
      enlisted := hshape.enlisted hregistered.enlisted
      nets := hshape.netsTyped hregistered.nets
      stored := hstored
      settled n hn := hquiet.settled_layOut henv hs (hlist ▸ hn)
      scheduled := by rw [hlist, hgraph, ← hquiet.schedule_eq]
      uncoded := (nodeStatements_layOut env s entry).trans hs.nodeStatements
      placed hfunction n hn kind hkind := by
        rw [FunctionContext.isEventGraph, (sameHeader_layOut env s entry).flags] at hfunction
        rw [hgraph] at hkind
        exact hquiet.placed_layOut henv hfunction (hlist ▸ hn) hkind }
  · intro name hname
    have hcls : (s.registered env entry).cls = s.cls :=
      (graphSteps_registered env s entry).sameFunction.cls
    rw [← hcls]
    exact hnew name (hshape.hasTerm.1 hname)

/-! ## Preparation without an error -/

/-- The function `f` is on the class in the state `t`, where it is laid out without an error. -/
structure Creates (env : CompileEnv) (s : FunctionState) (entry : NodeId) (f : Function)
    (t : FunctionState) : Prop where
  findEntry : s.findEntry = .ok entry
  simplified : (s.simplifyGraph env entry).log.numErrors ≤ s.log.numErrors
  start : ∃ flags, t = s.created entry (s.simplifyGraph env entry).graph
    (s.simplifyGraph env entry).log t.cls flags
  function : f = newFunction s.ctx (entryData t.ctx.graph entry)
    (s.cls.findOverridden? s.ctx.functionName)
  added : s.cls.addFunction f = .ok t.cls
  ctx : (s.precompile env).ctx = (t.layOut env entry).ctx
  cls : (s.precompile env).cls = (t.layOut env entry).cls
  quiet : (t.layOut env entry).log.numErrors ≤ t.log.numErrors

theorem exists_creates {env : CompileEnv} {s : FunctionState}
    (hlog : (s.precompile env).log.numErrors ≤ s.log.numErrors) :
    ∃ entry f t, s.Creates env entry f t := by
  rcases precompile_cases env s with ⟨ctx, log, hprecompile, hlt, -⟩ |
    ⟨entry, g, log, f, cls, flags, overridden, hentry, hsimplify, hle, hf, hcls, hprecompile⟩
  · rw [hprecompile] at hlog
    exact absurd hlt (Nat.not_lt.2 hlog)
  · obtain ⟨hcheck, hctx, hcls'⟩ := numErrors_le_checkSignature
      ((s.created entry g log cls flags).layOut env entry) entry overridden
    have hlaid : log.numErrors ≤ ((s.created entry g log cls flags).layOut env entry).log.numErrors :=
      numErrors_le_layOut env (s.created entry g log cls flags) entry
    rw [← hprecompile] at hcheck hctx hcls'
    exact ⟨entry, f, s.created entry g log cls flags, {
      findEntry := hentry
      simplified := by
        rw [hsimplify]
        exact Nat.le_trans hlaid (Nat.le_trans hcheck hlog)
      start := by
        rw [hsimplify]
        exact ⟨flags, rfl⟩
      function := hf
      added := hcls
      ctx := hctx
      cls := hcls'
      quiet := Nat.le_trans hcheck (Nat.le_trans hlog hle) }⟩

namespace Creates

variable {env : CompileEnv} {s t : FunctionState} {entry : NodeId} {f : Function}
  (h : s.Creates env entry f t)
include h

theorem functionName : t.ctx.functionName = s.ctx.functionName := by
  obtain ⟨flags, ht⟩ := h.start
  rw [ht]
  rfl

theorem name : f.name = s.ctx.functionName := by
  rw [h.function]
  rfl

theorem findOwnFunction? : t.cls.findOwnFunction? t.ctx.functionName = some f := by
  obtain ⟨flags, ht⟩ := h.start
  rw [ht]
  exact findOwnFunction?_created h.name h.added

theorem blank (hs : s.ctx.Blank) : t.ctx.Blank := by
  obtain ⟨flags, ht⟩ := h.start
  rw [ht]
  exact ⟨hs.terms, hs.lists, hs.netMap, hs.nodeStatements, hs.failed⟩

theorem graph_precompile : (s.precompile env).ctx.graph = (s.simplifyGraph env entry).graph := by
  obtain ⟨flags, ht⟩ := h.start
  rw [h.ctx, graph_layOut, ht]
  rfl

theorem entryPoint_precompile : (s.precompile env).ctx.entryPoint = some entry := by
  obtain ⟨flags, ht⟩ := h.start
  rw [h.ctx, entryPoint_layOut, ht]
  rfl

end Creates

/-- A fresh function that is prepared without an error has a name that is new to the class, and
so have the nets that it stores there. -/
theorem prepared_precompile {env : CompileEnv} (henv : env.HandlesAll)
    {s : FunctionState} (hs : s.ctx.Fresh)
    (hlog : (s.precompile env).log.numErrors ≤ s.log.numErrors) :
    (s.precompile env).ctx.Prepared (s.precompile env).cls ∧
      (s.precompile env).ctx.entryPoint.isSome ∧
      s.cls.findOwnFunction? s.ctx.functionName = none ∧
      ∀ name, (s.precompile env).ctx.HasTerm .eventGraphLocal name →
        s.cls.findOwnProperty? name = none := by
  obtain ⟨entry, f, t, h⟩ := exists_creates hlog
  obtain ⟨hprepared, hstorage⟩ :=
    prepared_layOut henv entry h.findOwnFunction? (h.blank hs.toBlank) h.quiet
  obtain ⟨hnew, hadded⟩ := Class.addFunction_eq_ok h.added
  rw [← h.ctx] at hprepared hstorage
  rw [← h.cls] at hprepared
  refine ⟨hprepared, ?_, h.name ▸ hnew, fun name hterm ↦ ?_⟩
  · rw [h.entryPoint_precompile]
    rfl
  · have hname := hstorage name hterm
    rw [hadded] at hname
    exact hname

end FunctionState

end VisualScript
