import VisualScript.Proofs.Compile.Signatures
import VisualScript.Proofs.Terminals.Nets

/-!
# Where prepared functions come from

A function that was prepared without an error was so in some state of the compile.
The names of nets were kept until then, and its nets lead where the nodes left them.
-/

namespace VisualScript

namespace FunctionState

variable {env : CompileEnv} {s : FunctionState}

/-! ## Names of nets -/

theorem classNetNames_createProperties (s : FunctionState) :
    s.createProperties.classNetNames = s.classNetNames := by
  unfold createProperties
  dsimp only
  split <;> rfl

theorem classNetNames_checkSignature (s : FunctionState) (entry : NodeId)
    (overridden : Option (String × Function)) :
    (s.checkSignature entry overridden).classNetNames = s.classNetNames := by
  unfold checkSignature
  split
  · rfl
  · split
    · rfl
    · split <;> rfl

/-- Preparing a function keeps the names of nets. -/
theorem names_precompile (env : CompileEnv) (s : FunctionState) :
    s.classNetNames.Extends (s.precompile env).classNetNames := by
  rcases precompile_cases env s with ⟨ctx, log, hs, -⟩ |
    ⟨entry, g, log, f, cls, flags, overridden, -, -, -, -, -, hs⟩
  · rw [hs]
    exact .refl _
  · rw [hs, classNetNames_checkSignature, layOut_eq, classNetNames_createProperties]
    exact (graphSteps_registered env (s.created entry g log cls flags) entry).names

/-! ## Prepared nets -/

/-- The function was laid out with this entry. -/
theorem ctx_precompile (hlog : (s.precompile env).log.numErrors ≤ s.log.numErrors) :
    ∃ (entry : NodeId) (t : FunctionState), s.findEntry = .ok entry ∧
      t.ctx.graph = (s.simplifyGraph env entry).graph ∧
      t.ctx.flags = s.ctx.flags ∧ t.ctx.userLocals = s.ctx.userLocals ∧
      t.ctx.terms = s.ctx.terms ∧ t.classNetNames = s.classNetNames ∧
      (s.precompile env).ctx = (t.layOut env entry).ctx := by
  obtain ⟨entry, f, t, h⟩ := exists_creates hlog
  obtain ⟨flags, ht⟩ := h.start
  refine ⟨entry, t, h.findEntry, ?_, ?_, ?_, ?_, ?_, h.ctx⟩ <;>
  · rw [ht]
    rfl

/-- The function begins at its entry and has the graph as it was simplified. -/
theorem graph_precompile (hlog : (s.precompile env).log.numErrors ≤ s.log.numErrors) :
    ∃ entry, s.findEntry = .ok entry ∧ (s.precompile env).ctx.entryPoint = some entry ∧
      (s.precompile env).ctx.graph = (s.simplifyGraph env entry).graph ∧
      (s.simplifyGraph env entry).log.numErrors ≤ s.log.numErrors := by
  obtain ⟨entry, f, t, h⟩ := exists_creates hlog
  exact ⟨entry, h.findEntry, h.entryPoint_precompile, h.graph_precompile, h.simplified⟩

theorem leads_createProperties {p : PinId} {term : Terminal} (h : s.ctx.Leads p term) :
    s.createProperties.ctx.Leads p term := by
  have hshape := sameShape_createProperties s
  obtain ⟨t, term', hnet, hterm, hagrees⟩ := h
  obtain ⟨new, hnew, hagrees'⟩ := hshape.agrees hterm
  refine ⟨t, new, ?_, hnew, hagrees.trans hagrees'⟩
  rw [hshape.eq]
  exact hnet

/-- The state `t` of a function that was in the state `s` before its preparation, when its local
variables are declared and its nodes are about to register. -/
structure Declared (env : CompileEnv) (s t : FunctionState) : Prop where
  graph : (s.precompile env).ctx.graph = t.graph
  executionList : (s.precompile env).ctx.executionList = t.ctx.executionList
  scheduled : t.ctx.executionList = t.graph.schedule.1
  flags : t.ctx.flags = s.ctx.flags
  names : s.classNetNames.Extends t.classNetNames
  namesOf {kind : TermKind} : kind ≠ .userLocal → t.ctx.namesOf kind = s.ctx.namesOf kind
  ctx : (s.precompile env).ctx = (t.registerNodes env).createProperties.ctx

theorem exists_declared (hlog : (s.precompile env).log.numErrors ≤ s.log.numErrors) :
    ∃ t, Declared env s t := by
  obtain ⟨entry, t, -, -, hflags, -, hterms, hnames, hctx⟩ := ctx_precompile hlog
  let t₀ : FunctionState := { t with
    ctx.executionList := t.graph.schedule.1, log := t.log.pushAll t.graph.schedule.2 }
  let t₁ := (entryData t.graph entry).localVariables.foldl (addUserLocal entry) t₀
  have hlocals : GraphSteps (· = .userLocal) False t₀ t₁ := graphSteps_addUserLocals entry _ t₀
  have hnodes := graphSteps_registerNodes env t₁
  have hlist : t₁.ctx.executionList = t.graph.schedule.1 := hlocals.sameFunction.executionList
  have hgraph : t₁.graph = t.graph := hlocals.sameFunction.graph
  have hlaid : (t.layOut env entry).ctx.graph = t₁.graph ∧
      (t.layOut env entry).ctx.executionList = t₁.ctx.executionList := by
    rw [layOut_eq, (sameShape_createProperties _).eq]
    exact ⟨hnodes.sameFunction.graph, hnodes.sameFunction.executionList⟩
  rw [← hctx] at hlaid
  refine ⟨t₁, hlaid.1, hlaid.2, hlist.trans (hgraph ▸ rfl), hlocals.sameFunction.flags.trans hflags,
    hnames ▸ hlocals.names, fun {kind} hkind ↦ (hlocals.namesOf hkind).trans ?_, hctx⟩
  show t.ctx.namesOf kind = s.ctx.namesOf kind
  rw [FunctionContext.namesOf, hterms, FunctionContext.namesOf]

/-- The nets of a prepared function lead where the node that has the pin left them. -/
theorem exists_leads_precompile (hlog : (s.precompile env).log.numErrors ≤ s.log.numErrors)
    (hwf : (s.precompile env).ctx.graph.WellFormed) {n : NodeId} {kind : NodeKind}
    (hn : n ∈ (s.precompile env).ctx.executionList)
    (hkind : (s.precompile env).ctx.graph.kind? n = some kind) (hhandles : env.handles kind = true) :
    ∃ s' : FunctionState, s'.ctx.graph = (s.precompile env).ctx.graph ∧
      s'.ctx.flags = s.ctx.flags ∧ s.classNetNames.Extends s'.classNetNames ∧
      ∀ p ∈ (s.precompile env).ctx.graph.pinsOf n, ∀ term,
        (kind.register s' n).ctx.Leads p term → (s.precompile env).ctx.Leads p term := by
  obtain ⟨t, ht⟩ := exists_declared hlog
  rw [ht.graph] at hwf hkind ⊢
  rw [ht.executionList] at hn
  have hnodup : t.ctx.executionList.Nodup := by
    rw [ht.scheduled]
    exact Graph.nodup_schedule hwf.nodup_order
  obtain ⟨s', hsteps, hleads⟩ := exists_registered hwf hnodup hn hkind hhandles
  refine ⟨s', hsteps.sameFunction.graph, hsteps.sameFunction.flags.trans ht.flags,
    ht.names.trans hsteps.names, fun p hp term hterm ↦ ?_⟩
  rw [ht.ctx]
  exact leads_createProperties (hleads p hp term hterm)

/-- Where there is one entry, the parameters of a prepared function are its data outputs. -/
theorem namesOf_parameter_precompile (hlog : (s.precompile env).log.numErrors ≤ s.log.numErrors)
    (hwf : (s.precompile env).ctx.graph.WellFormed) {entry : NodeId} {data : EntryData}
    (hentry : entry ∈ (s.precompile env).ctx.executionList)
    (hkind : (s.precompile env).ctx.graph.kind? entry = some (.functionEntry data))
    (hhandles : env.handles (.functionEntry data) = true)
    (hone : ∀ n ∈ (s.precompile env).ctx.executionList, ∀ node,
      (s.precompile env).ctx.graph.kind? n = some node → n ≠ entry → .parameter ∉ node.makes) :
    (s.precompile env).ctx.namesOf .parameter =
      s.ctx.namesOf .parameter ++ (s.precompile env).ctx.graph.dataOutputs entry := by
  obtain ⟨t, ht⟩ := exists_declared hlog
  rw [ht.graph] at hwf hkind hone ⊢
  rw [ht.executionList] at hentry hone
  have hnodup : t.ctx.executionList.Nodup := by
    rw [ht.scheduled]
    exact Graph.nodup_schedule hwf.nodup_order
  rw [ht.ctx, (sameShape_createProperties _).namesOf, ← ht.namesOf (by decide)]
  exact namesOf_registerNodes hnodup hentry hkind hhandles hone

/-- Without a result node a function has no results. -/
theorem namesOf_result_precompile (hlog : (s.precompile env).log.numErrors ≤ s.log.numErrors)
    (hnone : ∀ n ∈ (s.precompile env).ctx.executionList, ∀ node,
      (s.precompile env).ctx.graph.kind? n = some node → .result ∉ node.makes) :
    (s.precompile env).ctx.namesOf .result = s.ctx.namesOf .result := by
  obtain ⟨t, ht⟩ := exists_declared hlog
  rw [ht.graph, ht.executionList] at hnone
  rw [ht.ctx, (sameShape_createProperties _).namesOf, ← ht.namesOf (by decide), registerNodes_eq]
  exact namesOf_foldl_registerNode hnone

/-- A function whose entry declares no local variable has none. -/
theorem userLocals_precompile (hlog : (s.precompile env).log.numErrors ≤ s.log.numErrors)
    (hlocals : s.ctx.userLocals = []) (hdeclared : ∀ entry, s.findEntry = .ok entry →
      (entryData (s.simplifyGraph env entry).graph entry).localVariables = []) :
    (s.precompile env).ctx.userLocals = [] := by
  obtain ⟨entry, t, hentry, hgraph, -, hold, -, -, hctx⟩ := ctx_precompile hlog
  rw [hctx, layOut_eq, (sameShape_createProperties _).eq]
  have hregistered : t.registered env entry = registerNodes env { t with
      ctx.executionList := t.graph.schedule.1, log := t.log.pushAll t.graph.schedule.2 } := by
    unfold registered
    rw [show t.graph = (s.simplifyGraph env entry).graph from hgraph, hdeclared entry hentry]
    rfl
  rw [hregistered]
  exact (graphSteps_registerNodes env _).userLocals.trans (hold.trans hlocals)

end FunctionState

namespace Compilation

/-! ## States of a pass -/

section Passes

variable {selected : FunctionContext → Bool} {pass : FunctionState → FunctionState}

/-- A pass that keeps the names of nets does so for all functions. -/
theorem names_foldl_advance
    (hnames : ∀ s : FunctionState, s.classNetNames.Extends (pass s).classNetNames)
    (rest : List FunctionContext) (c : Compilation) :
    c.classNetNames.Extends (rest.foldl (advance selected pass) c).classNetNames := by
  induction rest generalizing c with
  | nil => exact .refl _
  | cons ctx rest ih =>
    refine .trans ?_ (ih _)
    unfold advance
    split
    · exact hnames ⟨ctx, c.log, c.cls, c.classNetNames⟩
    · exact .refl _

/-- The function `d` is what a pass from `c` to `c'` made in the state `s`.  The names of nets were
kept until then, and the class develops afterwards. -/
structure Passed (pass : FunctionState → FunctionState) (c c' : Compilation) (s : FunctionState)
    (d : FunctionContext) : Prop where
  names : c.classNetNames.Extends s.classNetNames
  develops : (pass s).cls.Develops c'.cls
  quiet : (pass s).log.numErrors ≤ s.log.numErrors
  eq : d = (pass s).ctx

/-- Without an error, a function was passed in some state or was left as it is. -/
theorem exists_state_of_mem_foldl (hpass : Keeps pass)
    (hnames : ∀ s : FunctionState, s.classNetNames.Extends (pass s).classNetNames)
    (hdevelops : ∀ s : FunctionState, s.cls.Develops (pass s).cls)
    {c : Compilation} {rest : List FunctionContext} {d : FunctionContext}
    (hlog : (rest.foldl (advance selected pass) c).log.numErrors ≤ c.log.numErrors)
    (hd : d ∈ (rest.foldl (advance selected pass) c).contexts) :
    d ∈ c.contexts ∨ d ∈ rest ∧ selected d = false ∨
      ∃ s : FunctionState, s.ctx ∈ rest ∧ selected s.ctx = true ∧
        Passed pass c (rest.foldl (advance selected pass) c) s d := by
  induction rest generalizing c with
  | nil => exact .inl hd
  | cons ctx rest ih =>
    have hfirst := (advance_keeps selected hpass c ctx).2.1
    have hrest := (foldl_advance_keeps selected hpass (c.advance selected pass ctx) rest).2.1
    rcases ih (Nat.le_trans hlog hfirst) hd with hdone | ⟨hmem, hskip⟩ |
      ⟨s, hmem, hselected, hpassed⟩
    · have hquiet : (c.advance selected pass ctx).log.numErrors ≤ c.log.numErrors :=
        Nat.le_trans hrest hlog
      have hkeeps : (c.advance selected pass ctx).cls.Develops
          (rest.foldl (advance selected pass) (c.advance selected pass ctx)).cls :=
        develops_foldl_advance hdevelops rest _
      rw [List.foldl_cons]
      generalize rest.foldl (advance selected pass) (c.advance selected pass ctx) = c' at hkeeps ⊢
      unfold advance at hdone hquiet hkeeps
      split at hdone
      · next hselected =>
        rw [if_pos hselected] at hquiet hkeeps
        rcases List.mem_append.1 hdone with hold | hnew
        · exact .inl hold
        · exact .inr (.inr ⟨⟨ctx, c.log, c.cls, c.classNetNames⟩, List.mem_cons_self, hselected,
            .refl _, hkeeps, hquiet, List.mem_singleton.1 hnew⟩)
      · next hselected =>
        rcases List.mem_append.1 hdone with hold | hnew
        · exact .inl hold
        · obtain rfl := List.mem_singleton.1 hnew
          exact .inr (.inl ⟨List.mem_cons_self, by simpa using hselected⟩)
    · exact .inr (.inl ⟨List.mem_cons_of_mem ctx hmem, hskip⟩)
    · refine .inr (.inr ⟨s, List.mem_cons_of_mem ctx hmem, hselected,
        { hpassed with names := .trans ?_ hpassed.names }⟩)
      exact names_foldl_advance hnames [ctx] c

end Passes

/-- Without an error, a prepared function was prepared from one that was listed. -/
theorem exists_state_of_mem_precompile {env : CompileEnv} {c : Compilation} {d : FunctionContext}
    (hlog : (c.precompile env).log.numErrors ≤ c.log.numErrors)
    (hd : d ∈ (c.precompile env).contexts) :
    ∃ s : FunctionState, s.ctx ∈ c.contexts ∧
      Passed (·.precompile env) c (c.precompile env) s d := by
  have hkeeps := keeps_precompile env
  have hnames := FunctionState.names_precompile env
  have hdevelops := FunctionState.develops_precompile env
  have hfirst := (runPass_keeps (·.isDelegateSignature) hkeeps c).2.1
  have hsecond := (runPass_keeps (!·.isDelegateSignature) hkeeps
    (c.runPass (·.isDelegateSignature) (·.precompile env))).2.1
  have hfirstNames : c.classNetNames.Extends
      (c.runPass (·.isDelegateSignature) (·.precompile env)).classNetNames :=
    names_foldl_advance hnames c.contexts { c with contexts := [] }
  have hprepared {e : FunctionContext}
      (he : e ∈ (c.runPass (·.isDelegateSignature) (·.precompile env)).contexts) :
      e ∈ c.contexts ∧ e.isDelegateSignature = false ∨ ∃ s : FunctionState, s.ctx ∈ c.contexts ∧
        s.ctx.isDelegateSignature = true ∧
        Passed (·.precompile env) c (c.runPass (·.isDelegateSignature) (·.precompile env)) s e := by
    rcases exists_state_of_mem_foldl (c := { c with contexts := [] }) hkeeps hnames hdevelops
      (Nat.le_trans hsecond hlog) he with hnone | hskip | ⟨s, hs, hdelegate, hpassed⟩
    · cases hnone
    · exact .inl hskip
    · exact .inr ⟨s, hs, hdelegate, hpassed.names, hpassed.develops, hpassed.quiet, hpassed.eq⟩
  rcases exists_state_of_mem_foldl (c := { c.runPass (·.isDelegateSignature) (·.precompile env) with
      contexts := [] }) hkeeps hnames hdevelops (Nat.le_trans hlog hfirst) hd with
    hnone | ⟨hmem, hdelegate⟩ | ⟨s, hmem, hother, hpassed⟩
  · cases hnone
  · rcases hprepared hmem with ⟨-, hother⟩ | ⟨s, hs, -, hpassed⟩
    · simp [hother] at hdelegate
    · refine ⟨s, hs, { hpassed with develops := hpassed.develops.trans ?_ }⟩
      exact develops_runPass hdevelops _
  · rcases hprepared hmem with ⟨hs, -⟩ | ⟨s', -, hdelegate, hpassed'⟩
    · exact ⟨s, hs, hfirstNames.trans hpassed.names, hpassed.develops, hpassed.quiet, hpassed.eq⟩
    · have hheader := (s'.precompile_keeps env).1.delegateSignatureName
      rw [hpassed'.eq, FunctionContext.isDelegateSignature, hheader] at hother
      rw [FunctionContext.isDelegateSignature] at hdelegate
      simp [hdelegate] at hother

end Compilation

end VisualScript
