import VisualScript.Proofs.Class.Extension
import VisualScript.Proofs.Compile.Delivery

/-!
# Functions beside functions that fail

A function that cannot be compiled leaves the class as it was, or leaves a function of
its own there.  What another function of another name has on the class stays.
-/

namespace VisualScript

/-! ## What a function has on the class -/

namespace FunctionContext

/-- The function that the entry asks for, without a frame. -/
def ownFunction (c : FunctionContext) (cls : Class) (entry : NodeId) : Function :=
  FunctionState.newFunction c (FunctionState.entryData c.graph entry)
    (cls.findOverridden? c.functionName)

/-- The function with flags and metadata settled from its entry, on a frame. -/
def entryFunction (c : FunctionContext) (cls : Class) (entry : NodeId) (frame : List Property) :
    Function :=
  let f := FunctionState.describe c.graph (some entry)
    { c.ownFunction cls entry with properties := frame }
  (cls.findOverridden? c.functionName).elim (f.becomeRoot c.isEventGraph) fun o ↦
    FunctionState.inheritNetFlags (f.inheritMetadata o.2.metadata.entries) o.2

/-- The function is on the class as its entry asks for. -/
structure Created (c : FunctionContext) (cls : Class) : Prop where
  exists_function : ∃ entry frame, c.entryPoint = some entry ∧
    cls.findOwnFunction? c.functionName = some { c.ownFunction cls entry with properties := frame }

/-- The function is on the class with all that its entry says. -/
structure Entered (c : FunctionContext) (cls : Class) : Prop where
  statements : c.statements ≠ []
  exists_function : ∃ entry frame, c.entryPoint = some entry ∧
    cls.findOwnFunction? c.functionName = some (c.entryFunction cls entry frame)

open FunctionState in
theorem ownFunction_congr {c d : FunctionContext} {cls cls' : Class} {entry : NodeId}
    (hheader : SameHeader c d) (hkind : d.graph.kind? entry = c.graph.kind? entry)
    (hoverridden : cls'.findOverridden? c.functionName = cls.findOverridden? c.functionName) :
    d.ownFunction cls' entry = c.ownFunction cls entry := by
  unfold ownFunction newFunction ownFlags isEventGraph isDelegateSignature entryData
  rw [hheader.functionName, hheader.flags, hheader.delegateSignatureName, hheader.stub, hkind,
    hoverridden]

open FunctionState in
theorem entryFunction_congr {c d : FunctionContext} {cls cls' : Class} {entry : NodeId}
    (hheader : SameHeader c d) (hkind : d.graph.kind? entry = c.graph.kind? entry)
    (hdescribe : describe d.graph (some entry) = describe c.graph (some entry))
    (hoverridden : cls'.findOverridden? c.functionName = cls.findOverridden? c.functionName)
    (frame : List Property) : d.entryFunction cls' entry frame = c.entryFunction cls entry frame := by
  unfold entryFunction isEventGraph
  rw [ownFunction_congr hheader hkind hoverridden, hdescribe, hheader.functionName, hheader.flags,
    hoverridden]

variable {c : FunctionContext} {cls cls' : Class} {names : String → Prop}

theorem Created.spares (h : c.Created cls) (hspares : cls.Spares names cls')
    (hname : names c.functionName) : c.Created cls' := by
  obtain ⟨entry, frame, hentry, hf⟩ := h
  refine ⟨entry, frame, hentry, ?_⟩
  rw [hspares.function hname, hf,
    ownFunction_congr (.refl c) rfl (hspares.findOverridden? c.functionName)]

theorem Entered.spares (h : c.Entered cls) (hspares : cls.Spares names cls')
    (hname : names c.functionName) : c.Entered cls' := by
  obtain ⟨hstatements, entry, frame, hentry, hf⟩ := h
  refine ⟨hstatements, entry, frame, hentry, ?_⟩
  rw [hspares.function hname, hf,
    entryFunction_congr (.refl c) rfl rfl (hspares.findOverridden? c.functionName)]

end FunctionContext

/-! ## Preparing -/

namespace FunctionState

open FunctionContext

theorem exists_frameProperties (s : FunctionState) (f : Function) :
    ∃ frame, (s.frameProperties f).scope = { f with properties := frame } := by
  refine PropertyState.scope_addLists (P := fun g : Function ↦ ∃ frame,
    g = { f with properties := frame }) _ (fun {g g' p} hlink hg ↦ ?_) ⟨f.properties, rfl⟩
  obtain ⟨frame, rfl⟩ := hg
  obtain ⟨-, rfl⟩ := Function.addProperty_eq_ok hlink
  exact ⟨_, rfl⟩

theorem spares_classProperties (names : String → Prop) (s : FunctionState) (ts : List TermId) :
    s.cls.Spares names (s.classProperties ts).scope :=
  PropertyState.scope_addTerms (fun hlink hg ↦ hg.trans (Class.spares_linkProperty hlink))
    (.refl names s.cls) ts _

/-- Making properties gives the function a frame and leaves other functions alone. -/
theorem createProperties_isolated {s : FunctionState} {f : Function}
    (hf : s.cls.findOwnFunction? s.ctx.functionName = some f) :
    s.cls.Spares (· ≠ s.ctx.functionName) s.createProperties.cls ∧
      ∃ frame, s.createProperties.cls.findOwnFunction? s.ctx.functionName =
        some { f with properties := frame } := by
  have hname : (s.frameProperties f).scope.name = s.ctx.functionName :=
    (extends_frameProperties s f).1.trans (Class.name_of_findOwnFunction? hf)
  have hframe : s.cls.Spares (· ≠ s.ctx.functionName) (s.withFrame f).cls :=
    Class.spares_modifyFunction s.cls fun _ _ ↦ hname
  have hclass := spares_classProperties (fun _ ↦ True) (s.withFrame f) s.ctx.eventGraphLocals
  obtain ⟨frame, hscope⟩ := exists_frameProperties s f
  rw [createProperties_eq hf]
  refine ⟨hframe.trans (hclass.mono fun _ _ ↦ trivial), frame, ?_⟩
  rw [hclass.function trivial, findOwnFunction?_withFrame hf, hscope]

/-- Preparation fails and leaves the class as it was, or makes the first function of its name. -/
theorem precompile_isolated (env : CompileEnv) (s : FunctionState) :
    ((s.precompile env).ctx.failed = true ∧ (s.precompile env).cls = s.cls) ∨
      s.cls.findOwnFunction? s.ctx.functionName = none ∧
        s.cls.Spares (· ≠ s.ctx.functionName) (s.precompile env).cls ∧
        (s.precompile env).ctx.Created (s.precompile env).cls := by
  rcases precompile_cases env s with ⟨ctx, log, hs, -, -, hfailed, -⟩ |
    ⟨entry, g, log, f, cls, flags, overridden, -, -, -, hf, hcls, hs⟩
  · rw [hs]
    exact .inl ⟨hfailed, rfl⟩
  · let s₁ := s.created entry g log cls flags
    obtain ⟨-, hctx, hcls'⟩ := numErrors_le_checkSignature (s₁.layOut env entry) entry overridden
    have hsteps := (graphSteps_registered env s₁ entry).sameFunction
    have hfname : f.name = s.ctx.functionName := congrArg Function.name hf
    have hfind : (s₁.registered env entry).cls.findOwnFunction?
        (s₁.registered env entry).ctx.functionName = some f :=
      findOwnFunction?_registered env entry (findOwnFunction?_created hfname hcls)
    obtain ⟨hspares, frame, hframe⟩ := createProperties_isolated hfind
    have hadded : s.cls.Spares (· ≠ s.ctx.functionName) (s₁.registered env entry).cls := by
      rw [hsteps.cls]
      exact hfname ▸ Class.spares_addFunction hcls
    have hname : (s₁.registered env entry).ctx.functionName = s.ctx.functionName :=
      hsteps.functionName
    rw [hname] at hspares hframe
    have hall := hadded.trans hspares
    rw [hs, hctx, hcls']
    refine .inr ⟨hfname ▸ (Class.addFunction_eq_ok hcls).1, hall, entry, frame,
      entryPoint_layOut env s₁ entry, ?_⟩
    have hheader : SameHeader s.ctx (s₁.layOut env entry).ctx :=
      .trans (d := s₁.ctx) ⟨rfl, rfl, rfl, rfl⟩ (sameHeader_layOut env s₁ entry)
    have hgraph : (s₁.layOut env entry).ctx.graph = g := graph_layOut env s₁ entry
    rw [layOut_eq] at hheader hgraph ⊢
    rw [hheader.functionName, hframe, hf,
      ownFunction_congr (c := { s.ctx with graph := g }) ⟨hheader.functionName, hheader.flags,
        hheader.delegateSignatureName, hheader.stub⟩ (by rw [hgraph]) (hall.findOverridden? _)]
    rfl

/-! ## Compiling and finishing -/

/-- Compiling works on the code only, and a function that failed stays so. -/
theorem compile_isolated (env : CompileEnv) (s : FunctionState) :
    (s.compile env).cls = s.cls ∧ SameHeader s.ctx (s.compile env).ctx ∧
      (s.compile env).ctx.graph = s.graph ∧ (s.compile env).ctx.entryPoint = s.ctx.entryPoint ∧
      ((s.compile env).ctx.failed = false → s.ctx.failed = false) := by
  have hsame := (graphSteps_emitNodes env s.ctx.executionList s).sameFunction
  obtain ⟨hheader, hcls, -⟩ := s.compile_keeps env
  refine ⟨hcls, hheader, ?_, ?_, fun hfailed ↦ ?_⟩
  · unfold compile
    split
    · rfl
    · dsimp only
      split
      · exact hsame.graph
      · obtain ⟨table, list, heq⟩ := (emitNodes env s.ctx.executionList s).ctx.inlinePureNodes_eq
        rw [heq]
        exact hsame.graph
  · unfold compile
    split
    · rfl
    · dsimp only
      split
      · exact hsame.entryPoint
      · obtain ⟨table, list, heq⟩ := (emitNodes env s.ctx.executionList s).ctx.inlinePureNodes_eq
        rw [heq]
        exact hsame.entryPoint
  · by_contra hs
    unfold compile at hfailed
    rw [if_pos (by simp [hs])] at hfailed
    exact hs hfailed

theorem name_describe (g : Graph) (entry : Option NodeId) (f : Function) :
    (describe g entry f).name = f.name :=
  (extends_describe g entry f).1

/-- Finishing settles the function and leaves others alone. -/
theorem finish_isolated (s : FunctionState) :
    s.cls.Spares (· ≠ s.ctx.functionName) s.finish.cls ∧
      (s.ctx.Created s.cls → s.ctx.statements ≠ [] → s.finish.ctx.Entered s.finish.cls) := by
  cases hf : s.cls.findOwnFunction? s.ctx.functionName with
  | none =>
    have hfinish : s.finish = s := by
      unfold finish
      dsimp only
      rw [hf]
    rw [hfinish]
    refine ⟨.refl _ _, fun hcreated _ ↦ ?_⟩
    obtain ⟨entry, frame, -, hcreated⟩ := hcreated
    cases hf.symm.trans hcreated
  | some f =>
    have hname : f.name = s.ctx.functionName := Class.name_of_findOwnFunction? hf
    let f' := (s.cls.findOverridden? s.ctx.functionName).elim
      ((describe s.graph s.ctx.entryPoint f).becomeRoot s.ctx.isEventGraph) fun o ↦
        inheritNetFlags ((describe s.graph s.ctx.entryPoint f).inheritMetadata
          o.2.metadata.entries) o.2
    have hfinish : s.finish.cls = s.cls.modifyFunction s.ctx.functionName fun _ ↦ f' := by
      unfold finish
      dsimp only
      rw [hf]
      cases ho : s.cls.findOverridden? s.ctx.functionName <;> simp only [f', ho] <;> rfl
    have hname' : f'.name = s.ctx.functionName := by
      have hdescribe := (name_describe s.graph s.ctx.entryPoint f).trans hname
      cases ho : s.cls.findOverridden? s.ctx.functionName <;> simp only [f', ho] <;>
        exact hdescribe
    have hspares : s.cls.Spares (· ≠ s.ctx.functionName) s.finish.cls := by
      rw [hfinish]
      exact Class.spares_modifyFunction s.cls fun _ _ ↦ hname'
    refine ⟨hspares, fun hcreated hstatements ↦ ?_⟩
    obtain ⟨entry, frame, hentry, hcreated⟩ := hcreated
    obtain ⟨-, -, flags, hctx⟩ := s.finish_keeps
    have hheader : SameHeader s.ctx s.finish.ctx := by
      rw [hctx]
      exact ⟨rfl, rfl, rfl, rfl⟩
    refine ⟨by rw [hctx]; exact hstatements, entry, frame, by rw [hctx]; exact hentry, ?_⟩
    rw [entryFunction_congr hheader (by rw [hctx]) (by rw [hctx]) (hspares.findOverridden? _),
      hheader.functionName, hfinish,
      Class.findOwnFunction?_modifyFunction s.cls (fun _ _ ↦ hname'), if_pos rfl, hcreated,
      Option.map_some]
    cases hf.symm.trans hcreated
    simp only [f', hentry]
    rfl

/-- What finishing a function on the class goes by. -/
structure SameEntry (c d : FunctionContext) : Prop extends SameHeader c d where
  graph : d.graph = c.graph
  entryPoint : d.entryPoint = c.entryPoint

theorem SameEntry.symm {c d : FunctionContext} (h : SameEntry c d) : SameEntry d c :=
  ⟨h.toSameHeader.symm, h.graph.symm, h.entryPoint.symm⟩

theorem SameEntry.trans {c d e : FunctionContext} (h : SameEntry c d) (h' : SameEntry d e) :
    SameEntry c e :=
  ⟨h.toSameHeader.trans h'.toSameHeader, h'.graph.trans h.graph, h'.entryPoint.trans h.entryPoint⟩

/-- Once its jumps are resolved a function is finished. -/
theorem exists_postcompile_eq (s : FunctionState) :
    ∃ ctx, SameEntry s.ctx ctx ∧ ctx.statements ≠ [] ∧ s.postcompile = { s with ctx }.finish := by
  refine ⟨_, ?_, ?_, rfl⟩
  · split
    · exact ⟨⟨rfl, rfl, rfl, rfl⟩, rfl, rfl⟩
    · obtain ⟨table, code, labels, heq⟩ := s.ctx.sortForFallThrough.resolveJumps_eq
      rw [heq]
      exact ⟨⟨rfl, rfl, rfl, rfl⟩, rfl, rfl⟩
  · split
    · exact List.cons_ne_nil _ _
    · unfold FunctionContext.resolveJumps FunctionContext.tail
      dsimp only
      split <;> simp

/-- A function that did not fail is finished as its entry says. -/
theorem postcompile_isolated (s : FunctionState) :
    s.cls.Spares (· ≠ s.ctx.functionName) s.postcompile.cls ∧
      (s.ctx.Created s.cls → s.postcompile.ctx.Entered s.postcompile.cls) := by
  obtain ⟨ctx, hctx, hstatements, hpostcompile⟩ := s.exists_postcompile_eq
  obtain ⟨hspares, hentered⟩ := finish_isolated { s with ctx }
  have hname : ctx.functionName = s.ctx.functionName := hctx.functionName
  rw [hpostcompile]
  refine ⟨?_, fun hcreated ↦ hentered ?_ hstatements⟩
  · rw [← hname]
    exact hspares
  · obtain ⟨entry, frame, hentry', hf⟩ := hcreated
    refine ⟨entry, frame, hctx.entryPoint.trans hentry', ?_⟩
    show s.cls.findOwnFunction? ctx.functionName = _
    rw [hname, hf, ← ownFunction_congr hctx.toSameHeader (by rw [hctx.graph]) rfl]

end FunctionState

/-! ## Passes -/

namespace Compilation

open FunctionContext

/-- What a pass keeps of the functions that had their turn, those that wait, the class and the names
of its nets. -/
theorem runPass_names_induction {selected : FunctionContext → Bool}
    {pass : FunctionState → FunctionState}
    {I : List FunctionContext → List FunctionContext → Class → NetNameMap → Prop}
    (hskip : ∀ {done c rest cls names}, selected c = false → I done (c :: rest) cls names →
      I (done ++ [c]) rest cls names)
    (hrun : ∀ {done rest} {s : FunctionState}, selected s.ctx = true →
      I done (s.ctx :: rest) s.cls s.classNetNames →
        I (done ++ [(pass s).ctx]) rest (pass s).cls (pass s).classNetNames)
    {c : Compilation} (h : I [] c.contexts c.cls c.classNetNames) :
    I (c.runPass selected pass).contexts [] (c.runPass selected pass).cls
      (c.runPass selected pass).classNetNames := by
  have hfold (rest : List FunctionContext) (c : Compilation)
      (hc : I c.contexts rest c.cls c.classNetNames) :
      I (rest.foldl (advance selected pass) c).contexts []
        (rest.foldl (advance selected pass) c).cls
        (rest.foldl (advance selected pass) c).classNetNames := by
    induction rest generalizing c with
    | nil => exact hc
    | cons ctx rest ih =>
      refine ih _ ?_
      unfold advance
      by_cases hselected : selected ctx = true
      · rw [if_pos hselected]
        exact hrun (s := ⟨ctx, c.log, c.cls, c.classNetNames⟩) hselected hc
      · rw [if_neg hselected]
        exact hskip (by simpa using hselected) hc
  rw [runPass_eq]
  exact hfold c.contexts { c with contexts := [] } h

theorem runPass_induction {selected : FunctionContext → Bool} {pass : FunctionState → FunctionState}
    {I : List FunctionContext → List FunctionContext → Class → Prop}
    (hskip : ∀ {done c rest cls}, selected c = false → I done (c :: rest) cls →
      I (done ++ [c]) rest cls)
    (hrun : ∀ {done rest} {s : FunctionState}, selected s.ctx = true →
      I done (s.ctx :: rest) s.cls → I (done ++ [(pass s).ctx]) rest (pass s).cls)
    {c : Compilation} (h : I [] c.contexts c.cls) :
    I (c.runPass selected pass).contexts [] (c.runPass selected pass).cls :=
  runPass_names_induction (I := fun done rest cls _ ↦ I done rest cls) hskip hrun h

/-- Functions that are on the class have names of their own. -/
def DistinctIfCreated (c d : FunctionContext) : Prop :=
  c.entryPoint.isSome → d.entryPoint.isSome → c.failed = false → d.failed = false →
    c.functionName ≠ d.functionName

theorem DistinctIfCreated.symm {c d : FunctionContext} (h : DistinctIfCreated c d) :
    DistinctIfCreated d c :=
  fun hd hc hfailed hfailed' ↦ (h hc hd hfailed' hfailed).symm

/-! ### Preparing -/

/-- Of the functions that had their turn each failed or is on the class, and no pass has worked on
the others. -/
def Turn (had : FunctionContext → Bool) (c : FunctionContext) (cls : Class) : Prop :=
  if had c then c.failed = true ∨ c.Created cls else c.Fresh

theorem Turn.spares {had : FunctionContext → Bool} {c : FunctionContext} {cls cls' : Class}
    (h : Turn had c cls)
    (hspares : cls.Spares (fun name ↦ (cls.findOwnFunction? name).isSome) cls') :
    Turn had c cls' := by
  unfold Turn at h ⊢
  split
  · next hhad =>
    rw [if_pos hhad] at h
    refine h.imp_right fun hcreated ↦ hcreated.spares hspares ?_
    obtain ⟨entry, frame, -, hf⟩ := hcreated
    rw [hf]
    rfl
  · next hhad => rwa [if_neg hhad] at h

theorem Turn.created {had : FunctionContext → Bool} {c : FunctionContext} {cls : Class}
    (h : Turn had c cls) (hentry : c.entryPoint.isSome) (hfailed : c.failed = false) :
    c.Created cls := by
  unfold Turn at h
  split at h
  · exact h.resolve_left (by simp [hfailed])
  · rw [h.entryPoint] at hentry
    cases hentry

/-- How far a wave of preparations is. -/
structure Wave (before after : FunctionContext → Bool) (done rest : List FunctionContext)
    (cls : Class) : Prop where
  had : ∀ c ∈ done, Turn after c cls
  waiting : ∀ c ∈ rest, Turn before c cls
  distinct : (done ++ rest).Pairwise DistinctIfCreated

variable {before after : FunctionContext → Bool}

theorem Wave.skip (selected : FunctionContext → Bool) {done rest : List FunctionContext} {c : FunctionContext} {cls : Class}
    (hafter : ∀ c, after c = (before c || selected c)) (hselected : selected c = false)
    (h : Wave before after done (c :: rest) cls) : Wave before after (done ++ [c]) rest cls := by
  refine ⟨fun d hd ↦ ?_, fun d hd ↦ h.waiting d (List.mem_cons_of_mem _ hd), ?_⟩
  · rcases List.mem_append.1 hd with hd | hd
    · exact h.had d hd
    · obtain rfl := List.mem_singleton.1 hd
      have hturn := h.waiting d List.mem_cons_self
      unfold Turn at hturn ⊢
      rwa [hafter, hselected, Bool.or_false]
  · rw [List.append_assoc]
    exact h.distinct

theorem Wave.run (env : CompileEnv) (selected : FunctionContext → Bool)
    {done rest : List FunctionContext} {s : FunctionState}
    (hafter : ∀ c, after c = (before c || selected c))
    (hheader : ∀ {c d}, FunctionState.SameHeader c d → selected d = selected c)
    (hselected : selected s.ctx = true) (h : Wave before after done (s.ctx :: rest) s.cls) :
    Wave before after (done ++ [(s.precompile env).ctx]) rest (s.precompile env).cls := by
  have hturn : after (s.precompile env).ctx = true := by
    rw [hafter, hheader (s.precompile_keeps env).1, hselected, Bool.or_true]
  have hname := (s.precompile_keeps env).1.functionName
  have hdistinct := h.distinct
  rw [List.pairwise_middle (fun {c d} ↦ DistinctIfCreated.symm)] at hdistinct
  obtain ⟨-, hothers⟩ := List.pairwise_cons.1 hdistinct
  have hstanding (d : FunctionContext) (hd : d ∈ done ++ rest) (hentry : d.entryPoint.isSome)
      (hfailed : d.failed = false) : d.Created s.cls := by
    rcases List.mem_append.1 hd with hd | hd
    · exact (h.had d hd).created hentry hfailed
    · exact (h.waiting d (List.mem_cons_of_mem _ hd)).created hentry hfailed
  obtain ⟨hspares, hcreated, hnew⟩ :
      s.cls.Spares (fun name ↦ (s.cls.findOwnFunction? name).isSome) (s.precompile env).cls ∧
        ((s.precompile env).ctx.failed = true ∨
          (s.precompile env).ctx.Created (s.precompile env).cls) ∧
        ((s.precompile env).ctx.failed = false →
          s.cls.findOwnFunction? s.ctx.functionName = none) := by
    rcases s.precompile_isolated env with ⟨hfailed, hcls⟩ | ⟨hnone, hspares, hcreated⟩
    · refine ⟨hcls ▸ .refl _ _, .inl hfailed, fun hnot ↦ ?_⟩
      rw [hfailed] at hnot
      cases hnot
    · refine ⟨hspares.mono fun name hsome ↦ ?_, .inr hcreated, fun _ ↦ hnone⟩
      rintro rfl
      rw [hnone] at hsome
      cases hsome
  refine ⟨fun d hd ↦ ?_, fun d hd ↦ ?_, ?_⟩
  · rcases List.mem_append.1 hd with hd | hd
    · exact (h.had d hd).spares hspares
    · rw [List.mem_singleton.1 hd, Turn, if_pos hturn]
      exact hcreated
  · exact (h.waiting d (List.mem_cons_of_mem _ hd)).spares hspares
  · rw [List.append_assoc, List.singleton_append,
      List.pairwise_middle (fun {c d} ↦ DistinctIfCreated.symm)]
    refine List.pairwise_cons.2 ⟨fun d hd hentry hentry' hfailed hfailed' heq ↦ ?_, hothers⟩
    obtain ⟨entry, frame, -, hf⟩ := hstanding d hd hentry' hfailed'
    have hnone := hnew hfailed
    rw [← hname, heq, hf] at hnone
    cases hnone

/-- After all were prepared each function failed or is on the class under a name of its own. -/
theorem precompile_isolated (env : CompileEnv) {c : Compilation}
    (hfresh : ∀ d ∈ c.contexts, d.Fresh) :
    (∀ d ∈ (c.precompile env).contexts, d.failed = true ∨ d.Created (c.precompile env).cls) ∧
      (c.precompile env).contexts.Pairwise DistinctIfCreated := by
  have hstart : Wave (fun _ ↦ false) (·.isDelegateSignature) [] c.contexts c.cls := by
    refine ⟨fun d hd ↦ absurd hd List.not_mem_nil, hfresh, ?_⟩
    refine List.pairwise_of_forall_mem_list fun d hd e he hentry ↦ ?_
    rw [(hfresh d hd).entryPoint] at hentry
    cases hentry
  have hheader {c d : FunctionContext} (h : FunctionState.SameHeader c d) :
      d.isDelegateSignature = c.isDelegateSignature := by
    rw [isDelegateSignature, h.delegateSignatureName, isDelegateSignature]
  have hdelegates : Wave (fun _ ↦ false) (·.isDelegateSignature)
      (c.runPass (·.isDelegateSignature) (·.precompile env)).contexts []
      (c.runPass (·.isDelegateSignature) (·.precompile env)).cls := by
    refine runPass_induction
      (fun hselected h ↦ h.skip (·.isDelegateSignature) (fun c ↦ ?_) hselected)
      (fun hselected h ↦ h.run env (·.isDelegateSignature) (fun c ↦ ?_) hheader hselected) hstart
    · exact (Bool.false_or _).symm
    · exact (Bool.false_or _).symm
  have hmiddle : Wave (·.isDelegateSignature) (fun _ ↦ true) []
      (c.runPass (·.isDelegateSignature) (·.precompile env)).contexts
      (c.runPass (·.isDelegateSignature) (·.precompile env)).cls := by
    refine ⟨fun d hd ↦ absurd hd List.not_mem_nil, hdelegates.had, ?_⟩
    simpa using hdelegates.distinct
  have hothers : Wave (·.isDelegateSignature) (fun _ ↦ true) (c.precompile env).contexts []
      (c.precompile env).cls := by
    refine runPass_induction
      (fun hselected h ↦ h.skip (!·.isDelegateSignature) (fun c ↦ ?_) hselected)
      (fun hselected h ↦ h.run env (!·.isDelegateSignature) (fun c ↦ ?_) (fun hcd ↦ ?_)
        hselected) hmiddle
    · exact (Bool.or_not_self _).symm
    · exact (Bool.or_not_self _).symm
    · rw [hheader hcd]
  exact ⟨hothers.had, by simpa using hothers.distinct⟩

/-! ### Compiling -/

/-- Each function failed or is on the class under a name of its own. -/
structure Isolated (contexts : List FunctionContext) (cls : Class) : Prop where
  standing : ∀ c ∈ contexts, c.failed = true ∨ c.Created cls
  distinct : contexts.Pairwise DistinctIfCreated

theorem Isolated.compile (env : CompileEnv) {done rest : List FunctionContext} {s : FunctionState}
    (h : Isolated (done ++ s.ctx :: rest) s.cls) :
    Isolated (done ++ [(s.compile env).ctx] ++ rest) (s.compile env).cls := by
  obtain ⟨hcls, hheader, hgraph, hentry, hfailed⟩ := s.compile_isolated env
  obtain ⟨hstanding, hdistinct⟩ := h
  rw [hcls, List.append_assoc, List.singleton_append]
  have hmem {d : FunctionContext} (hd : d ∈ done ++ rest) : d ∈ done ++ s.ctx :: rest := by
    rw [List.mem_append, List.mem_cons]
    rw [List.mem_append] at hd
    tauto
  constructor
  · intro d hd
    rw [List.mem_append, List.mem_cons] at hd
    rcases hd with hd | rfl | hd
    · exact hstanding d (hmem (List.mem_append_left _ hd))
    · by_cases hnow : (s.compile env).ctx.failed = true
      · exact .inl hnow
      · rw [Bool.not_eq_true] at hnow
        have hcreated := (hstanding s.ctx (by simp)).resolve_left (by simp [hfailed hnow])
        obtain ⟨entry, frame, hentry', hf⟩ := hcreated
        refine .inr ⟨entry, frame, hentry.trans hentry', ?_⟩
        rw [hheader.functionName, hf, ← ownFunction_congr hheader (by rw [hgraph]) rfl]
    · exact hstanding d (hmem (List.mem_append_right _ hd))
  · rw [List.pairwise_middle (fun {c d} ↦ DistinctIfCreated.symm)] at hdistinct ⊢
    obtain ⟨hctx, hothers⟩ := List.pairwise_cons.1 hdistinct
    refine List.pairwise_cons.2 ⟨fun d hd hsome hsome' hnow hnow' ↦ ?_, hothers⟩
    rw [hheader.functionName]
    exact hctx d hd (hentry ▸ hsome) hsome' (hfailed hnow) hnow'

theorem compile_isolated (env : CompileEnv) {c : Compilation} (h : Isolated c.contexts c.cls) :
    Isolated (c.runPass (fun _ ↦ true) (·.compile env)).contexts
      (c.runPass (fun _ ↦ true) (·.compile env)).cls := by
  have hpass : Isolated ((c.runPass (fun _ ↦ true) (·.compile env)).contexts ++ [])
      (c.runPass (fun _ ↦ true) (·.compile env)).cls := by
    refine runPass_induction (I := fun done rest cls ↦ Isolated (done ++ rest) cls)
      (fun hselected _ ↦ ?_) (fun _ hs ↦ hs.compile env) h
    cases hselected
  rwa [List.append_nil] at hpass

/-- Functions that did not fail have names of their own. -/
theorem Isolated.count_le_one {contexts : List FunctionContext} {cls : Class} {name : String}
    (h : Isolated contexts cls) (hname : ∀ c ∈ contexts, c.functionName = name → c.failed = false) :
    (contexts.map (·.functionName)).count name ≤ 1 := by
  obtain ⟨hstanding, hdistinct⟩ := h
  induction contexts with
  | nil => exact Nat.zero_le _
  | cons c contexts ih =>
    obtain ⟨hc, hrest⟩ := List.pairwise_cons.1 hdistinct
    have hcount := ih (fun d hd ↦ hname d (List.mem_cons_of_mem _ hd))
      (fun d hd ↦ hstanding d (List.mem_cons_of_mem _ hd)) hrest
    rw [List.map_cons, List.count_cons]
    split
    · next heq =>
      have heq : c.functionName = name := by simpa using heq
      have hcreated {d : FunctionContext} (hd : d ∈ c :: contexts) (hdname : d.functionName = name) :
          d.failed = false ∧ d.entryPoint.isSome := by
        have hfailed := hname d hd hdname
        obtain ⟨entry, frame, hentry, -⟩ := (hstanding d hd).resolve_left (by simp [hfailed])
        exact ⟨hfailed, by rw [hentry]; rfl⟩
      have hnone : (contexts.map (·.functionName)).count name = 0 := by
        refine List.count_eq_zero.2 fun hmem ↦ ?_
        obtain ⟨d, hd, hdname⟩ := List.mem_map.1 hmem
        obtain ⟨hfailed, hentry⟩ := hcreated List.mem_cons_self heq
        obtain ⟨hfailed', hentry'⟩ := hcreated (List.mem_cons_of_mem _ hd) hdname
        exact hc d hd hentry hentry' hfailed hfailed' (heq.trans hdname.symm)
      rw [hnone]
    · exact hcount

/-! ### Finishing -/

/-- How far finishing is, for the one function of a name. -/
structure Finishing (name : String) (done rest : List FunctionContext) (cls : Class) : Prop where
  count : ((done ++ rest).map (·.functionName)).count name ≤ 1
  entered : ∀ c ∈ done, c.functionName = name → c.Entered cls
  created : ∀ c ∈ rest, c.functionName = name → c.Created cls

theorem Finishing.postcompile {name : String} {done rest : List FunctionContext} {s : FunctionState}
    (h : Finishing name done (s.ctx :: rest) s.cls) :
    Finishing name (done ++ [s.postcompile.ctx]) rest s.postcompile.cls := by
  obtain ⟨hcount, hentered, hcreated⟩ := h
  obtain ⟨hspares, hfinish⟩ := s.postcompile_isolated
  have hname : s.postcompile.ctx.functionName = s.ctx.functionName :=
    s.postcompile_keeps.1.functionName
  have hcount' : ((done ++ [s.postcompile.ctx] ++ rest).map (·.functionName)).count name ≤ 1 := by
    rw [List.append_assoc, List.singleton_append, List.map_append, List.map_cons, hname,
      ← List.map_cons (f := FunctionContext.functionName), ← List.map_append]
    exact hcount
  by_cases hsame : s.ctx.functionName = name
  · have hnone : name ∉ (done ++ rest).map (·.functionName) := by
      rw [List.map_append, List.map_cons, List.count_append, List.count_cons, hsame,
        if_pos (beq_self_eq_true name)] at hcount
      rw [← List.count_eq_zero, List.map_append, List.count_append]
      omega
    have hother {c : FunctionContext} (hc : c ∈ done ++ rest) : c.functionName ≠ name :=
      fun hcname ↦ hnone (List.mem_map.2 ⟨c, hc, hcname⟩)
    refine ⟨hcount', fun c hc hcname ↦ ?_, fun c hc hcname ↦ ?_⟩
    · rcases List.mem_append.1 hc with hc | hc
      · exact absurd hcname (hother (List.mem_append_left _ hc))
      · rw [List.mem_singleton.1 hc]
        exact hfinish (hcreated s.ctx List.mem_cons_self hsame)
    · exact absurd hcname (hother (List.mem_append_right _ hc))
  · refine ⟨hcount', fun c hc hcname ↦ ?_, fun c hc hcname ↦ ?_⟩
    · rcases List.mem_append.1 hc with hc | hc
      · exact (hentered c hc hcname).spares hspares (hcname.trans_ne (Ne.symm hsame))
      · rw [List.mem_singleton.1 hc] at hcname
        exact absurd (hname.symm.trans hcname) hsame
    · exact (hcreated c (List.mem_cons_of_mem _ hc) hcname).spares hspares
        (hcname.trans_ne (Ne.symm hsame))

/-- The one function of a name is finished as its entry says, if it did not fail. -/
theorem postcompile_isolated {c : Compilation} {name : String} (h : Isolated c.contexts c.cls)
    (hname : ∀ d ∈ c.contexts, d.functionName = name → d.failed = false) :
    Finishing name (c.runPass (fun _ ↦ true) (·.postcompile)).contexts []
      (c.runPass (fun _ ↦ true) (·.postcompile)).cls := by
  refine runPass_induction (I := Finishing name) (fun hselected _ ↦ ?_)
    (fun _ hs ↦ hs.postcompile) ⟨h.count_le_one hname, fun d hd ↦ absurd hd List.not_mem_nil,
      fun d hd hdname ↦ ?_⟩
  · cases hselected
  · exact (h.standing d hd).resolve_left (by simp [hname d hd hdname])

/-- Finishing does not make a function fail. -/
theorem map_runPass_postcompile (c : Compilation) :
    (c.runPass (fun _ ↦ true) (·.postcompile)).contexts.map (fun d ↦ (d.functionName, d.failed)) =
      c.contexts.map fun d ↦ (d.functionName, d.failed) := by
  have hpass (s : FunctionState) : (s.postcompile.ctx.functionName, s.postcompile.ctx.failed) =
      (s.ctx.functionName, s.ctx.failed) := by
    refine Prod.ext s.postcompile_keeps.1.functionName ?_
    obtain ⟨-, -, flags, hctx⟩ := FunctionState.finish_keeps { s with
      ctx := if s.ctx.failed || s.ctx.flags.interfaceStub then
          { s.ctx with statements := [.ret], nodeLabels := [] }
        else s.ctx.sortForFallThrough.resolveJumps }
    unfold FunctionState.postcompile
    rw [hctx]
    dsimp only
    split
    · rfl
    · obtain ⟨table, code, labels, heq⟩ := s.ctx.sortForFallThrough.resolveJumps_eq
      rw [heq]
      rfl
  have hall := runPass_induction (c := c) (I := fun done rest _ ↦
    (done ++ rest).map (fun d ↦ (d.functionName, d.failed)) =
      c.contexts.map fun d ↦ (d.functionName, d.failed))
    (fun {done d rest cls} (hselected : true = false) _ ↦ by cases hselected)
    (fun {done rest s} _ hs ↦ by
      rw [List.append_assoc, List.singleton_append, List.map_append, List.map_cons, hpass,
        ← List.map_cons (f := fun d : FunctionContext ↦ (d.functionName, d.failed)),
        ← List.map_append]
      exact hs) rfl
  rwa [List.append_nil] at hall

end Compilation

/-! ## The whole compile -/

namespace ClassState

/-- Finishing the class changes no function. -/
theorem spares_foldl {α : Type} {f : ClassState → α → ClassState} {names : String → Prop}
    (hf : ∀ (s : ClassState) (a : α), s.cls.Spares names (f s a).cls) (l : List α)
    (s : ClassState) : s.cls.Spares names (l.foldl f s).cls :=
  List.foldlRecOn (motive := fun s' : ClassState ↦ s.cls.Spares names s'.cls) l f (.refl _ _)
    fun s' hs' a _ ↦ Class.Spares.trans hs' (hf s' a)

end ClassState

namespace Compilation

theorem spares_bindDelegates (names : String → Prop) (c : Compilation)
    (contexts : List FunctionContext) :
    c.cls.Spares names (contexts.foldl bindDelegate c).cls := by
  refine List.foldlRecOn (motive := fun c' : Compilation ↦ c.cls.Spares names c'.cls) contexts
    bindDelegate (.refl _ _) fun c' hc' ctx _ ↦ hc'.trans ?_
  unfold bindDelegate
  split
  · exact .refl _ _
  · split
    · exact .of_functions rfl ⟨rfl, rfl, rfl⟩
    · exact .refl _ _

theorem spares_finishClass (c : Compilation) (names : String → Prop) (env : CompileEnv)
    (old : Option DefaultObject) : c.cls.Spares names (c.finishClass env old).cls := by
  refine (spares_bindDelegates names c c.contexts).trans ?_
  let s : ClassState := ⟨(c.contexts.foldl bindDelegate c).cls, (c.contexts.foldl bindDelegate c).log⟩
  have hnotifies : s.cls.Spares names s.checkRepNotifies.cls := by
    refine ClassState.spares_foldl ?_ _ s
    intro s e
    exact .of_functions rfl ⟨rfl, rfl, rfl⟩
  have hdelegates : s.checkRepNotifies.cls.Spares names s.checkRepNotifies.checkDelegates.cls := by
    refine ClassState.spares_foldl ?_ _ _
    intro s p
    exact .refl names s.cls
  exact (hnotifies.trans hdelegates).trans (.of_functions rfl ⟨rfl, rfl, rfl⟩)

end Compilation

/-! ## Stubs -/

namespace FunctionState

/-- The description of a function is up to the outputs of its entry. -/
theorem describe_of_inputs {g g' : Graph} (hnodes : g'.nodes = g.nodes)
    (hpins : ∀ q, g'.pin? q = g.pin? q ∨ ∃ pin pin', g.pin? q = some pin ∧ g'.pin? q = some pin' ∧
      pin.direction = .input ∧ pin'.direction = .input) (entry : Option NodeId) (f : Function) :
    describe g' entry f = describe g entry f := by
  cases entry with
  | none => rfl
  | some entry =>
    have hlist : g'.pinsOf entry = g.pinsOf entry := by
      unfold Graph.pinsOf Graph.node?
      rw [hnodes]
    have hkind : g'.kind? entry = g.kind? entry := by
      unfold Graph.kind? Graph.node?
      rw [hnodes]
    have hfiltered : g'.filteredPins entry .output false = g.filteredPins entry .output false := by
      unfold Graph.filteredPins
      rw [hlist]
      refine List.filter_congr fun q _ ↦ ?_
      rcases hpins q with heq | ⟨pin, pin', hpin, hpin', hinput, hinput'⟩
      · rw [heq]
      · simp [hpin, hpin', hinput, hinput']
    have hdefaults : parameterDefaults g' entry = parameterDefaults g entry := by
      unfold parameterDefaults
      rw [hfiltered]
      refine List.filterMap_congr fun q hq ↦ ?_
      obtain ⟨-, out, hout, hdirection, -⟩ := Graph.mem_filteredPins.1 hq
      rcases hpins q with heq | ⟨pin, pin', hpin, -, hinput, -⟩
      · rw [heq]
      · rw [hout] at hpin
        cases hpin
        rw [hinput] at hdirection
        cases hdirection
    have hmetadata : entryMetadata g' entry = entryMetadata g entry := by
      unfold entryMetadata
      rw [hkind]
    have hworld : hasWorldContext g' entry = hasWorldContext g entry := by
      unfold hasWorldContext Graph.findPin?
      rw [hlist]
      refine congrArg (fun matches' ↦ (List.find? matches' _).isSome) (funext fun q ↦ ?_)
      unfold Graph.pinMatches
      rcases hpins q with heq | ⟨pin, pin', hpin, hpin', hinput, hinput'⟩
      · rw [heq]
      · simp [hpin, hpin', hinput, hinput']
    unfold describe
    dsimp only
    rw [hdefaults, hmetadata, hworld]

end FunctionState

namespace FunctionContext

open FunctionState in
/-- Entering the event graph changes an input of a call, which the entry does not see. -/
theorem describe_enterAt (c : FunctionContext) (call : NodeId) (index : Nat) :
    SameHeader c (Compilation.enterAt c call index) ∧
      (Compilation.enterAt c call index).entryPoint = c.entryPoint ∧
      (∀ n, (Compilation.enterAt c call index).graph.kind? n = c.graph.kind? n) ∧
      describe (Compilation.enterAt c call index).graph = describe c.graph := by
  unfold Compilation.enterAt
  cases hp : c.graph.findPin? call PinName.entryPoint (some .input) with
  | none => exact ⟨.refl c, rfl, fun _ ↦ rfl, rfl⟩
  | some p =>
    let g := c.graph.modifyPin p fun pin ↦ { pin with defaultValue := toString index }
    have hnodes : g.nodes = c.graph.nodes := rfl
    have hpins (q : PinId) : g.pin? q = c.graph.pin? q ∨ ∃ pin pin', c.graph.pin? q = some pin ∧
        g.pin? q = some pin' ∧ pin.direction = .input ∧ pin'.direction = .input := by
      rw [Graph.pin?_modifyPin]
      split
      · next heq =>
        subst heq
        have hmatch := List.find?_some hp
        unfold Graph.pinMatches at hmatch
        cases hpin : c.graph.pin? p with
        | none => exact .inl rfl
        | some pin =>
          rw [hpin] at hmatch
          have hinput : pin.direction = .input := by
            simp only [Option.any_some, Option.all_some, Bool.and_eq_true,
              decide_eq_true_eq] at hmatch
            exact hmatch.2.symm
          exact .inr ⟨pin, _, rfl, rfl, hinput, hinput⟩
      · exact .inl rfl
    have hdescribe : describe g = describe c.graph := by
      funext entry f
      exact describe_of_inputs hnodes hpins entry f
    dsimp only
    split
    · exact ⟨⟨rfl, rfl, rfl, rfl⟩, rfl, fun _ ↦ rfl, hdescribe⟩
    · exact ⟨⟨rfl, rfl, rfl, rfl⟩, rfl, fun _ ↦ rfl, hdescribe⟩

theorem sameHeader_patchStub (c : FunctionContext) (labels : List (NodeId × Nat)) :
    FunctionState.SameHeader c (Compilation.patchStub labels c) := by
  unfold Compilation.patchStub
  split
  · exact .refl c
  · split
    · exact .refl c
    · exact (c.describe_enterAt _ _).1

theorem Entered.patchStub {c : FunctionContext} {cls : Class} (h : c.Entered cls)
    (labels : List (NodeId × Nat)) : (Compilation.patchStub labels c).Entered cls := by
  unfold Compilation.patchStub
  cases c.stub with
  | none => exact h
  | some link =>
    dsimp only
    cases labels.lookup link.sourceEvent with
    | none => exact h
    | some index =>
      dsimp only
      obtain ⟨hheader, hentry, hkind, hdescribe⟩ := c.describe_enterAt link.ubergraphCall index
      obtain ⟨hstatements, entry, frame, hentry', hf⟩ := h
      refine ⟨?_, entry, frame, hentry.trans hentry', ?_⟩
      · rw [(statements_enterAt c link.ubergraphCall index).1]
        exact hstatements
      · rw [hheader.functionName, hf,
          entryFunction_congr hheader (hkind entry) (by rw [hdescribe]) rfl]

end FunctionContext

/-! ## The class that is delivered -/

namespace Class

/-- The only function of a name gets the script of its context. -/
theorem findOwnFunction?_generateCode_of_count {contexts : List FunctionContext}
    {ctx : FunctionContext} (hctx : ctx ∈ contexts)
    (hcount : (contexts.map (·.functionName)).count ctx.functionName ≤ 1) (c : Class) :
    (c.generateCode contexts false).findOwnFunction? ctx.functionName =
      (c.findOwnFunction? ctx.functionName).map fun f ↦ { f with script := ctx.script false } := by
  obtain ⟨before, after, rfl⟩ := List.append_of_mem hctx
  rw [List.map_append, List.map_cons, List.count_append, List.count_cons,
    if_pos (beq_self_eq_true _)] at hcount
  have hbefore : ctx.functionName ∉ before.map (·.functionName) := by
    rw [← List.count_eq_zero]
    omega
  have hafter : ctx.functionName ∉ after.map (·.functionName) := by
    rw [← List.count_eq_zero]
    omega
  rw [generateCode_eq, List.foldl_append, List.foldl_cons,
    findOwnFunction?_foldl_of_notMem hafter, findOwnFunction?_setScript, if_pos rfl,
    findOwnFunction?_foldl_of_notMem hbefore]

theorem spares_generateCode (c : Class) (contexts : List FunctionContext) :
    c.Spares (fun _ ↦ False) (c.generateCode contexts false) := by
  refine List.foldlRecOn (motive := fun d : Class ↦ c.Spares (fun _ ↦ False) d) contexts _
    (.refl _ _) fun d hd ctx _ ↦ hd.trans ⟨⟨rfl, rfl, rfl⟩, fun h ↦ h.elim⟩

end Class

namespace Blueprint

/-- The functions before they are finished. -/
def compiled (b : Blueprint) (options : CompileOptions) (suffix : Bool) : Compilation :=
  (((b.shaped suffix).addFunctions (b.environment options)).precompile
    (b.environment options)).runPass (fun _ ↦ true) (·.compile (b.environment options))

section Delivered

variable {b : Blueprint} {options : CompileOptions} {suffix : Bool}

theorem passed_eq : b.passed options suffix =
    (b.compiled options suffix).runPass (fun _ ↦ true) (·.postcompile) := rfl

theorem isolated_compiled :
    Compilation.Isolated (b.compiled options suffix).contexts (b.compiled options suffix).cls := by
  obtain ⟨hstanding, hdistinct⟩ :=
    Compilation.precompile_isolated (b.environment options) (b.fresh_listed options suffix)
  exact Compilation.compile_isolated (b.environment options) ⟨hstanding, hdistinct⟩

/-- Finishing and delivering a function neither renames it nor makes it fail. -/
theorem map_contexts_compile (hfull : options.compileType = .full) :
    (b.compile options suffix).contexts.map (fun d ↦ (d.functionName, d.failed)) =
      (b.compiled options suffix).contexts.map fun d ↦ (d.functionName, d.failed) := by
  rw [← (b.compiled options suffix).map_runPass_postcompile, ← passed_eq, contexts_compile hfull,
    List.map_map]
  refine List.map_congr_left fun d _ ↦ ?_
  rw [Function.comp_apply, (d.sameHeader_patchStub _).functionName,
    (Compilation.statements_patchStub d _).2]

/-- If no function of a name failed, the one function of that name is finished. -/
theorem finishing_passed (hfull : options.compileType = .full) {name : String}
    (hothers : ∀ d ∈ (b.compile options suffix).contexts, d.failed = true → d.functionName ≠ name) :
    Compilation.Finishing name (b.passed options suffix).contexts []
      (b.passed options suffix).cls := by
  rw [passed_eq]
  refine Compilation.postcompile_isolated isolated_compiled fun d hd heq ↦ ?_
  have hkey := List.mem_map_of_mem (f := fun d ↦ (d.functionName, d.failed)) hd
  rw [← map_contexts_compile hfull] at hkey
  obtain ⟨e, he, hkey⟩ := List.mem_map.1 hkey
  obtain ⟨hename, hefailed⟩ := Prod.mk.inj hkey
  rw [← hefailed, Bool.eq_false_iff]
  exact fun hfailed ↦ hothers e he hfailed (hename.trans heq)

/-- What is finished stays so until the class is delivered. -/
theorem entered_finished (hfull : options.compileType = .full) {c : FunctionContext}
    (h : Compilation.Finishing c.functionName (b.passed options suffix).contexts []
      (b.passed options suffix).cls) (hc : c ∈ (b.compile options suffix).contexts) :
    c.Entered (b.finished options suffix).cls := by
  rw [contexts_compile hfull] at hc
  obtain ⟨c₀, hc₀, rfl⟩ := List.mem_map.1 hc
  have hname := (c₀.sameHeader_patchStub (b.passed options suffix).eventLabels).functionName
  have hpatched := (h.entered c₀ hc₀ hname.symm).patchStub (b.passed options suffix).eventLabels
  have hfinish := (b.passed options suffix).patchStubs.spares_finishClass (fun _ ↦ True)
    (b.environment options) (b.settleNames .empty).1.freshClass.2
  rw [Compilation.cls_patchStubs] at hfinish
  unfold finished
  exact hpatched.spares hfinish trivial

theorem count_functionName_compile (hfull : options.compileType = .full) {name : String}
    (h : Compilation.Finishing name (b.passed options suffix).contexts []
      (b.passed options suffix).cls) :
    ((b.compile options suffix).contexts.map (·.functionName)).count name ≤ 1 := by
  have hnames : (b.compile options suffix).contexts.map (·.functionName) =
      (b.passed options suffix).contexts.map (·.functionName) := by
    rw [contexts_compile hfull, List.map_map]
    exact List.map_congr_left fun d _ ↦ (d.sameHeader_patchStub _).functionName
  rw [hnames]
  simpa using h.count

/-- A function that did not fail has its own script, and the flags and metadata that its own entry
asks for, if no function of its name failed. -/
theorem function_of_compile {b : Blueprint} {options : CompileOptions} {suffix : Bool}
    (hfull : options.compileType = .full) {c : FunctionContext}
    (hc : c ∈ (b.compile options suffix).contexts) (hfailed : c.failed = false)
    (hothers : ∀ d ∈ (b.compile options suffix).contexts, d.failed = true →
      d.functionName ≠ c.functionName) :
    ∃ entry frame, c.entryPoint = some entry ∧
      (b.compile options suffix).cls.findOwnFunction? c.functionName =
        some { c.entryFunction (b.compile options suffix).cls entry frame with
          script := c.statements.map (c.lower (c.statements.length - 1)) } := by
  have hfinishing := finishing_passed hfull hothers
  obtain ⟨hstatements, entry, frame, hentry, hf⟩ := entered_finished hfull hfinishing hc
  refine ⟨entry, frame, hentry, ?_⟩
  have hspares := (b.finished options suffix).cls.spares_generateCode
    (b.compile options suffix).contexts
  rw [(compile_keeps b suffix hfull).2.1,
    Class.findOwnFunction?_generateCode_of_count hc (count_functionName_compile hfull hfinishing),
    hf, Option.map_some,
    FunctionContext.entryFunction_congr (.refl c) rfl rfl (hspares.findOverridden? _)]
  have hscript : c.script false = c.statements.map (c.lower (c.statements.length - 1)) := by
    simp [FunctionContext.script, hfailed, hstatements]
  rw [hscript]

end Delivered

/-- A function, and one without an entry. -/
def interrupted : Blueprint :=
  let sound := ((Graph.empty "Sound").spawn (.functionEntry {})).2
  { Blueprint.new "Player" (Class.new "Actor" none) with
    functionGraphs := [sound, Graph.empty "Broken"] }

theorem function_of_compile_interrupted :
    CompileOptions.full.compileType = .full ∧ ∃ c ∈ (interrupted.compile .full true).contexts,
      c.failed = false ∧ (∃ d ∈ (interrupted.compile .full true).contexts, d.failed = true) ∧
        ∃ entry frame, c.entryPoint = some entry ∧
          (interrupted.compile .full true).cls.findOwnFunction? c.functionName =
            some { c.entryFunction (interrupted.compile .full true).cls entry frame with
              script := c.statements.map (c.lower (c.statements.length - 1)) } := by
  have hfull : CompileOptions.full.compileType = .full := rfl
  obtain ⟨c, hc, hfailed, hothers⟩ : ∃ c ∈ (interrupted.compile .full true).contexts,
      c.failed = false ∧ ∀ d ∈ (interrupted.compile .full true).contexts, d.failed = true →
        d.functionName ≠ c.functionName := by decide +kernel
  have hbroken : ∃ d ∈ (interrupted.compile .full true).contexts, d.failed = true := by
    decide +kernel
  exact ⟨hfull, c, hc, hfailed, hbroken, function_of_compile hfull hc hfailed hothers⟩

/-- Two functions of one name: the second cannot be created, and leaves the first without code. -/
def contested : Blueprint :=
  let first := ((Graph.empty "Sound").spawn (.functionEntry {})).2
  let second := ((Graph.empty "Other").spawn (.functionEntry { customName := some "Sound" })).2
  { Blueprint.new "Player" (Class.new "Actor" none) with functionGraphs := [first, second] }

theorem not_function_of_compile : ¬∀ (b : Blueprint) (options : CompileOptions) (suffix : Bool),
    options.compileType = .full → ∀ c ∈ (b.compile options suffix).contexts, c.failed = false →
      ∃ f, (b.compile options suffix).cls.findOwnFunction? c.functionName = some f ∧
        f.script = c.statements.map (c.lower (c.statements.length - 1)) := by
  intro h
  obtain ⟨c, hc, hfailed, hstatements, hlength⟩ : ∃ c ∈ (contested.compile .full true).contexts,
      c.failed = false ∧ c.statements.length = 2 ∧
        ((contested.compile .full true).cls.findOwnFunction? c.functionName).all
          (·.script.length = 1) := by decide +kernel
  obtain ⟨f, hf, hscript⟩ := h contested .full true rfl c hc hfailed
  have hone : f.script.length = 1 := by simpa [hf] using hlength
  rw [hscript, List.length_map, hstatements] at hone
  cases hone

end Blueprint

end VisualScript
