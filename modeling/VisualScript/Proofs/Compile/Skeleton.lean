import VisualScript.Proofs.Class.Finishing

/-!
# Skeleton classes

A skeleton compile leaves out the pass that makes the code.  That pass works on the
code alone, so the class comes out the same but for the scripts, and the scripts of a
skeleton class only return.
-/

namespace VisualScript

/-! ## Options of the preparation -/

/-- The same with other options, except whether graphs are kept. -/
def CompileEnv.withOptions (env : CompileEnv) (options : CompileOptions) : CompileEnv :=
  { env with
    options := { options with
      saveIntermediateProducts := env.options.saveIntermediateProducts } }

section Options

variable (env : CompileEnv) (options : CompileOptions)

theorem CompileEnv.schema_withOptions : (env.withOptions options).schema = env.schema := rfl

theorem CompileEnv.saveIntermediateProducts_withOptions :
    (env.withOptions options).options.saveIntermediateProducts =
      env.options.saveIntermediateProducts := rfl

namespace Compilation

theorem expand_withOptions : expand (env.withOptions options) = expand env := rfl

theorem addStub_withOptions : addStub (env.withOptions options) = addStub env := by
  funext ubergraph c event
  unfold addStub
  rw [env.schema_withOptions]

theorem eventGraph_withOptions : eventGraph (env.withOptions options) = eventGraph env := by
  funext c
  unfold eventGraph
  rw [env.schema_withOptions, env.saveIntermediateProducts_withOptions, expand_withOptions]

theorem addEventGraph_withOptions :
    addEventGraph (env.withOptions options) = addEventGraph env := by
  funext c
  unfold addEventGraph
  rw [eventGraph_withOptions, addStub_withOptions, env.schema_withOptions]

theorem addFunctionGraph_withOptions :
    addFunctionGraph (env.withOptions options) = addFunctionGraph env := rfl

theorem addDelegateGraph_withOptions :
    addDelegateGraph (env.withOptions options) = addDelegateGraph env := rfl

theorem addInterfaceGraph_withOptions :
    addInterfaceGraph (env.withOptions options) = addInterfaceGraph env := rfl

theorem addFunctions_withOptions (c : Compilation) :
    c.addFunctions (env.withOptions options) = c.addFunctions env := by
  unfold addFunctions
  rw [addEventGraph_withOptions, addFunctionGraph_withOptions, addDelegateGraph_withOptions,
    addInterfaceGraph_withOptions]

theorem precompile_withOptions (c : Compilation) :
    c.precompile (env.withOptions options) = c.precompile env := rfl

end Compilation

end Options

/-! ## Classes without scripts -/

namespace Class

/-- The class with the scripts of its own functions taken away. -/
def eraseScripts (c : Class) : Class :=
  { c with own.functions := c.own.functions.map fun f ↦ { f with script := [] } }

theorem eraseScripts_generateCode (c : Class) (contexts : List FunctionContext)
    (skeletonOnly : Bool) : (c.generateCode contexts skeletonOnly).eraseScripts = c.eraseScripts := by
  have hstep (c : Class) (name : String) (script : Script) :
      (c.modifyFunction name fun f ↦ { f with script }).eraseScripts = c.eraseScripts := by
    have hfunctions := map_modify_of_key (fun f : Function ↦ { f with script })
      (fun f : Function ↦ { f with script := [] }) (fun _ ↦ rfl) c.own.functions
        (c.own.functions.findIdx (·.name == name))
    exact congrArg (fun functions ↦ { c with own.functions := functions }) hfunctions
  exact List.foldlRecOn (motive := fun d : Class ↦ d.eraseScripts = c.eraseScripts) contexts _ rfl
    fun d hd ctx _ ↦ (hstep d _ _).trans hd

/-- The names of the functions that the class declares. -/
def functionNames (c : Class) : List String := c.own.functions.map (·.name)

theorem functionNames_modifyFunction (c : Class) (name : String) (f : Function → Function)
    (hf : ∀ g ∈ c.own.functions, g.name = name → (f g).name = name) :
    (c.modifyFunction name f).functionNames = c.functionNames := by
  unfold functionNames modifyFunction
  dsimp only
  generalize c.own.functions = functions at hf
  induction functions with
  | nil => rfl
  | cons g functions ih =>
    rw [List.findIdx_cons]
    by_cases hg : g.name = name
    · simp [hg, hf g List.mem_cons_self hg]
    · rw [beq_eq_false_iff_ne.2 hg, cond_false, List.modify_succ_cons, List.map_cons, List.map_cons,
        ih fun g' hg' ↦ hf g' (List.mem_cons_of_mem _ hg')]

/-- Where names differ, changing the first element of a name changes all of that name. -/
theorem modify_findIdx_eq_map {α : Type} {key : α → String} {l : List α}
    (h : (l.map key).Nodup) (name : String) (f : α → α) :
    l.modify (l.findIdx (key · == name)) f = l.map fun a ↦ if key a = name then f a else a := by
  induction l with
  | nil => simp
  | cons a l ih =>
    obtain ⟨hfirst, hrest⟩ := List.nodup_cons.1 h
    rw [List.findIdx_cons]
    by_cases ha : key a = name
    · have hothers : (l.map fun b ↦ if key b = name then f b else b) = l := by
        conv_rhs => rw [← List.map_id l]
        refine List.map_congr_left fun b hb ↦ if_neg fun hb' ↦ hfirst ?_
        exact List.mem_map.2 ⟨b, hb, hb'.trans ha.symm⟩
      simp [ha, hothers]
    · simp [ha, beq_eq_false_iff_ne.2 ha, ih hrest]

/-- Every function of the class that has a context gets the script of one. -/
theorem exists_script_generateCode {c : Class} (hnodup : c.functionNames.Nodup)
    {contexts : List FunctionContext} {skeletonOnly : Bool} {f : Function}
    (hf : f ∈ (c.generateCode contexts skeletonOnly).own.functions) :
    f.name ∈ c.functionNames ∧ (f.name ∈ contexts.map (·.functionName) →
      ∃ ctx ∈ contexts, ctx.functionName = f.name ∧ f.script = ctx.script skeletonOnly) := by
  suffices h : ∀ (rest done : List FunctionContext) (d : Class), d.functionNames = c.functionNames →
      (∀ g ∈ d.own.functions, g.name ∈ done.map (·.functionName) →
        ∃ ctx ∈ done, ctx.functionName = g.name ∧ g.script = ctx.script skeletonOnly) →
      f ∈ (d.generateCode rest skeletonOnly).own.functions →
        f.name ∈ c.functionNames ∧ (f.name ∈ (done ++ rest).map (·.functionName) →
          ∃ ctx ∈ done ++ rest, ctx.functionName = f.name ∧ f.script = ctx.script skeletonOnly) from
    h contexts [] c rfl (fun g _ hg ↦ absurd hg List.not_mem_nil) hf
  intro rest
  induction rest with
  | nil =>
    intro done d hnames hdone hf
    rw [List.append_nil]
    exact ⟨hnames ▸ List.mem_map_of_mem hf, hdone f hf⟩
  | cons ctx rest ih =>
    intro done d hnames hdone hf
    rw [List.append_cons]
    let d' := d.modifyFunction ctx.functionName fun g ↦ { g with script := ctx.script skeletonOnly }
    have hnames' : d'.functionNames = d.functionNames :=
      d.functionNames_modifyFunction _ _ fun _ _ hg ↦ hg
    refine ih (done ++ [ctx]) d' (hnames'.trans hnames) (fun g hg hmem ↦ ?_) hf
    · have hnodup' : d.functionNames.Nodup := hnames ▸ hnodup
      change g ∈ d.own.functions.modify _ _ at hg
      rw [modify_findIdx_eq_map hnodup', List.mem_map] at hg
      obtain ⟨g', hg', rfl⟩ := hg
      split
      · next heq => exact ⟨ctx, by simp, heq.symm, rfl⟩
      · next hne =>
        rw [if_neg hne] at hmem
        rw [List.map_append, List.mem_append, List.map_singleton, List.mem_singleton] at hmem
        obtain ⟨ctx', hctx', hscript⟩ := hdone g' hg' (hmem.resolve_right hne)
        exact ⟨ctx', List.mem_append_left _ hctx', hscript⟩

theorem functionNames_addFunction {c d : Class} {f : Function} (h : c.addFunction f = .ok d) :
    f.name ∉ c.functionNames ∧ d.functionNames = c.functionNames ++ [f.name] := by
  obtain ⟨hnew, rfl⟩ := addFunction_eq_ok h
  refine ⟨fun hmem ↦ ?_, List.map_append⟩
  obtain ⟨g, hg, hname⟩ := List.mem_map.1 hmem
  exact List.find?_eq_none.1 hnew g hg (beq_iff_eq.2 hname)

end Class

/-! ## Functions on the class -/

namespace FunctionState

theorem functions_classProperties (s : FunctionState) (ts : List TermId) :
    (s.classProperties ts).scope.own.functions = s.cls.own.functions :=
  PropertyState.scope_addTerms (P := fun c : Class ↦ c.own.functions = s.cls.own.functions)
    (fun hlink hc ↦ by
      obtain ⟨-, rfl⟩ := Class.linkProperty_eq_ok hlink
      exact hc) rfl ts _

/-- Making properties leaves the class its functions. -/
theorem functionNames_createProperties {s : FunctionState} {f : Function}
    (hf : s.cls.findOwnFunction? s.ctx.functionName = some f) :
    s.createProperties.cls.functionNames = s.cls.functionNames := by
  have hname : (s.frameProperties f).scope.name = s.ctx.functionName :=
    (extends_frameProperties s f).1.trans (Class.name_of_findOwnFunction? hf)
  have hframe : (s.withFrame f).cls.functionNames = s.cls.functionNames :=
    s.cls.functionNames_modifyFunction _ _ fun _ _ _ ↦ hname
  rw [createProperties_eq hf]
  exact (congrArg (List.map Function.name)
    (functions_classProperties (s.withFrame f) s.ctx.eventGraphLocals)).trans hframe

/-- Preparing leaves the class as it is, or adds a function without a frame to it and then makes
its properties. -/
theorem cls_precompile_cases (env : CompileEnv) (s : FunctionState) :
    (s.precompile env).cls = s.cls ∨ ∃ (f : Function) (t : FunctionState),
      f.name = s.ctx.functionName ∧ f.properties = [] ∧ s.cls.addFunction f = .ok t.cls ∧
        t.cls.findOwnFunction? t.ctx.functionName = some f ∧
        (s.precompile env).cls = t.createProperties.cls := by
  rcases precompile_cases env s with ⟨ctx, log, hs, -⟩ |
    ⟨entry, g, log, f, cls, flags, overridden, -, -, -, hf, hcls, hs⟩
  · exact .inl (by rw [hs])
  · let s₁ := s.created entry g log cls flags
    obtain ⟨-, -, hcls'⟩ := numErrors_le_checkSignature (s₁.layOut env entry) entry overridden
    have hsteps := (graphSteps_registered env s₁ entry).sameFunction
    have hname : f.name = s.ctx.functionName := congrArg Function.name hf
    refine .inr ⟨f, s₁.registered env entry, hname, congrArg Function.properties hf, ?_, ?_, ?_⟩
    · rw [hsteps.cls]
      exact hcls
    · exact findOwnFunction?_registered env entry (findOwnFunction?_created hname hcls)
    · rw [hs, hcls', layOut_eq]

/-- Preparing adds at most the function itself to the class. -/
theorem functionNames_precompile (env : CompileEnv) (s : FunctionState) :
    (s.precompile env).cls.functionNames = s.cls.functionNames ∨
      s.ctx.functionName ∉ s.cls.functionNames ∧
        (s.precompile env).cls.functionNames = s.cls.functionNames ++ [s.ctx.functionName] := by
  rcases cls_precompile_cases env s with hcls | ⟨f, t, hname, -, hadd, hfind, hcls⟩
  · exact .inl (congrArg Class.functionNames hcls)
  · obtain ⟨hnew, hnames⟩ := Class.functionNames_addFunction hadd
    rw [hname] at hnew hnames
    rw [hcls, functionNames_createProperties hfind]
    exact .inr ⟨hnew, hnames⟩

theorem functionNames_finish (s : FunctionState) :
    s.finish.cls.functionNames = s.cls.functionNames := by
  unfold finish
  dsimp only
  split
  · rfl
  · next f hf =>
    have hname := (name_describe s.graph s.ctx.entryPoint f).trans
      (Class.name_of_findOwnFunction? hf)
    refine s.cls.functionNames_modifyFunction _ _ fun _ _ _ ↦ ?_
    split
    · exact hname
    · exact hname

/-- What a function is on the class when it is finished is up to its header, graph and entry. -/
theorem cls_finish_congr {s s' : FunctionState} (hentry : SameEntry s.ctx s'.ctx)
    (hcls : s'.cls = s.cls) : s'.finish.cls = s.finish.cls := by
  have hgraph : s'.graph = s.graph := hentry.graph
  unfold finish FunctionContext.isEventGraph
  dsimp only
  rw [hcls, hentry.functionName, hgraph, hentry.entryPoint, hentry.flags]
  split
  · exact hcls
  · rfl

theorem functionNames_postcompile (s : FunctionState) :
    s.postcompile.cls.functionNames = s.cls.functionNames := by
  obtain ⟨ctx, -, -, hpostcompile⟩ := s.exists_postcompile_eq
  rw [hpostcompile]
  exact functionNames_finish _

theorem cls_postcompile_congr {s t : FunctionState} (hentry : SameEntry s.ctx t.ctx)
    (hcls : t.cls = s.cls) : t.postcompile.cls = s.postcompile.cls := by
  obtain ⟨ctx, hctx, -, hpostcompile⟩ := s.exists_postcompile_eq
  obtain ⟨ctx', hctx', -, hpostcompile'⟩ := t.exists_postcompile_eq
  rw [hpostcompile, hpostcompile']
  exact cls_finish_congr (hctx.symm.trans (hentry.trans hctx')) hcls

end FunctionState

/-! ## Passes -/

namespace Compilation

open FunctionState (SameHeader SameEntry)

/-- The functions of the class have names of their own, which are those of contexts. -/
structure Covered (contexts : List FunctionContext) (cls : Class) : Prop where
  nodup : cls.functionNames.Nodup
  subset : ∀ name ∈ cls.functionNames, name ∈ contexts.map (·.functionName)

/-- A pass covers the class if it adds at most the function that it works on. -/
theorem covered_runPass (selected : FunctionContext → Bool) (pass : FunctionState → FunctionState)
    (hheader : ∀ s, SameHeader s.ctx (pass s).ctx)
    (hnames : ∀ s, (pass s).cls.functionNames = s.cls.functionNames ∨
      s.ctx.functionName ∉ s.cls.functionNames ∧
        (pass s).cls.functionNames = s.cls.functionNames ++ [s.ctx.functionName])
    {c : Compilation} (h : Covered c.contexts c.cls) :
    Covered (c.runPass selected pass).contexts (c.runPass selected pass).cls := by
  have hpass : Covered ((c.runPass selected pass).contexts ++ []) (c.runPass selected pass).cls := by
    refine runPass_induction (I := fun done rest cls ↦ Covered (done ++ rest) cls)
      (fun _ hs ↦ by rwa [List.append_assoc, List.singleton_append]) (fun {done rest s} _ hs ↦ ?_) h
    have hcontexts : (done ++ [(pass s).ctx] ++ rest).map (·.functionName) =
        (done ++ s.ctx :: rest).map (·.functionName) := by
      simp [(hheader s).functionName]
    obtain ⟨hnodup, hsubset⟩ := hs
    rcases hnames s with hsame | ⟨hnew, hadded⟩
    · exact ⟨hsame ▸ hnodup, hcontexts ▸ hsame ▸ hsubset⟩
    · refine ⟨?_, fun name hname ↦ ?_⟩
      · rw [hadded]
        exact List.nodup_append.2 ⟨hnodup, List.nodup_singleton _, fun name hname other hother ↦
          fun heq ↦ hnew (List.mem_singleton.1 hother ▸ heq ▸ hname)⟩
      · rw [hadded, List.mem_append, List.mem_singleton] at hname
        rw [hcontexts]
        rcases hname with hname | rfl
        · exact hsubset name hname
        · exact List.mem_map_of_mem (List.mem_append_right _ List.mem_cons_self)
  rwa [List.append_nil] at hpass

theorem covered_precompile (env : CompileEnv) {c : Compilation} (h : Covered c.contexts c.cls) :
    Covered (c.precompile env).contexts (c.precompile env).cls := by
  have hpass (selected : FunctionContext → Bool) {c : Compilation} (h : Covered c.contexts c.cls) :=
    covered_runPass selected (·.precompile env) (fun s ↦ (s.precompile_keeps env).1)
      (fun s ↦ s.functionNames_precompile env) h
  exact hpass _ (hpass _ h)

theorem covered_postcompile {c : Compilation} (h : Covered c.contexts c.cls) :
    Covered (c.runPass (fun _ ↦ true) (·.postcompile)).contexts
      (c.runPass (fun _ ↦ true) (·.postcompile)).cls :=
  covered_runPass _ _ (fun s ↦ s.postcompile_keeps.1) (fun s ↦ .inl s.functionNames_postcompile) h

/-- Making the code changes nothing that the class is finished from. -/
theorem sameEntry_compile (env : CompileEnv) (c : Compilation) :
    (c.runPass (fun _ ↦ true) (·.compile env)).cls = c.cls ∧
      List.Forall₂ SameEntry c.contexts (c.runPass (fun _ ↦ true) (·.compile env)).contexts := by
  let compiled := c.runPass (fun _ ↦ true) (·.compile env)
  let I (done rest : List FunctionContext) (cls : Class) : Prop :=
    cls = c.cls ∧ ∃ before, c.contexts = before ++ rest ∧ List.Forall₂ SameEntry before done
  have hall : I compiled.contexts [] compiled.cls := by
    refine runPass_induction (I := I) (fun hselected _ ↦ by cases hselected) ?_ ⟨rfl, [], rfl, .nil⟩
    rintro done rest s - ⟨hcls, before, hcontexts, hsame⟩
    obtain ⟨hcls', hheader, hgraph, hentry, -⟩ := s.compile_isolated env
    refine ⟨hcls'.trans hcls, before ++ [s.ctx], ?_, ?_⟩
    · rw [hcontexts, List.append_assoc, List.singleton_append]
    · exact List.rel_append hsame (.cons ⟨hheader, hgraph, hentry⟩ .nil)
  obtain ⟨hcls, before, hcontexts, hsame⟩ := hall
  rw [List.append_nil] at hcontexts
  exact ⟨hcls, hcontexts ▸ hsame⟩

/-- What the class is after finishing is up to the class and to the entries. -/
theorem postcompile_congr {c c' : Compilation} (hcls : c'.cls = c.cls)
    (hcontexts : List.Forall₂ SameEntry c.contexts c'.contexts) :
    (c'.runPass (fun _ ↦ true) (·.postcompile)).cls =
        (c.runPass (fun _ ↦ true) (·.postcompile)).cls ∧
      List.Forall₂ SameHeader (c.runPass (fun _ ↦ true) (·.postcompile)).contexts
        (c'.runPass (fun _ ↦ true) (·.postcompile)).contexts := by
  have hfold {contexts contexts' : List FunctionContext}
      (h : List.Forall₂ SameEntry contexts contexts') {d e : Compilation} (hcls : e.cls = d.cls)
      (hdone : List.Forall₂ SameHeader d.contexts e.contexts) :
      (contexts'.foldl (advance (fun _ ↦ true) (·.postcompile)) e).cls =
          (contexts.foldl (advance (fun _ ↦ true) (·.postcompile)) d).cls ∧
        List.Forall₂ SameHeader (contexts.foldl (advance (fun _ ↦ true) (·.postcompile)) d).contexts
          (contexts'.foldl (advance (fun _ ↦ true) (·.postcompile)) e).contexts := by
    induction h generalizing d e with
    | nil => exact ⟨hcls, hdone⟩
    | @cons ctx ctx' _ _ hentry _ ih =>
      let s : FunctionState := ⟨ctx, d.log, d.cls, d.classNetNames⟩
      let t : FunctionState := ⟨ctx', e.log, e.cls, e.classNetNames⟩
      have hheader : SameHeader s.postcompile.ctx t.postcompile.ctx :=
        s.postcompile_keeps.1.symm.trans (hentry.toSameHeader.trans t.postcompile_keeps.1)
      refine ih ?_ ?_
      · exact FunctionState.cls_postcompile_congr (s := s) (t := t) hentry hcls
      · exact List.rel_append hdone (.cons hheader .nil)
  rw [runPass_eq, runPass_eq]
  exact hfold hcontexts (d := { c with contexts := [] }) (e := { c' with contexts := [] }) hcls .nil

/-- Where every function of the class has a context, the finished class gives it its script. -/
theorem exists_script_of_covered {c : Compilation} (hcovered : Covered c.contexts c.cls)
    (env : CompileEnv) (old : Option DefaultObject) {skeletonOnly : Bool} {f : Function}
    (hf : f ∈ ((c.patchStubs.finishClass env old).cls.generateCode
      (c.patchStubs.finishClass env old).contexts skeletonOnly).own.functions) :
    ∃ ctx ∈ (c.patchStubs.finishClass env old).contexts,
      ctx.functionName = f.name ∧ f.script = ctx.script skeletonOnly := by
  have hnames : (c.patchStubs.finishClass env old).cls.functionNames = c.cls.functionNames := by
    rw [cls_finishClass]
    exact congrArg (List.map Function.name) c.patchStubs.adds_linkedClass.functions
  have hcontexts : (c.patchStubs.finishClass env old).contexts.map (·.functionName) =
      c.contexts.map (·.functionName) := by
    rw [(c.patchStubs.finishClass_keeps env old).2.2, contexts_patchStubs, List.map_map]
    exact List.map_congr_left fun ctx _ ↦ (ctx.sameHeader_patchStub _).functionName
  obtain ⟨hmem, hscript⟩ := Class.exists_script_generateCode (hnames ▸ hcovered.nodup) hf
  refine hscript ?_
  rw [hcontexts]
  exact hcovered.subset _ (hnames ▸ hmem)

end Compilation

/-! ## The whole compile -/

namespace Blueprint

variable (b : Blueprint) (options : CompileOptions) (suffix : Bool)

open FunctionState (SameHeader SameEntry)

/-- The functions on the class after preparation are those of the contexts. -/
theorem covered_precompiled : Compilation.Covered (b.precompiled options suffix).contexts
    (b.precompiled options suffix).cls := by
  have hfunctions : (b.shaped suffix).cls.own.functions = [] :=
    (b.adds_shaped suffix).functions.trans (b.settleNames .empty).1.freshClass_spec.2.1
  have hnone : ((b.shaped suffix).addFunctions (b.environment options)).cls.functionNames = [] := by
    rw [Compilation.cls_addFunctions, Class.functionNames, hfunctions, List.map_nil]
  exact Compilation.covered_precompile _ ⟨hnone ▸ .nil, hnone ▸ fun _ h ↦ absurd h List.not_mem_nil⟩

/-- The functions finished without their code. -/
def skeleton : Compilation :=
  (b.precompiled options suffix).runPass (fun _ ↦ true) (·.postcompile)

/-- The class is finished from the same functions, with their code or without. -/
theorem linkedClass_passed : (b.passed options suffix).patchStubs.linkedClass =
    (b.skeleton options suffix).patchStubs.linkedClass := by
  have hpassed : b.passed options suffix = ((b.precompiled options suffix).runPass (fun _ ↦ true)
    (·.compile (b.environment options))).runPass (fun _ ↦ true) (·.postcompile) := rfl
  unfold skeleton
  rw [hpassed]
  generalize b.precompiled options suffix = c
  obtain ⟨hcls, hentries⟩ := c.sameEntry_compile (b.environment options)
  generalize c.runPass (fun _ ↦ true) (·.compile (b.environment options)) = compiled at hcls hentries
  obtain ⟨hcls, hheaders⟩ := Compilation.postcompile_congr hcls hentries
  have hpatch (ctx : FunctionContext) (labels : List (NodeId × Nat)) := ctx.sameHeader_patchStub labels
  refine Compilation.linkedClass_congr ?_ ?_
  · rw [Compilation.cls_patchStubs, Compilation.cls_patchStubs, hcls]
  · rw [Compilation.contexts_patchStubs, Compilation.contexts_patchStubs,
      List.forall₂_map_left_iff, List.forall₂_map_right_iff]
    exact hheaders.imp fun _ _ h ↦ (hpatch _ _).symm.trans (h.trans (hpatch _ _))

/-- The same class is finished around the functions, with their code or without. -/
theorem cls_finishClass_passed (old : Option DefaultObject) :
    ((b.passed options suffix).patchStubs.finishClass (b.environment options) old).cls =
      ((b.skeleton options suffix).patchStubs.finishClass (b.environment options) old).cls := by
  have hblueprint : (b.passed options suffix).patchStubs.blueprint =
      (b.skeleton options suffix).patchStubs.blueprint := by
    unfold passed skeleton Compilation.afterPasses precompiled
    simp only [Compilation.blueprint_patchStubs, Compilation.blueprint_runPass]
  rw [Compilation.cls_finishClass, Compilation.cls_finishClass, linkedClass_passed, hblueprint]

variable {options} in
/-- Functions are prepared alike whatever the options, except for whether graphs are kept. -/
theorem precompiled_congr {options' : CompileOptions}
    (h : options'.saveIntermediateProducts = options.saveIntermediateProducts) :
    b.precompiled options' suffix = b.precompiled options suffix := by
  have henv : b.environment options' = (b.environment options).withOptions options' := by
    unfold CompileEnv.withOptions environment
    rw [← h]
  unfold precompiled
  rw [henv, Compilation.addFunctions_withOptions, Compilation.precompile_withOptions]

theorem skeleton_withType (t : CompileType) :
    b.skeleton { options with compileType := t } suffix = b.skeleton options suffix := by
  have hsame : b.precompiled { options with compileType := t } suffix =
      b.precompiled options suffix := b.precompiled_congr suffix rfl
  unfold skeleton
  rw [hsame]

variable {options} in
theorem compile_eq_skeleton (h : options.compileType = .skeletonOnly) :
    b.compile options suffix = (((b.skeleton options suffix).patchStubs.finishClass
      (b.environment options) (b.settleNames .empty).1.freshClass.2).deliver
        (b.environment options)) := by
  have hskeleton : options.isSkeletonOnly = true := by simp [CompileOptions.isSkeletonOnly, h]
  simp only [compile, Compilation.compileFunctions, hskeleton, if_true]
  rfl

/-- Every function on the class of a skeleton has a context. -/
theorem covered_skeleton : Compilation.Covered (b.skeleton options suffix).contexts
    (b.skeleton options suffix).cls :=
  Compilation.covered_postcompile (b.covered_precompiled options suffix)

/-- A script of the skeleton class only returns. -/
theorem script_skeleton (env : CompileEnv) (old : Option DefaultObject) {f : Function}
    (hf : f ∈ (((b.skeleton options suffix).patchStubs.finishClass env old).cls.generateCode
      ((b.skeleton options suffix).patchStubs.finishClass env old).contexts true).own.functions) :
    f.script = [.ret] := by
  have hcovered := b.covered_skeleton options suffix
  generalize b.skeleton options suffix = c at hf hcovered
  obtain ⟨ctx, -, -, hscript⟩ := Compilation.exists_script_of_covered hcovered env old hf
  exact hscript

/-- A skeleton compile makes the class of the full compile, with scripts that only return. -/
theorem skeleton_compile :
    (b.compile { options with compileType := .skeletonOnly } suffix).cls.eraseScripts =
        (b.compile { options with compileType := .full } suffix).cls.eraseScripts ∧
      ∀ f ∈ (b.compile { options with compileType := .skeletonOnly } suffix).cls.own.functions,
        f.script = [.ret] := by
  let skeletonOnly : CompileOptions := { options with compileType := .skeletonOnly }
  let full : CompileOptions := { options with compileType := .full }
  let old := (b.settleNames .empty).1.freshClass.2
  let c := (b.skeleton skeletonOnly suffix).patchStubs.finishClass (b.environment skeletonOnly) old
  have hskeleton : b.compile skeletonOnly suffix = c.deliver (b.environment skeletonOnly) :=
    b.compile_eq_skeleton suffix rfl
  have hfull : b.compile full suffix = (b.finished full suffix).deliver (b.environment full) :=
    compile_eq suffix rfl
  constructor
  · have hsame : b.skeleton full suffix = b.skeleton skeletonOnly suffix :=
      (b.skeleton_withType options suffix .full).trans
        (b.skeleton_withType options suffix .skeletonOnly).symm
    have henv : (b.skeleton full suffix).patchStubs.finishClass (b.environment full) old = c := by
      rw [hsame]
      rfl
    have hfinished : (b.finished full suffix).cls = c.cls :=
      (b.cls_finishClass_passed full suffix old).trans (congrArg Compilation.cls henv)
    calc (b.compile skeletonOnly suffix).cls.eraseScripts
      _ = c.cls.eraseScripts := by
        rw [hskeleton, Compilation.cls_deliver, Class.eraseScripts_generateCode]
      _ = (b.finished full suffix).cls.eraseScripts := by rw [hfinished]
      _ = (b.compile full suffix).cls.eraseScripts := by
        rw [hfull, Compilation.cls_deliver, Class.eraseScripts_generateCode]
  · intro f hf
    have hcls : (b.compile skeletonOnly suffix).cls = c.cls.generateCode c.contexts true := by
      rw [hskeleton, Compilation.cls_deliver]
      rfl
    exact b.script_skeleton skeletonOnly suffix _ _ (hcls ▸ hf)

end Blueprint

end VisualScript
