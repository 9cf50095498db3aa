import VisualScript.Proofs.Compile.Origins
import VisualScript.Proofs.Compile.Skeleton
import VisualScript.Proofs.Compile.Storage
import VisualScript.Proofs.Jumps.Confined

/-!
# From listed functions to scripts

A compile that reports no error takes every function that it lists through all passes,
under the name that it was listed with, and gives its script to the only function of
that name.
-/

namespace VisualScript

open FunctionContext

namespace Class

theorem functionNames_generateCode (c : Class) (contexts : List FunctionContext) :
    (c.generateCode contexts false).functionNames = c.functionNames := by
  rw [generateCode_eq]
  exact List.foldlRecOn (motive := fun d : Class ↦ d.functionNames = c.functionNames) contexts
    setScript rfl fun d hd ctx _ ↦ (d.functionNames_modifyFunction ctx.functionName
      (fun f ↦ { f with script := ctx.script false }) fun _ _ hg ↦ hg).trans hd

theorem keepsSignatures_generateCode (c : Class) (contexts : List FunctionContext) :
    c.KeepsSignatures (c.generateCode contexts false) := by
  rw [generateCode_eq]
  refine List.foldlRecOn (motive := fun d : Class ↦ c.KeepsSignatures d) contexts setScript (.refl c)
    fun d hd ctx _ ↦ hd.trans fun name f hf ↦ ?_
  rw [findOwnFunction?_setScript]
  split
  · exact ⟨{ f with script := ctx.script false }, by rw [hf]; rfl, rfl⟩
  · exact ⟨f, hf, rfl⟩

theorem count_functionNames {c : Class} (hnodup : c.functionNames.Nodup) {name : String}
    {f : Function} (hf : c.findOwnFunction? name = some f) : c.functionNames.count name = 1 := by
  refine List.count_eq_one_of_mem hnodup ?_
  rw [← name_of_findOwnFunction? hf]
  exact List.mem_map_of_mem (List.mem_of_find?_eq_some hf)

end Class

/-! ## Stages of a function -/

/-- How a function that was listed became a script. -/
structure FunctionContext.Lineage (env : CompileEnv) (cls : Class) (d : FunctionContext)
    (s : FunctionState) (c₂ c₃ : FunctionContext) : Prop where
  listed : s.ctx = d
  quiet : (s.precompile env).log.numErrors ≤ s.log.numErrors
  kin : s.cls.SameKin cls
  prepared : (s.precompile env).ctx.Prepared cls
  signature : ∃ f, cls.findOwnFunction? d.functionName = some f ∧
    f.signature.map (·.name) =
      (s.precompile env).ctx.namesOf .parameter ++ (s.precompile env).ctx.namesOf .result
  compiled : (s.precompile env).ctx.CompiledFrom env c₂
  finished : c₂.FinishedFrom c₃

namespace FunctionContext.Lineage

variable {env : CompileEnv} {cls : Class} {d : FunctionContext} {s : FunctionState}
  {c₂ c₃ : FunctionContext} (h : Lineage env cls d s c₂ c₃)
include h

/-- All that compiling and finishing change are code, order and flags of the net. -/
theorem frame : ∃ table list code labels flags, c₃ = { (s.precompile env).ctx.withCode table with
    executionList := list, statements := code, nodeLabels := labels, netFlags := flags } := by
  obtain ⟨table, list, hcompiled⟩ := h.compiled.frame
  obtain ⟨table', list', code, labels, flags, hfinished⟩ := h.finished.frame
  refine ⟨table', list', code, labels, flags, ?_⟩
  generalize (s.precompile env).ctx = c₁ at hcompiled ⊢
  rw [hfinished, hcompiled]
  rfl

/-- The header is that of the listed function. -/
theorem header : FunctionState.SameHeader d c₃ := by
  have hprepared := (s.precompile_keeps env).1
  rw [h.listed] at hprepared
  obtain ⟨table, list, code, labels, flags, rfl⟩ := h.frame
  exact hprepared.trans ⟨rfl, rfl, rfl, rfl⟩

theorem graph : c₃.graph = (s.precompile env).ctx.graph := by
  obtain ⟨table, list, code, labels, flags, rfl⟩ := h.frame
  rfl

theorem net? (p : PinId) : c₃.net? p = (s.precompile env).ctx.net? p := by
  obtain ⟨table, list, code, labels, flags, rfl⟩ := h.frame
  rfl

theorem term? (t : TermId) : c₃.term? t = (s.precompile env).ctx.term? t := by
  obtain ⟨table, list, code, labels, flags, rfl⟩ := h.frame
  rfl

theorem namesOf (kind : TermKind) : c₃.namesOf kind = (s.precompile env).ctx.namesOf kind := by
  obtain ⟨table, list, code, labels, flags, rfl⟩ := h.frame
  rfl

theorem interfaceStub (hstub : d.flags.interfaceStub = false) :
    (s.precompile env).ctx.flags.interfaceStub = false ∧ c₂.flags.interfaceStub = false := by
  have hflags := (s.precompile_keeps env).1.flags
  rw [h.listed] at hflags
  obtain ⟨table, list, hframe⟩ := h.compiled.frame
  rw [hframe]
  exact ⟨hflags ▸ hstub, hflags ▸ hstub⟩

end FunctionContext.Lineage

namespace Compilation

variable {env : CompileEnv} {c : Compilation}

theorem numErrors_le_afterPasses (env : CompileEnv) (c : Compilation) :
    (c.precompile env).log.numErrors ≤ (c.afterPasses env).log.numErrors := by
  have hcompile := runPass_keeps (fun _ ↦ true) (keeps_compile env) (c.precompile env)
  have hpost := runPass_keeps (fun _ ↦ true) keeps_postcompile
    ((c.precompile env).runPass (fun _ ↦ true) (·.compile env))
  exact Nat.le_trans hcompile.2.1 hpost.2.1

theorem covered_afterPasses (h : Covered (c.precompile env).contexts (c.precompile env).cls) :
    Covered (c.afterPasses env).contexts (c.afterPasses env).cls :=
  covered_postcompile (covered_runPass (fun _ ↦ true) (·.compile env)
    (fun s ↦ (s.compile_keeps env).1)
    (fun s ↦ .inl (congrArg Class.functionNames (s.compile_keeps env).2.1)) h)

/-- Finishing the class leaves the functions. -/
theorem functions_finishClass (env : CompileEnv) (old : Option DefaultObject) (c : Compilation) :
    (c.patchStubs.finishClass env old).cls.own.functions = c.cls.own.functions := by
  rw [cls_finishClass]
  exact c.patchStubs.adds_linkedClass.functions

/-- A function that was listed is passed on to the end, if all functions are finished and apart. -/
theorem exists_lineage {origin : FunctionContext → Prop} (hfresh : ∀ d ∈ c.contexts, d.Fresh)
    (hfinished : ∀ d ∈ (c.afterPasses env).contexts, d.Finished env
      (fun e ↦ origin e ∧ e ∈ (c.precompile env).contexts) (c.afterPasses env).cls)
    (hapart : (c.afterPasses env).contexts.Pairwise Apart)
    (hlog : (c.afterPasses env).log.numErrors ≤ c.log.numErrors) {d : FunctionContext}
    (hd : d ∈ c.contexts) :
    ∃ (s : FunctionState) (c₂ : FunctionContext), ∃ c₃ ∈ (c.afterPasses env).contexts,
      c.classNetNames.Extends s.classNetNames ∧
        Lineage env (c.afterPasses env).cls d s c₂ c₃ := by
  have hnames := (c.afterPasses_keeps env).2.2
  have hnodup : (c.contexts.map (·.functionName)).Nodup := by
    rw [← hnames]
    exact List.pairwise_map.2 (hapart.imp (·.functionName))
  obtain ⟨c₃, hc₃, hname⟩ : ∃ c₃ ∈ (c.afterPasses env).contexts,
      c₃.functionName = d.functionName := by
    have hmem := List.mem_map_of_mem (f := FunctionContext.functionName) hd
    rwa [← hnames, List.mem_map] at hmem
  obtain ⟨c₁, c₂, hready, hcompiled, hcode⟩ := hfinished c₃ hc₃
  obtain ⟨s, hs, hpassed⟩ := exists_state_of_mem_precompile
    (Nat.le_trans (numErrors_le_afterPasses env c) hlog) hready.origin.2
  obtain rfl := hpassed.eq
  obtain ⟨f, hf, hsignature⟩ := FunctionState.signature_precompile (hfresh _ hs) hpassed.quiet
  have hdevelops := hpassed.develops.trans (develops_afterPasses env c)
  obtain ⟨g, hg, hsame⟩ := hdevelops.signatures _ f hf
  have hkin := (FunctionState.develops_precompile env s).toSameKin.trans hdevelops.toSameKin
  have hlineage : Lineage env (c.afterPasses env).cls s.ctx s c₂ c₃ :=
    ⟨rfl, hpassed.quiet, hkin, hready.toPrepared, ⟨g, hg, by rw [hsame, hsignature]⟩, hcompiled,
      hcode⟩
  -- The names of the functions are different, so that it was made of this one.
  obtain rfl := List.inj_on_of_nodup_map hnodup hs hd
    (hlineage.header.functionName.symm.trans hname)
  exact ⟨s, c₂, c₃, hc₃, hpassed.names, hlineage⟩

end Compilation

namespace Blueprint

variable {b : Blueprint} {options : CompileOptions} {suffix : Bool}

/-- The functions of a finished class have names of their own, which are those of contexts. -/
theorem covered_finished (b : Blueprint) (options : CompileOptions) (suffix : Bool) :
    Compilation.Covered (b.passed options suffix).contexts (b.finished options suffix).cls := by
  have hcovered : Compilation.Covered (b.passed options suffix).contexts
      (b.passed options suffix).cls :=
    Compilation.covered_afterPasses (b.covered_precompiled options suffix)
  have hnames : (b.finished options suffix).cls.functionNames =
      (b.passed options suffix).cls.functionNames := by
    rw [finished, Class.functionNames, Compilation.functions_finishClass, Class.functionNames]
  refine ⟨?_, ?_⟩
  · rw [hnames]
    exact hcovered.nodup
  · rw [hnames]
    exact hcovered.subset

/-- The functions of a class have names of their own. -/
theorem nodup_functionNames (b : Blueprint) (suffix : Bool) (hfull : options.compileType = .full) :
    (b.compile options suffix).cls.functionNames.Nodup := by
  rw [(compile_keeps b suffix hfull).2.1, Class.functionNames_generateCode]
  exact (b.covered_finished options suffix).nodup

/-- What follows the passes develops the class. -/
theorem develops_passed (b : Blueprint) (suffix : Bool) (hfull : options.compileType = .full) :
    (b.passed options suffix).cls.Develops (b.compile options suffix).cls := by
  have hfinish : (b.passed options suffix).cls.Spares (fun _ ↦ True)
      (b.finished options suffix).cls := by
    rw [← Compilation.cls_patchStubs (b.passed options suffix), finished]
    exact Compilation.spares_finishClass _ _ _ _
  rw [(compile_keeps b suffix hfull).2.1]
  refine .trans ⟨hfinish.toSameKin, fun name f hf ↦ ⟨f, (hfinish.function trivial).trans hf, rfl⟩⟩ ?_
  exact ⟨(Class.spares_generateCode _ _).toSameKin, Class.keepsSignatures_generateCode _ _⟩

/-- Every function that was listed is passed on to the end, under names of nets that extend those
after the listing. -/
theorem exists_lineage (hfull : options.compileType = .full)
    (hlog : (b.compile options suffix).log.numErrors = 0) {d : FunctionContext}
    (hd : d ∈ ((b.shaped suffix).addFunctions (b.environment options)).contexts) :
    ∃ (s : FunctionState) (c₂ : FunctionContext), ∃ c₃ ∈ (b.passed options suffix).contexts,
      ((b.shaped suffix).addFunctions (b.environment options)).classNetNames.Extends
        s.classNetNames ∧
      Lineage (b.environment options) (b.passed options suffix).cls d s c₂ c₃ := by
  obtain ⟨hfinished, hapart⟩ := finished_of_compile hfull hlog (fun _ ↦ True) (fun _ ↦ True)
    (fun _ _ _ _ ↦ trivial) fun _ _ ↦ trivial
  have hfresh := b.fresh_listed options suffix
  have hquiet := (compile_keeps b suffix hfull).2.2
  rw [hlog] at hquiet
  rw [passed] at hfinished hapart hquiet ⊢
  rw [precompiled] at hfinished
  generalize (b.shaped suffix).addFunctions (b.environment options) = c at *
  exact Compilation.exists_lineage hfresh hfinished hapart (Nat.le_trans hquiet (Nat.zero_le _)) hd

/-- The functions at the end have names of their own. -/
theorem nodup_passed (hfull : options.compileType = .full)
    (hlog : (b.compile options suffix).log.numErrors = 0) :
    ((b.passed options suffix).contexts.map (·.functionName)).Nodup := by
  obtain ⟨-, hapart⟩ := finished_of_compile hfull hlog (fun _ ↦ True) (fun _ ↦ True)
    (fun _ _ _ _ ↦ trivial) fun _ _ ↦ trivial
  exact List.pairwise_map.2 (hapart.imp (·.functionName))

/-- Every function at the end was listed. -/
theorem exists_listed (hfull : options.compileType = .full)
    (hlog : (b.compile options suffix).log.numErrors = 0) {c : FunctionContext}
    (hc : c ∈ (b.passed options suffix).contexts) :
    ∃ d ∈ ((b.shaped suffix).addFunctions (b.environment options)).contexts,
      FunctionState.SameHeader d c := by
  have hname := List.mem_map_of_mem (f := FunctionContext.functionName) hc
  rw [passed, (Compilation.afterPasses_keeps _ _).2.2] at hname
  obtain ⟨d, hd, hname⟩ := List.mem_map.1 hname
  obtain ⟨s, c₂, c₃, hc₃, -, hlineage⟩ := exists_lineage hfull hlog hd
  obtain rfl := List.inj_on_of_nodup_map (nodup_passed hfull hlog) hc hc₃
    (hname.symm.trans hlineage.header.functionName.symm)
  exact ⟨d, hd, hlineage.header⟩

end Blueprint

/-!
## Scripts of a class are not left

However wrong a Blueprint is, its functions have no code when they are compiled, and
compiling and finishing confine the jumps of each.  So no script of the class is ever
left.
-/

/-! ### Functions without code -/

namespace FunctionState

/-- Preparing makes no code, even if it fails. -/
theorem nodeStatements_precompile (env : CompileEnv) (s : FunctionState) :
    (s.precompile env).ctx.nodeStatements = s.ctx.nodeStatements := by
  unfold precompile
  cases s.findEntry with
  | error m => rfl
  | ok entry =>
    obtain ⟨g, log, hsimplify, -⟩ := editsGraph_simplifyGraph env s entry
    dsimp only
    rcases createFunction_cases (s.simplifyGraph env entry) entry with
      ⟨text, tokens, hcreate⟩ | ⟨f, cls, flags, -, -, hcreate⟩
    · rw [hcreate, hsimplify]
      rfl
    · rw [hcreate, hsimplify]
      dsimp only
      rw [(numErrors_le_checkSignature _ entry _).2.1]
      exact nodeStatements_layOut env _ entry

/-- Finishing resolves the jumps of a function that did not fail, and gives up the others. -/
theorem confined_postcompile {s : FunctionState} (h : s.ctx.CodeToPins) :
    s.postcompile.ctx.Confined := by
  have hfinish (s : FunctionState) (hs : s.ctx.Confined) : s.finish.ctx.Confined := by
    obtain ⟨-, -, flags, hctx⟩ := s.finish_keeps
    rw [hctx]
    exact ⟨hs.failed, hs.ending, hs.resolved, hs.labels⟩
  unfold postcompile
  refine hfinish _ ?_
  dsimp only
  split
  · next hgiven => exact FunctionContext.confined_ret (if_pos hgiven)
  · next hgiven =>
    rw [Bool.or_eq_true, not_or, Bool.not_eq_true, Bool.not_eq_true] at hgiven
    exact FunctionContext.confined_resolveJumps (c := s.ctx.sortForFallThrough) h hgiven.1 hgiven.2

end FunctionState

/-! ### All functions -/

namespace Compilation

/-- What a pass makes of each function, it makes of all. -/
theorem forall_runPass {selected : FunctionContext → Bool} {pass : FunctionState → FunctionState}
    {P Q : FunctionContext → Prop} (hskip : ∀ d, selected d = false → P d → Q d)
    (hrun : ∀ s : FunctionState, P s.ctx → Q (pass s).ctx) {c : Compilation}
    (h : ∀ d ∈ c.contexts, P d) : ∀ d ∈ (c.runPass selected pass).contexts, Q d := by
  have hpass : (∀ d ∈ (c.runPass selected pass).contexts, Q d) ∧ ∀ d ∈ [], P d := by
    refine runPass_induction (I := fun done rest _ ↦ (∀ d ∈ done, Q d) ∧ ∀ d ∈ rest, P d)
      (fun {done d rest cls} hselected hd ↦ ?_) (fun {done rest s} _ hs ↦ ?_) ⟨by simp, h⟩
    · rw [List.forall_mem_append, List.forall_mem_singleton]
      exact ⟨⟨hd.1, hskip d hselected (hd.2 d List.mem_cons_self)⟩,
        fun e he ↦ hd.2 e (List.mem_cons_of_mem d he)⟩
    · rw [List.forall_mem_append, List.forall_mem_singleton]
      exact ⟨⟨hs.1, hrun s (hs.2 s.ctx List.mem_cons_self)⟩,
        fun e he ↦ hs.2 e (List.mem_cons_of_mem s.ctx he)⟩
  exact hpass.1

/-- A stub that learns where it enters the event graph changes in its graph and its terminals. -/
theorem exists_patchStub_eq (ctx : FunctionContext) (labels : List (NodeId × Nat)) :
    ∃ g terms, patchStub labels ctx = { ctx with graph := g, terms } := by
  have hsame : ∃ g terms, ctx = { ctx with graph := g, terms } := ⟨ctx.graph, ctx.terms, rfl⟩
  unfold patchStub
  split
  · exact hsame
  · split
    · exact hsame
    · unfold enterAt
      split
      · exact hsame
      · dsimp only
        split <;> exact ⟨_, _, rfl⟩

theorem confined_patchStub {ctx : FunctionContext} (h : ctx.Confined)
    (labels : List (NodeId × Nat)) : (patchStub labels ctx).Confined := by
  obtain ⟨g, terms, heq⟩ := exists_patchStub_eq ctx labels
  rw [heq]
  exact ⟨h.failed, h.ending, h.resolved, h.labels⟩

/-- The class that is finished around confined functions has closed scripts only. -/
theorem confined_deliver {c : Compilation} (hconfined : ∀ ctx ∈ c.contexts, ctx.Confined)
    (hcovered : Covered c.contexts c.cls) (env : CompileEnv) (old : Option DefaultObject) :
    (∀ ctx ∈ ((c.patchStubs.finishClass env old).deliver env).contexts, ctx.Confined) ∧
      ∀ f ∈ ((c.patchStubs.finishClass env old).deliver env).cls.own.functions,
        ∃ ctx ∈ ((c.patchStubs.finishClass env old).deliver env).contexts,
          ctx.functionName = f.name ∧ f.script = ctx.script env.options.isSkeletonOnly := by
  have hcontexts : ((c.patchStubs.finishClass env old).deliver env).contexts =
      c.contexts.map (patchStub c.eventLabels) :=
    (c.patchStubs.finishClass_keeps env old).2.2.trans c.contexts_patchStubs
  refine ⟨fun ctx hctx ↦ ?_, fun f hf ↦ exists_script_of_covered hcovered env old hf⟩
  rw [hcontexts] at hctx
  obtain ⟨before, hbefore, rfl⟩ := List.mem_map.1 hctx
  exact confined_patchStub (hconfined before hbefore) _

end Compilation

/-! ### The whole compile -/

namespace Blueprint

variable (b : Blueprint) (options : CompileOptions) (suffix : Bool)

/-- Prepared functions have no code. -/
theorem nodeStatements_precompiled :
    ∀ d ∈ (b.precompiled options suffix).contexts, d.nodeStatements = [] := by
  have hpass (selected : FunctionContext → Bool) {c : Compilation}
      (hc : ∀ d ∈ c.contexts, d.nodeStatements = []) :
      ∀ d ∈ (c.runPass selected (·.precompile (b.environment options))).contexts,
        d.nodeStatements = [] :=
    Compilation.forall_runPass (fun _ _ hd ↦ hd)
      (fun s hs ↦ (s.nodeStatements_precompile _).trans hs) hc
  exact hpass _ (hpass _ fun d hd ↦ (b.fresh_listed options suffix d hd).nodeStatements)

theorem codeToPins_precompiled :
    ∀ d ∈ (b.precompiled options suffix).contexts, d.CodeToPins := fun d hd ↦
  FunctionContext.allCode_of_nodeStatements (b.nodeStatements_precompiled options suffix d hd)

theorem confined_skeleton : ∀ ctx ∈ (b.skeleton options suffix).contexts, ctx.Confined :=
  Compilation.forall_runPass (fun _ h ↦ by cases h) (fun _ ↦ FunctionState.confined_postcompile)
    (b.codeToPins_precompiled options suffix)

theorem confined_passed : ∀ ctx ∈ (b.passed options suffix).contexts, ctx.Confined :=
  Compilation.forall_runPass (fun _ h ↦ by cases h) (fun _ ↦ FunctionState.confined_postcompile)
    (Compilation.forall_runPass (fun _ h ↦ by cases h) (fun _ ↦ FunctionState.codeToPins_compile _)
      (b.codeToPins_precompiled options suffix))

/-- However a Blueprint is compiled, the jumps of every function are confined to its code, and
every function of the class has a script that was made of that code. -/
theorem confined_compile :
    (∀ ctx ∈ (b.compile options suffix).contexts, ctx.Confined) ∧
      ∀ f ∈ (b.compile options suffix).cls.own.functions,
        ∃ ctx ∈ (b.compile options suffix).contexts,
          ctx.functionName = f.name ∧ f.script = ctx.script options.isSkeletonOnly := by
  cases htype : options.compileType with
  | skeletonOnly =>
    rw [b.compile_eq_skeleton suffix htype]
    exact Compilation.confined_deliver (b.confined_skeleton options suffix)
      (b.covered_skeleton options suffix) _ _
  | full =>
    rw [compile_eq suffix htype, finished]
    exact Compilation.confined_deliver (b.confined_passed options suffix)
      (Compilation.covered_afterPasses (b.covered_precompiled options suffix)) _ _

/-- The code of every function ends in a return, after a tail that no label is behind, and its
jumps are to indices of the code.  Its script has an operation for each statement, or only
returns, and no run leaves a script of the class, if computed jumps do not. -/
theorem jumps_stay_compile :
    (∀ ctx ∈ (b.compile options suffix).contexts,
      ctx.statements.getLast? = some .ret ∧
      (∀ s ∈ ctx.statements, ∀ target, s.target? = some target →
        ∃ i < ctx.statements.length, target = .resolved i) ∧
      (∃ code, ctx.statements = code ++ ctx.ending ∧ ∀ e ∈ ctx.nodeLabels, e.2 ≤ code.length) ∧
      (options.isSkeletonOnly = false → ctx.script options.isSkeletonOnly =
        ctx.statements.map (ctx.lower (ctx.statements.length - 1))) ∧
      (options.isSkeletonOnly = true ∨ ctx.failed = true →
        ctx.script options.isSkeletonOnly = [.ret])) ∧
    ∀ f ∈ (b.compile options suffix).cls.own.functions,
      (∃ ctx ∈ (b.compile options suffix).contexts,
        ctx.functionName = f.name ∧ f.script = ctx.script options.isSkeletonOnly) ∧
      f.script.getLast? = some .ret ∧
      ∀ (entries : List Nat) (i j : Nat), (∀ k ∈ entries, k < f.script.length) →
        i < f.script.length → Relation.ReflTransGen (Script.Goes entries f.script) i j →
          j < f.script.length := by
  obtain ⟨hconfined, hscripts⟩ := b.confined_compile options suffix
  refine ⟨fun ctx hctx ↦ ?_, fun f hf ↦ ?_⟩
  · have h := hconfined ctx hctx
    obtain ⟨code, hcode⟩ := h.ending
    refine ⟨h.getLast?, h.resolved, ⟨code, hcode.symm, fun e he ↦ ?_⟩, fun hfull ↦ ?_,
      FunctionContext.script_eq_ret⟩
    · have hlabel := h.labels e he
      rwa [← hcode, List.length_append, Nat.add_sub_cancel] at hlabel
    · rw [hfull, h.script_eq_map]
  · obtain ⟨ctx, hctx, hname, hscript⟩ := hscripts f hf
    have hclosed := (hconfined ctx hctx).closed_script options.isSkeletonOnly
    rw [← hscript] at hclosed
    exact ⟨⟨ctx, hctx, hname, hscript⟩, hclosed.last,
      fun entries i j hentries hi hrun ↦ Script.lt_length_of_run hclosed hentries hi hrun⟩

end Blueprint

end VisualScript
