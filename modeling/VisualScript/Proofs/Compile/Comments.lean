import VisualScript.Proofs.Compile.Lineage
import VisualScript.Proofs.Compile.Entering
import VisualScript.Proofs.Compile.StubScripts

/-!
# Compiling with comments

A compile with comments and one without do the same in every pass.  The class comes out
the same but for the scripts, and the scripts differ in the comments and in the indices
behind them.
-/

namespace VisualScript

/-! ## Passes side by side -/

namespace Compilation

/-- The compile with other functions. -/
def withContexts (c : Compilation) (contexts : List FunctionContext) : Compilation :=
  { c with contexts }

/-- Passes that do the same to related functions do the same to all. -/
theorem runPass_alike {R Q : FunctionContext → FunctionContext → Prop}
    (pass pass' : FunctionState → FunctionState)
    (hpass : ∀ (s : FunctionState) (d : FunctionContext), R s.ctx d →
      ∃ e, pass' { s with ctx := d } = { pass s with ctx := e } ∧ Q (pass s).ctx e)
    {c : Compilation} {contexts : List FunctionContext} (h : List.Forall₂ R c.contexts contexts) :
    ∃ contexts', (c.withContexts contexts).runPass (fun _ ↦ true) pass' =
        (c.runPass (fun _ ↦ true) pass).withContexts contexts' ∧
      List.Forall₂ Q (c.runPass (fun _ ↦ true) pass).contexts contexts' := by
  have hfold {rest rest' : List FunctionContext} (h : List.Forall₂ R rest rest')
      (d : Compilation) {done : List FunctionContext} (hdone : List.Forall₂ Q d.contexts done) :
      ∃ contexts', rest'.foldl (advance (fun _ ↦ true) pass') (d.withContexts done) =
          (rest.foldl (advance (fun _ ↦ true) pass) d).withContexts contexts' ∧
        List.Forall₂ Q (rest.foldl (advance (fun _ ↦ true) pass) d).contexts contexts' := by
    induction h generalizing d done with
    | nil => exact ⟨done, rfl, hdone⟩
    | @cons x y _ _ hxy _ ih =>
      obtain ⟨e, he, hQ⟩ := hpass ⟨x, d.log, d.cls, d.classNetNames⟩ y hxy
      have hstep : advance (fun _ ↦ true) pass' (d.withContexts done) y =
          (advance (fun _ ↦ true) pass d x).withContexts (done ++ [e]) := by
        simp only [advance, withContexts, if_true]
        rw [he]
      rw [List.foldl_cons, List.foldl_cons, hstep]
      exact ih _ (List.rel_append hdone (.cons hQ .nil))
  rw [runPass_eq, runPass_eq]
  exact hfold h { c with contexts := [] } .nil

end Compilation

/-! ## The functions -/

namespace FunctionState

theorem Annotates.refl {s : FunctionState} (h : s.ctx.nodeStatements = []) : s.Annotates s where
  frame := ⟨s.ctx.nodeStatements, rfl⟩
  code n := by
    rw [FunctionContext.statementsOf, h]
    exact .nil

end FunctionState

namespace Blueprint

variable (b : Blueprint) (options : CompileOptions) (suffix : Bool)

/-- Prepared functions mark their code for the debugger. -/
theorem createDebugData_precompiled :
    ∀ d ∈ (b.precompiled options suffix).contexts, d.flags.createDebugData = true := by
  have hpass (selected : FunctionContext → Bool) {c : Compilation}
      (hc : ∀ d ∈ c.contexts, d.flags.createDebugData = true) :
      ∀ d ∈ (c.runPass selected (·.precompile (b.environment options))).contexts,
        d.flags.createDebugData = true :=
    Compilation.forall_runPass (fun _ _ hd ↦ hd) (fun s hs ↦
      (congrArg ContextFlags.createDebugData (s.precompile_keeps _).1.flags).trans hs) hc
  exact hpass _ (hpass _ (forall_listed
    (Compilation.sound_createDebugData (b.environment options) _)))

end Blueprint

/-- The same with comments or without. -/
def CompileOptions.withComments (options : CompileOptions) (comments : Bool) : CompileOptions :=
  { options with emitNodeComments := comments }

namespace Compilation

/-- Functions that are compiled from the same code are finished alike. -/
theorem exists_uncommented_postcompile {c : Compilation} {contexts : List FunctionContext}
    (h : List.Forall₂ (fun x y ↦ x.Annotates y ∧ x.CodeToPins) c.contexts contexts) :
    ∃ contexts', (c.withContexts contexts).runPass (fun _ ↦ true) (·.postcompile) =
        (c.runPass (fun _ ↦ true) (·.postcompile)).withContexts contexts' ∧
      List.Forall₂ FunctionContext.Uncomments
        (c.runPass (fun _ ↦ true) (·.postcompile)).contexts contexts' := by
  refine runPass_alike (·.postcompile) (·.postcompile) (fun s d hd ↦ ?_) h
  obtain ⟨hsame, hpins⟩ := hd
  obtain ⟨table, rfl⟩ := hsame.frame
  have hstates : s.Annotates { s with ctx := s.ctx.withCode table } := ⟨⟨table, rfl⟩, hsame.code⟩
  obtain ⟨hfinished, heq⟩ := hstates.postcompile hpins
  exact ⟨_, heq, hfinished⟩

/-- Prepared functions are compiled to the same code but for comments. -/
theorem exists_annotated_compile (env : CompileEnv) {c : Compilation}
    (h : ∀ d ∈ c.contexts, d.nodeStatements = [] ∧ d.flags.createDebugData = true) :
    ∃ contexts, c.runPass (fun _ ↦ true) (·.compile (env.withComments false)) =
        (c.runPass (fun _ ↦ true) (·.compile (env.withComments true))).withContexts contexts ∧
      List.Forall₂ (fun x y ↦ x.Annotates y ∧ x.CodeToPins)
        (c.runPass (fun _ ↦ true) (·.compile (env.withComments true))).contexts contexts := by
  have hprepared : List.Forall₂
      (fun x y ↦ y = x ∧ x.nodeStatements = [] ∧ x.flags.createDebugData = true)
      c.contexts c.contexts := List.forall₂_same.2 fun d hd ↦ ⟨rfl, h d hd⟩
  refine runPass_alike (·.compile (env.withComments true)) (·.compile (env.withComments false))
    (fun s d hd ↦ ?_) hprepared
  obtain ⟨rfl, hempty, hdebug⟩ := hd
  have hsame := (FunctionState.Annotates.refl hempty).compile env hdebug
  obtain ⟨table, htable⟩ := hsame.frame
  refine ⟨(s.compile (env.withComments false)).ctx, ?_, hsame.ctx,
    s.codeToPins_compile _ (FunctionContext.allCode_of_nodeStatements hempty)⟩
  change s.compile (env.withComments false) = _
  rw [htable]
  rfl

end Compilation

namespace Blueprint

variable (b : Blueprint) (options : CompileOptions) (suffix : Bool)

/-- After the passes, the functions differ in their comments only. -/
theorem exists_uncommented_passed : ∃ contexts,
    b.passed (options.withComments false) suffix =
        (b.passed (options.withComments true) suffix).withContexts contexts ∧
      List.Forall₂ FunctionContext.Uncomments
        (b.passed (options.withComments true) suffix).contexts contexts := by
  have hpassed (comments : Bool) : b.passed (options.withComments comments) suffix =
      ((b.precompiled options suffix).runPass (fun _ ↦ true)
        (·.compile ((b.environment options).withComments comments))).runPass (fun _ ↦ true)
          (·.postcompile) := by
    have hsame : b.precompiled (options.withComments comments) suffix =
        b.precompiled options suffix := b.precompiled_congr suffix rfl
    rw [← hsame]
    rfl
  obtain ⟨compiled, hcompiled, hannotated⟩ :=
    Compilation.exists_annotated_compile (b.environment options) fun d hd ↦
      ⟨b.nodeStatements_precompiled options suffix d hd,
        b.createDebugData_precompiled options suffix d hd⟩
  rw [hpassed, hpassed, hcompiled]
  exact Compilation.exists_uncommented_postcompile hannotated

end Blueprint

/-! ## Labels -/

theorem find?_of_forall₂ {α β : Type} {R : α → β → Prop} {p : α → Bool} {q : β → Bool}
    (hR : ∀ a b, R a b → q b = p a) {l : List α} {l' : List β} (h : List.Forall₂ R l l') :
    Option.Rel R (l.find? p) (l'.find? q) := by
  induction h with
  | nil => exact .none
  | @cons a b l l' hab _ ih =>
    rw [List.find?_cons, List.find?_cons, hR a b hab]
    cases p a with
    | true => exact .some hab
    | false => exact ih

namespace FunctionContext.Uncomments

variable {c d : FunctionContext} (h : c.Uncomments d)
include h

theorem sameEntry : FunctionState.SameEntry c d := by
  obtain ⟨table, code, labels, rfl⟩ := h.frame
  exact ⟨⟨rfl, rfl, rfl, rfl⟩, rfl, rfl⟩

theorem isEventGraph : d.isEventGraph = c.isEventGraph :=
  congrArg ContextFlags.eventGraph h.sameEntry.flags

end FunctionContext.Uncomments

namespace Compilation

/-- The code of the event graph. -/
def eventCode (c : Compilation) : List Statement :=
  ((c.contexts.find? (·.isEventGraph)).map (·.statements)).getD []

/-- Nodes of the event graph begin at indices that are lower by the number of comments before. -/
theorem lookup_eventLabels {c : Compilation} {contexts : List FunctionContext}
    (h : List.Forall₂ FunctionContext.Uncomments c.contexts contexts) (n : NodeId) :
    (c.withContexts contexts).eventLabels.lookup n =
      (c.eventLabels.lookup n).map (renumber Statement.isComment c.eventCode) := by
  have hfind := find?_of_forall₂ (p := (·.isEventGraph)) (q := (·.isEventGraph))
    (fun _ _ h ↦ h.isEventGraph) h
  unfold eventLabels eventCode withContexts
  dsimp only
  generalize c.contexts.find? (·.isEventGraph) = u at hfind
  generalize contexts.find? (·.isEventGraph) = v at hfind
  cases hfind with
  | none => rfl
  | some hsame => exact hsame.labels n

/-- Stubs keep the labels that they are told. -/
theorem eventLabels_of_contexts {c d : Compilation}
    (h : d.contexts = c.contexts.map (patchStub c.eventLabels)) :
    d.eventLabels = c.eventLabels := by
  have hkind : FunctionContext.isEventGraph ∘ patchStub c.eventLabels =
      FunctionContext.isEventGraph :=
    funext fun x ↦ congrArg ContextFlags.eventGraph (x.sameHeader_patchStub _).flags
  have hlabels : FunctionContext.nodeLabels ∘ patchStub c.eventLabels =
      FunctionContext.nodeLabels := funext fun x ↦ by
    obtain ⟨g, terms, heq⟩ := exists_patchStub_eq x c.eventLabels
    rw [Function.comp_apply, heq]
  conv_lhs => rw [eventLabels, h, List.find?_map]
  rw [hkind, Option.map_map, hlabels, eventLabels]

/-! ## The class -/

/-- Two functions that a class is finished from alike. -/
structure BoundAlike (x y : FunctionContext) : Prop extends FunctionState.SameHeader x y where
  token : y.graph.token = x.graph.token

theorem token_patchStub (labels : List (NodeId × Nat)) (c : FunctionContext) :
    (patchStub labels c).graph.token = c.graph.token := by
  unfold patchStub
  split
  · rfl
  · split
    · rfl
    · unfold enterAt
      split
      · rfl
      · dsimp only
        split <;> rfl

theorem finishClass_withContexts {env env' : CompileEnv}
    (henv : env'.options.isRegeneratingOnLoad = env.options.isRegeneratingOnLoad)
    (old : Option DefaultObject) {c : Compilation} {contexts : List FunctionContext}
    (h : List.Forall₂ BoundAlike c.contexts contexts) :
    (c.withContexts contexts).finishClass env' old =
      (c.finishClass env old).withContexts contexts := by
  have hbind {rest rest' : List FunctionContext} (h : List.Forall₂ BoundAlike rest rest')
      (d : Compilation) : rest'.foldl bindDelegate (d.withContexts contexts) =
        (rest.foldl bindDelegate d).withContexts contexts := by
    induction h generalizing d with
    | nil => rfl
    | @cons x y _ _ hxy _ ih =>
      have hstep : bindDelegate (d.withContexts contexts) y =
          (bindDelegate d x).withContexts contexts := by
        unfold bindDelegate withContexts
        rw [hxy.delegateSignatureName, hxy.functionName, hxy.token]
        cases x.delegateSignatureName with
        | none => rfl
        | some delegate =>
          dsimp only
          split <;> rfl
      rw [List.foldl_cons, List.foldl_cons, hstep]
      exact ih _
  unfold finishClass
  dsimp only
  have hcontexts : (c.withContexts contexts).contexts = contexts := rfl
  rw [hcontexts, hbind h, henv]
  rfl

end Compilation

/-! ## Scripts of a class -/

namespace Class

/-- The class with other scripts, each made of the name of the function and its script. -/
def mapScripts (c : Class) (f : String → Script → Script) : Class :=
  { c with own.functions := c.own.functions.map fun g ↦ { g with script := f g.name g.script } }

theorem mapScripts_same (c : Class) : c.mapScripts (fun _ script ↦ script) = c := by
  obtain ⟨own, parent, interfaces⟩ := c
  unfold mapScripts
  congr 1
  exact congrArg (fun functions ↦ { own with functions }) (List.map_id own.functions)

theorem mapScripts_mapScripts (c : Class) (f f' : String → Script → Script) :
    (c.mapScripts f).mapScripts f' = c.mapScripts fun name script ↦ f' name (f name script) := by
  unfold mapScripts
  rw [List.map_map]
  rfl

theorem mapScripts_congr {c : Class} {f f' : String → Script → Script}
    (h : ∀ g ∈ c.own.functions, f g.name g.script = f' g.name g.script) :
    c.mapScripts f = c.mapScripts f' := by
  unfold mapScripts
  rw [List.map_congr_left fun g hg ↦ by rw [h g hg]]

theorem functionNames_mapScripts (c : Class) (f : String → Script → Script) :
    (c.mapScripts f).functionNames = c.functionNames := by
  unfold functionNames mapScripts
  rw [List.map_map]
  rfl

/-- Where the names of functions differ, all get the script of the context of their name. -/
theorem generateCode_eq_mapScripts {c : Class} (hnodup : c.functionNames.Nodup)
    {contexts : List FunctionContext} (hcontexts : (contexts.map (·.functionName)).Nodup) :
    c.generateCode contexts false = c.mapScripts fun name script ↦
      ((contexts.find? (·.functionName == name)).map (·.script false)).getD script := by
  rw [generateCode_eq]
  induction contexts generalizing c with
  | nil =>
    exact (mapScripts_same c).symm
  | cons ctx contexts ih =>
    obtain ⟨hfirst, hrest⟩ := List.nodup_cons.1 hcontexts
    have hset : c.setScript ctx = c.mapScripts fun name script ↦
        if name = ctx.functionName then ctx.script false else script := by
      unfold setScript modifyFunction mapScripts
      rw [modify_findIdx_eq_map hnodup]
      refine congrArg (fun functions ↦ { c with own.functions := functions })
        (List.map_congr_left fun g _ ↦ ?_)
      by_cases hname : g.name = ctx.functionName
      · simp only [hname, if_true]
      · simp only [hname, if_false]
    have hnodup' : (c.setScript ctx).functionNames.Nodup := by
      rwa [hset, functionNames_mapScripts]
    rw [List.foldl_cons, ih hnodup' hrest, hset, mapScripts_mapScripts]
    refine mapScripts_congr fun g _ ↦ ?_
    rw [List.find?_cons]
    by_cases hname : g.name = ctx.functionName
    · have hnone : contexts.find? (·.functionName == g.name) = none := by
        refine List.find?_eq_none.2 fun x hx heq ↦ hfirst ?_
        exact List.mem_map.2 ⟨x, hx, (eq_of_beq heq).trans hname⟩
      rw [hnone, if_pos hname, beq_iff_eq.2 hname.symm]
      rfl
    · rw [if_neg hname, beq_eq_false_iff_ne.2 (Ne.symm hname)]

theorem find?_functionName {contexts : List FunctionContext}
    (hnodup : (contexts.map (·.functionName)).Nodup) {ctx : FunctionContext} (h : ctx ∈ contexts) :
    contexts.find? (·.functionName == ctx.functionName) = some ctx := by
  have hsome : (contexts.find? (·.functionName == ctx.functionName)).isSome :=
    List.find?_isSome.2 ⟨ctx, h, beq_self_eq_true _⟩
  obtain ⟨x, hx⟩ := Option.isSome_iff_exists.1 hsome
  have hname : (x.functionName == ctx.functionName) = true :=
    List.find?_some (p := fun c : FunctionContext ↦ c.functionName == ctx.functionName) hx
  rw [hx]
  exact congrArg some (List.inj_on_of_nodup_map hnodup (List.mem_of_find?_eq_some hx) h
    (eq_of_beq hname))

/-- Other contexts change the scripts as the scripts of the contexts differ. -/
theorem generateCode_of_forall₂ {c : Class} {contexts contexts' : List FunctionContext}
    (hcovered : Compilation.Covered contexts c)
    (hnodup : (contexts.map (·.functionName)).Nodup) {f : String → Script → Script}
    (h : List.Forall₂ (fun x y ↦ y.functionName = x.functionName ∧
      y.script false = f x.functionName (x.script false)) contexts contexts') :
    c.generateCode contexts' false = (c.generateCode contexts false).mapScripts f := by
  have hnames : contexts'.map (·.functionName) = contexts.map (·.functionName) := by
    rw [← List.forall₂_eq_eq_eq, List.forall₂_map_left_iff, List.forall₂_map_right_iff]
    exact h.flip.imp fun _ _ hxy ↦ hxy.1
  rw [generateCode_eq_mapScripts hcovered.nodup (hnames ▸ hnodup),
    generateCode_eq_mapScripts hcovered.nodup hnodup, mapScripts_mapScripts]
  refine mapScripts_congr fun g hg ↦ ?_
  obtain ⟨x, hx, hname⟩ := List.mem_map.1 (hcovered.subset g.name (List.mem_map_of_mem hg))
  have hfind := find?_of_forall₂ (p := (·.functionName == g.name)) (q := (·.functionName == g.name))
    (fun _ _ hxy ↦ by rw [hxy.1]) h
  rw [← hname, find?_functionName hnodup hx] at hfind
  rw [← hname, find?_functionName hnodup hx]
  generalize contexts'.find? (·.functionName == x.functionName) = y at hfind
  cases hfind with
  | some hxy => exact hxy.2

/-- The script of a function, or nothing if there is no such function. -/
def scriptOf (c : Class) (name : String) : Script :=
  ((c.findOwnFunction? name).map (·.script)).getD []

end Class

/-! ## What comments change -/

/-- Where the function of an event enters the event graph; none if the function is of no event. -/
def Compilation.entryIndex? (c : Compilation) (name : String) : Option Nat :=
  ((c.contexts.find? (·.functionName == name)).bind (·.stub)).map fun link ↦
    (c.eventLabels.lookup link.sourceEvent).getD 0

/-- The script without its comments.  If it enters the function `main` at an index, it does so
where that is in the script of `main` without comments. -/
def Script.uncommented (script : Script) (main : String) (code : Script) (entry : Option Nat) :
    Script :=
  match entry with
  | none => script.withoutComments
  | some k => script.withoutComments.enter main (renumber ScriptOp.isComment code k)

namespace FunctionContext

variable {main : String} {labels : List (NodeId × Nat)} {c d : FunctionContext}

/-- A function that was told where to enter differs in its comments and in that. -/
theorem Uncomments.script_patchStub (h : c.Uncomments d) (hc : c.Confined)
    (hstub : ∀ link, c.stub = some link → c.Passes main link.ubergraphCall)
    {labels' : List (NodeId × Nat)} {code : Script}
    (hlabels : ∀ n, (labels'.lookup n).getD 0 =
      renumber ScriptOp.isComment code ((labels.lookup n).getD 0)) :
    (Compilation.patchStub labels' d).script false =
      ((Compilation.patchStub labels c).script false).uncommented main code
        (c.stub.map fun link ↦ (labels.lookup link.sourceEvent).getD 0) := by
  have hscript := h.script hc.getLast?
  cases hlink : c.stub with
  | none =>
    rw [Compilation.patchStub_of_none hlink,
      Compilation.patchStub_of_none (h.sameEntry.stub.trans hlink)]
    exact hscript
  | some link =>
    have hpasses := hstub link hlink
    rw [hpasses.script_patchStub hlink,
      (h.passes hpasses).script_patchStub (h.sameEntry.stub.trans hlink), hscript, hlabels,
      Option.map_some, Script.uncommented, Script.withoutComments_enter, Script.enter_enter]

end FunctionContext

namespace Blueprint

variable {b : Blueprint} {options : CompileOptions} {suffix : Bool}

section Quiet

variable (hfull : options.compileType = .full)
  (hlog : (b.compile options suffix).log.numErrors = 0)
include hfull hlog

/-- Where the functions of events enter the event graph is what they were told. -/
theorem entryIndex?_compile {x : FunctionContext} (hx : x ∈ (b.passed options suffix).contexts) :
    (b.compile options suffix).entryIndex? x.functionName = x.stub.map fun link ↦
      ((b.passed options suffix).eventLabels.lookup link.sourceEvent).getD 0 := by
  have hlabels : (b.compile options suffix).eventLabels = (b.passed options suffix).eventLabels :=
    Compilation.eventLabels_of_contexts (contexts_compile hfull)
  have hname : (fun c : FunctionContext ↦ c.functionName == x.functionName) ∘
      Compilation.patchStub (b.passed options suffix).eventLabels =
        (·.functionName == x.functionName) :=
    funext fun c ↦ congrArg (· == x.functionName) (c.sameHeader_patchStub _).functionName
  rw [Compilation.entryIndex?, hlabels, contexts_compile hfull, List.find?_map, hname,
    Class.find?_functionName (nodup_passed hfull hlog) hx, Option.map_some, Option.bind_some,
    (x.sameHeader_patchStub _).stub]

/-- The function of an event passes the index on at which it enters the event graph. -/
theorem enter_of_entryIndex? {f : Function} (hf : f ∈ (b.compile options suffix).cls.own.functions)
    {k : Nat} (hk : (b.compile options suffix).entryIndex? f.name = some k) :
    f.script.enter (b.environment options).schema.ubergraphFunctionName k = f.script := by
  obtain ⟨ctx, hctx, hname, hscript⟩ := (b.confined_compile options suffix).2 f hf
  rw [contexts_compile hfull] at hctx
  obtain ⟨x, hx, rfl⟩ := List.mem_map.1 hctx
  have hskeleton : options.isSkeletonOnly = false := isSkeletonOnly_of_full (b := b) hfull
  rw [(x.sameHeader_patchStub _).functionName] at hname
  rw [← hname, entryIndex?_compile hfull hlog hx] at hk
  obtain ⟨link, hlink, rfl⟩ := Option.map_eq_some_iff.1 hk
  rw [hscript, hskeleton, (passes_of_stub hfull hlog hx hlink).script_patchStub hlink,
    Script.enter_enter]

/-- The script of the event graph is made of its code. -/
theorem renumber_eventCode (n : NodeId) :
    renumber Statement.isComment (b.passed options suffix).eventCode
        (((b.passed options suffix).eventLabels.lookup n).getD 0) =
      renumber ScriptOp.isComment ((b.compile options suffix).cls.scriptOf
        (b.environment options).schema.ubergraphFunctionName)
        (((b.passed options suffix).eventLabels.lookup n).getD 0) := by
  unfold Compilation.eventCode Compilation.eventLabels
  cases hfind : (b.passed options suffix).contexts.find? (·.isEventGraph) with
  | none => rfl
  | some u =>
    have hu := List.mem_of_find?_eq_some hfind
    have hevents : u.isEventGraph = true := List.find?_some hfind
    obtain ⟨d, hd, hheader⟩ := exists_listed hfull hlog hu
    obtain rfl := Compilation.eq_eventContext_of_isEventGraph (contexts_shaped b suffix) hd
      ((congrArg ContextFlags.eventGraph hheader.flags).symm.trans hevents)
    have hgraph := Compilation.eventGraphOf_eventContext (b.environment options) (b.shaped suffix)
    have hname := hheader.functionName.trans hgraph.functionName
    have hpatched : u ∈ (b.compile options suffix).contexts := by
      rw [contexts_compile hfull]
      exact List.mem_map.2 ⟨u, hu, Compilation.patchStub_of_none
        (hheader.stub.trans hgraph.stub) _⟩
    obtain ⟨-, f, hf, hscript⟩ := script_of_compile hfull hlog hpatched
    have hcode : (b.compile options suffix).cls.scriptOf
        (b.environment options).schema.ubergraphFunctionName =
          u.statements.map (u.lower (u.statements.length - 1)) := by
      rw [Class.scriptOf, ← hname, hf, Option.map_some, Option.getD_some, hscript]
    have hcomment : ScriptOp.isComment ∘ u.lower (u.statements.length - 1) =
        Statement.isComment := funext (u.isComment_lower _)
    rw [hcode, Option.map_some, Option.getD_some, renumber_map, hcomment]

end Quiet

variable (b options suffix) in
/-- The classes are finished alike around functions that differ in their comments. -/
theorem exists_uncommented_finished : ∃ contexts,
    (b.passed (options.withComments false) suffix).contexts = contexts ∧
    b.finished (options.withComments false) suffix =
        (b.finished (options.withComments true) suffix).withContexts
          (contexts.map (Compilation.patchStub
            (b.passed (options.withComments false) suffix).eventLabels)) ∧
      List.Forall₂ FunctionContext.Uncomments
        (b.passed (options.withComments true) suffix).contexts contexts ∧
      ∀ n, (b.passed (options.withComments false) suffix).eventLabels.lookup n =
        ((b.passed (options.withComments true) suffix).eventLabels.lookup n).map (renumber
          Statement.isComment (b.passed (options.withComments true) suffix).eventCode) := by
  obtain ⟨contexts, hpassed, huncommented⟩ := b.exists_uncommented_passed options suffix
  refine ⟨contexts, by rw [hpassed]; rfl, ?_, huncommented, fun n ↦ ?_⟩
  · have hbound : List.Forall₂ Compilation.BoundAlike
        (b.passed (options.withComments true) suffix).patchStubs.contexts
        (contexts.map (Compilation.patchStub
          (b.passed (options.withComments false) suffix).eventLabels)) := by
      rw [Compilation.contexts_patchStubs, List.forall₂_map_left_iff, List.forall₂_map_right_iff]
      refine huncommented.imp fun x y hxy ↦ ?_
      refine ⟨(x.sameHeader_patchStub _).symm.trans (hxy.sameEntry.toSameHeader.trans
        (y.sameHeader_patchStub _)), ?_⟩
      rw [Compilation.token_patchStub, Compilation.token_patchStub, hxy.sameEntry.graph]
    unfold finished
    rw [← Compilation.finishClass_withContexts rfl _ hbound, hpassed]
    rfl
  · rw [hpassed]
    exact Compilation.lookup_eventLabels huncommented n

section Full

variable (hfull : options.compileType = .full)
include hfull

/-- The same errors are reported with comments and without. -/
theorem numErrors_withComments (comments : Bool) :
    (b.compile (options.withComments comments) suffix).log.numErrors =
      (b.compile (options.withComments true) suffix).log.numErrors := by
  obtain ⟨contexts, -, hfinished, -⟩ := b.exists_uncommented_finished options suffix
  have hdeliver (comments : Bool) :
      (b.compile (options.withComments comments) suffix).log.numErrors =
        (b.finished (options.withComments comments) suffix).log.numErrors := by
    have hfull' : (options.withComments comments).compileType = .full := hfull
    rw [compile_eq suffix hfull', Compilation.numErrors_deliver]
  cases comments with
  | true => rfl
  | false =>
    rw [hdeliver, hdeliver, hfinished]
    rfl

/-- Without comments, functions enter the event graph at indices that are lower by the number of
comments before. -/
theorem lookup_withComments
    (hlog : (b.compile (options.withComments true) suffix).log.numErrors = 0) (n : NodeId) :
    ((b.passed (options.withComments false) suffix).eventLabels.lookup n).getD 0 =
      renumber ScriptOp.isComment ((b.compile (options.withComments true) suffix).cls.scriptOf
        (b.environment options).schema.ubergraphFunctionName)
        (((b.passed (options.withComments true) suffix).eventLabels.lookup n).getD 0) := by
  have hfull' : (options.withComments true).compileType = .full := hfull
  obtain ⟨contexts, -, -, -, hlookup⟩ := b.exists_uncommented_finished options suffix
  refine .trans ?_ (renumber_eventCode hfull' hlog n)
  rw [hlookup n]
  cases (b.passed (options.withComments true) suffix).eventLabels.lookup n with
  | none => rfl
  | some k => rfl

/-- The functions that the class is made of differ in their comments and in where they enter the
event graph. -/
theorem scripts_withComments
    (hlog : (b.compile (options.withComments true) suffix).log.numErrors = 0) :
    List.Forall₂ (fun x y ↦ y.functionName = x.functionName ∧ y.script false =
        (x.script false).uncommented (b.environment options).schema.ubergraphFunctionName
          ((b.compile (options.withComments true) suffix).cls.scriptOf
            (b.environment options).schema.ubergraphFunctionName)
          ((b.compile (options.withComments true) suffix).entryIndex? x.functionName))
      (b.compile (options.withComments true) suffix).contexts
      (b.compile (options.withComments false) suffix).contexts := by
  have hfull' (comments : Bool) : (options.withComments comments).compileType = .full := hfull
  obtain ⟨contexts, hpassed, -, huncommented, -⟩ := b.exists_uncommented_finished options suffix
  have hmem := (List.forall₂_and_left _ _).2 ⟨fun _ hx ↦ hx, huncommented⟩
  rw [contexts_compile (hfull' true), contexts_compile (hfull' false), hpassed,
    List.forall₂_map_left_iff, List.forall₂_map_right_iff]
  refine hmem.imp fun x y h ↦ ?_
  obtain ⟨hx, hxy⟩ := h
  have hname := (x.sameHeader_patchStub
    (b.passed (options.withComments true) suffix).eventLabels).functionName
  refine ⟨(y.sameHeader_patchStub _).functionName.trans
    (hxy.sameEntry.functionName.trans hname.symm), ?_⟩
  rw [hname, entryIndex?_compile (hfull' true) hlog hx]
  exact hxy.script_patchStub (b.confined_passed _ suffix x hx)
    (fun _ ↦ passes_of_stub (hfull' true) hlog hx) (lookup_withComments hfull hlog)

/-- Comments do not change what a Blueprint compiles to: without them the class is the same but
for scripts, and each script is that with comments after these are deleted, where every jump and
every index at which a function of an event enters the event graph is lower by the number of
comments before it in the script that it points into. -/
theorem comments_compile {comments : Bool}
    (hlog : (b.compile (options.withComments comments) suffix).log.numErrors = 0) :
    let commented := b.compile (options.withComments true) suffix
    let main := (b.environment options).schema.ubergraphFunctionName
    (b.compile (options.withComments false) suffix).cls = commented.cls.mapScripts
        (fun name script ↦
          script.uncommented main (commented.cls.scriptOf main) (commented.entryIndex? name)) ∧
      ∀ f ∈ commented.cls.own.functions, ∀ k, commented.entryIndex? f.name = some k →
        f.script.enter main k = f.script := by
  have hfull' (comments : Bool) : (options.withComments comments).compileType = .full := hfull
  have hquiet := (numErrors_withComments hfull comments).symm.trans hlog
  refine ⟨?_, fun f hf k hk ↦ enter_of_entryIndex? (hfull' true) hquiet hf hk⟩
  have hcls (comments : Bool) := (compile_keeps b suffix (hfull' comments)).2.1
  obtain ⟨_, -, hfinished, -, -⟩ := b.exists_uncommented_finished options suffix
  have hsame : (b.finished (options.withComments false) suffix).cls =
      (b.finished (options.withComments true) suffix).cls := by
    rw [hfinished]
    rfl
  have hcovered := b.covered_finished (options.withComments true) suffix
  have hnames : (b.compile (options.withComments true) suffix).contexts.map (·.functionName) =
      (b.passed (options.withComments true) suffix).contexts.map (·.functionName) := by
    rw [contexts_compile (hfull' true), List.map_map]
    exact List.map_congr_left fun x _ ↦ (x.sameHeader_patchStub _).functionName
  rw [hcls false, hsame, hcls true]
  refine Class.generateCode_of_forall₂ ⟨hcovered.nodup, ?_⟩ ?_ ?_
  · rw [hnames]
    exact hcovered.subset
  · rw [hnames]
    exact nodup_passed (hfull' true) hquiet
  · rw [← hcls true]
    exact scripts_withComments hfull hquiet

end Full

theorem comments_compile_clock :
    let c := clock.compile (CompileOptions.full.withComments true) true
    let main := (clock.environment .full).schema.ubergraphFunctionName
    CompileOptions.full.compileType = .full ∧ c.log.numErrors = 0 ∧
      (clock.compile (CompileOptions.full.withComments false) true).cls = c.cls.mapScripts
        (fun name script ↦ script.uncommented main (c.cls.scriptOf main) (c.entryIndex? name)) ∧
      ∀ f ∈ c.cls.own.functions, ∀ k, c.entryIndex? f.name = some k →
        f.script.enter main k = f.script := by
  have hfull : CompileOptions.full.compileType = .full := rfl
  have hlog : (clock.compile (CompileOptions.full.withComments true) true).log.numErrors = 0 := by
    decide +kernel
  exact ⟨hfull, hlog, comments_compile hfull hlog⟩

/-- The event is entered behind the jump, where the comment is. -/
example : (clock.compile (CompileOptions.full.withComments true) true).entryIndex? "Tick" =
    some 1 := by
  decide +kernel

end Blueprint

end VisualScript
