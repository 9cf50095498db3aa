import VisualScript.Compile.Compilation
import VisualScript.Compile.Finish
import VisualScript.Proofs.Code.Emission
import VisualScript.Proofs.Code.Inlining
import VisualScript.Proofs.Code.Steps
import VisualScript.Proofs.Compile.Preparation
import VisualScript.Proofs.Jumps.Redundant

/-!
# Passes over all functions

A pass takes the functions of a compile in turn, each on the class that those before
left.  As the class only grows, what holds of a function when the pass leaves it
still holds at the end.
-/

namespace VisualScript

/-!
## The passes over a function

A prepared function is compiled and then finished.  Neither pass touches its
terminals or takes anything from the class.
-/

/-! ### Resolved jumps -/

namespace FunctionContext

/-- Resolving jumps settles the code and where it begins. -/
theorem resolveJumps_eq (c : FunctionContext) :
    ∃ table code labels, c.resolveJumps =
      { c.withCode table with statements := code, nodeLabels := labels } := by
  obtain ⟨table, htable⟩ := dropRedundantJumps_eq c.executionList c.executionList c
  refine ⟨table, c.resolveJumps.statements, c.resolveJumps.nodeLabels, ?_⟩
  unfold resolveJumps
  dsimp only
  rw [htable]
  rfl

/-! ### Stages -/

/-- The function after its code was made. -/
inductive CompiledFrom (env : CompileEnv) (c : FunctionContext) : FunctionContext → Prop
  | stub : c.flags.interfaceStub = true → CompiledFrom env c c
  | code (table : List (NodeId × List Statement)) : c.flags.interfaceStub = false →
      (∀ m, (c.withCode table).statementsOf m =
        (c.executionList.filter (· = m)).flatMap (c.codeOfNode · env)) →
      (∀ n ∈ c.executionList, c.Compilable n env) →
      CompiledFrom env c (c.withCode table).inlinePureNodes

/-- The function after its jumps were resolved. -/
inductive FinishedFrom (c : FunctionContext) : FunctionContext → Prop
  | stub (flags : FunctionFlags) : c.flags.interfaceStub = true →
      FinishedFrom c { c with statements := [.ret], nodeLabels := [], netFlags := flags }
  | code (flags : FunctionFlags) : c.flags.interfaceStub = false →
      FinishedFrom c { c.sortForFallThrough.resolveJumps with netFlags := flags }

end FunctionContext

namespace FunctionState

/-- Compiling keeps the header, the class and the errors. -/
theorem compile_keeps (env : CompileEnv) (s : FunctionState) :
    SameHeader s.ctx (s.compile env).ctx ∧ (s.compile env).cls = s.cls ∧
      s.log.numErrors ≤ (s.compile env).log.numErrors := by
  have hemit := graphSteps_emitNodes env s.ctx.executionList s
  have hsame := hemit.sameFunction
  have hheader : SameHeader s.ctx (emitNodes env s.ctx.executionList s).ctx :=
    ⟨hsame.functionName, hsame.flags, hsame.delegateSignatureName, hsame.stub⟩
  unfold compile
  split
  · exact ⟨.refl _, rfl, Nat.le_refl _⟩
  · dsimp only
    split
    · exact ⟨hheader, hsame.cls, hemit.errors.1⟩
    · refine ⟨hheader.trans ?_, hsame.cls, hemit.errors.1⟩
      obtain ⟨table, list, heq⟩ := (emitNodes env s.ctx.executionList s).ctx.inlinePureNodes_eq
      rw [heq]
      exact ⟨rfl, rfl, rfl, rfl⟩

/-- Compiling a prepared function makes its code, unless an error is reported. -/
theorem compile_prepared (env : CompileEnv) {s : FunctionState} (hs : s.ctx.Prepared s.cls)
    (hlog : (s.compile env).log.numErrors ≤ s.log.numErrors) :
    s.ctx.CompiledFrom env (s.compile env).ctx := by
  unfold compile at hlog ⊢
  by_cases hstub : s.ctx.flags.interfaceStub = true
  · simp only [hs.failed, hstub, Bool.or_true, if_true]
    exact .stub hstub
  · have hemits := emitsAll_emitNodes env s.ctx.executionList hs.enlisted hs.settled
    obtain ⟨table, failed, log, heq⟩ := hemits.frame
    have hexact := hemits.exact
    rw [heq] at hexact
    simp only [hs.failed, Bool.false_or, hstub, if_false, heq, Bool.false_eq_true] at hlog ⊢
    have hlog' : log.numErrors ≤ s.log.numErrors := by
      split at hlog <;> exact hlog
    obtain ⟨hfailed, hcompilable, hcode⟩ := hexact hlog'
    have hfailed' : failed = false := hfailed.trans hs.failed
    rw [hfailed', if_neg (by decide)]
    have hframe : ({ s.ctx with nodeStatements := table, failed := false } : FunctionContext) =
        s.ctx.withCode table := by
      rw [← hs.failed]
      rfl
    rw [hframe]
    refine .code table (by simpa using hstub) (fun m ↦ ?_) hcompilable
    have hnone : s.ctx.statementsOf m = [] := by
      rw [FunctionContext.statementsOf, hs.uncoded]
      rfl
    have hm := hcode m
    rw [hnone, List.nil_append] at hm
    exact hm

/-! ### Finishing -/

/-- Describing a function places its frame and changes nothing else that other functions see. -/
theorem extends_describe (g : Graph) (entry : Option NodeId) (f : Function) :
    f.Extends (describe g entry f) := by
  refine f.extends_link.trans (Function.extends_of_names ?_ ?_)
  all_goals
    unfold describe
    cases entry with
    | none => rfl
    | some entry =>
      dsimp only
      unfold Function.recordDefaults
      split <;> split <;> rfl

/-- Finishing the function keeps the members of the class and takes no error back. -/
theorem finish_keeps (s : FunctionState) :
    s.cls.Extends s.finish.cls ∧ s.log.numErrors ≤ s.finish.log.numErrors ∧
      ∃ flags, s.finish.ctx = { s.ctx with netFlags := flags } := by
  unfold finish
  dsimp only
  split
  · exact ⟨.refl _, Nat.le_refl _, s.ctx.netFlags, rfl⟩
  · next f hf =>
    have hname : f.name = s.ctx.functionName := Class.name_of_findOwnFunction? hf
    have hdescribe := extends_describe s.graph s.ctx.entryPoint f
    have hmodify {f' : Function} (h : f.Extends f') :
        s.cls.Extends (s.cls.modifyFunction s.ctx.functionName fun _ ↦ f') := by
      refine Class.extends_modifyFunction (fun g hg ↦ h.1.trans hname) fun g hg ↦ ?_
      rw [hf] at hg
      exact Option.some.inj hg ▸ h
    refine ⟨?_, MessageLog.le_numErrors_pushAll _, _, rfl⟩
    split
    · exact hmodify (hdescribe.trans (Function.extends_of_names rfl rfl))
    · exact hmodify (hdescribe.trans (Function.extends_of_names rfl rfl))

/-- Finishing keeps the header, the members of the class and the errors.  A function that did
not fail is finished from its code. -/
theorem postcompile_keeps (s : FunctionState) :
    SameHeader s.ctx s.postcompile.ctx ∧ s.cls.Extends s.postcompile.cls ∧
      s.log.numErrors ≤ s.postcompile.log.numErrors ∧
      (s.ctx.failed = false → s.ctx.FinishedFrom s.postcompile.ctx) := by
  obtain ⟨hext, hlog, flags, hctx⟩ := finish_keeps { s with
    ctx := if s.ctx.failed || s.ctx.flags.interfaceStub then
        { s.ctx with statements := [.ret], nodeLabels := [] }
      else s.ctx.sortForFallThrough.resolveJumps }
  unfold postcompile
  dsimp only
  refine ⟨?_, hext, hlog, fun hfailed ↦ ?_⟩
  · rw [hctx]
    split
    · exact ⟨rfl, rfl, rfl, rfl⟩
    · obtain ⟨table, code, labels, heq⟩ := s.ctx.sortForFallThrough.resolveJumps_eq
      rw [heq]
      exact ⟨rfl, rfl, rfl, rfl⟩
  · rw [hctx]
    by_cases hstub : s.ctx.flags.interfaceStub = true
    · simp only [hstub, Bool.or_true, if_true]
      exact .stub flags hstub
    · simp only [hfailed, hstub, Bool.or_false, Bool.false_eq_true, if_false]
      exact .code flags (by simpa using hstub)

end FunctionState

namespace Compilation

/-! ## Passes in general -/

/-- The next function in a pass. -/
def advance (selected : FunctionContext → Bool) (pass : FunctionState → FunctionState)
    (c : Compilation) (ctx : FunctionContext) : Compilation :=
  if selected ctx then
    let s := pass ⟨ctx, c.log, c.cls, c.classNetNames⟩
    { c with
      cls := s.cls
      log := s.log
      classNetNames := s.classNetNames
      contexts := c.contexts ++ [s.ctx] }
  else c.addContext ctx

theorem runPass_eq (c : Compilation) (selected : FunctionContext → Bool)
    (pass : FunctionState → FunctionState) :
    c.runPass selected pass = c.contexts.foldl (advance selected pass) { c with contexts := [] } :=
  rfl

/-- Members stay, errors stay and functions stay what they are. -/
def Keeps (pass : FunctionState → FunctionState) : Prop :=
  ∀ s, FunctionState.SameHeader s.ctx (pass s).ctx ∧ s.cls.Extends (pass s).cls ∧
    s.log.numErrors ≤ (pass s).log.numErrors

section Keeps

variable (selected : FunctionContext → Bool) {pass : FunctionState → FunctionState}
  (hpass : Keeps pass) (c : Compilation)
include hpass

theorem advance_keeps (ctx : FunctionContext) :
    c.cls.Extends (c.advance selected pass ctx).cls ∧
      c.log.numErrors ≤ (c.advance selected pass ctx).log.numErrors ∧
      (c.advance selected pass ctx).contexts.map (·.functionName) =
        c.contexts.map (·.functionName) ++ [ctx.functionName] := by
  obtain ⟨hheader, hext, hlog⟩ := hpass ⟨ctx, c.log, c.cls, c.classNetNames⟩
  unfold advance
  split
  · exact ⟨hext, hlog, by simp [hheader.functionName]⟩
  · exact ⟨.refl _, Nat.le_refl _, by simp [addContext]⟩

theorem foldl_advance_keeps (rest : List FunctionContext) :
    c.cls.Extends (rest.foldl (advance selected pass) c).cls ∧
      c.log.numErrors ≤ (rest.foldl (advance selected pass) c).log.numErrors ∧
      (rest.foldl (advance selected pass) c).contexts.map (·.functionName) =
        c.contexts.map (·.functionName) ++ rest.map (·.functionName) := by
  induction rest generalizing c with
  | nil => exact ⟨.refl _, Nat.le_refl _, by simp⟩
  | cons ctx rest ih =>
    obtain ⟨hext, hlog, hnames⟩ := advance_keeps selected hpass c ctx
    obtain ⟨hext', hlog', hnames'⟩ := ih (c.advance selected pass ctx)
    refine ⟨hext.trans hext', Nat.le_trans hlog hlog', ?_⟩
    rw [List.foldl_cons, hnames', hnames, List.append_assoc]
    rfl

theorem runPass_keeps :
    c.cls.Extends (c.runPass selected pass).cls ∧
      c.log.numErrors ≤ (c.runPass selected pass).log.numErrors ∧
      (c.runPass selected pass).contexts.map (·.functionName) = c.contexts.map (·.functionName) :=
  foldl_advance_keeps selected hpass { c with contexts := [] } c.contexts

end Keeps

/-! ## Stages -/

/-- The pass takes the functions that it is for from one stage to the next and the others are
there already.  Functions that are apart stay so. -/
structure Advances (selected : FunctionContext → Bool) (pass : FunctionState → FunctionState)
    (before after : FunctionContext → Class → Prop)
    (apart : FunctionContext → FunctionContext → Prop) : Prop where
  keeps : Keeps pass
  symm {c d : FunctionContext} : apart c d → apart d c
  before_extend {c : FunctionContext} {cls cls' : Class} :
    before c cls → cls.Extends cls' → before c cls'
  after_extend {c : FunctionContext} {cls cls' : Class} :
    after c cls → cls.Extends cls' → after c cls'
  skip {c : FunctionContext} {cls : Class} : selected c = false → before c cls → after c cls
  run {s : FunctionState} : selected s.ctx = true → before s.ctx s.cls →
    (pass s).log.numErrors ≤ s.log.numErrors →
    after (pass s).ctx (pass s).cls ∧
      ∀ d, before d s.cls ∨ after d s.cls → apart s.ctx d → apart (pass s).ctx d

namespace Advances

variable {selected : FunctionContext → Bool} {pass : FunctionState → FunctionState}
  {before after : FunctionContext → Class → Prop} {apart : FunctionContext → FunctionContext → Prop}
  (h : Advances selected pass before after apart)
include h

theorem advance {c : Compilation} {ctx : FunctionContext} {rest : List FunctionContext}
    (hdone : ∀ d ∈ c.contexts, after d c.cls) (hrest : ∀ d ∈ ctx :: rest, before d c.cls)
    (hapart : (c.contexts ++ ctx :: rest).Pairwise apart)
    (hlog : (c.advance selected pass ctx).log.numErrors ≤ c.log.numErrors) :
    (∀ d ∈ (c.advance selected pass ctx).contexts, after d (c.advance selected pass ctx).cls) ∧
      (∀ d ∈ rest, before d (c.advance selected pass ctx).cls) ∧
      ((c.advance selected pass ctx).contexts ++ rest).Pairwise apart := by
  have hbefore := hrest ctx List.mem_cons_self
  unfold Compilation.advance at hlog ⊢
  by_cases hselected : selected ctx = true
  · simp only [hselected, if_true] at hlog ⊢
    let s : FunctionState := ⟨ctx, c.log, c.cls, c.classNetNames⟩
    obtain ⟨-, hext, -⟩ := h.keeps s
    obtain ⟨hafter, happart⟩ := h.run (s := s) hselected hbefore hlog
    refine ⟨fun d hd ↦ ?_, fun d hd ↦ ?_, ?_⟩
    · rcases List.mem_append.1 hd with hd | hd
      · exact h.after_extend (hdone d hd) hext
      · rw [List.mem_singleton.1 hd]
        exact hafter
    · exact h.before_extend (hrest d (List.mem_cons_of_mem _ hd)) hext
    · rw [List.append_assoc, List.singleton_append]
      rw [List.pairwise_middle h.symm] at hapart ⊢
      obtain ⟨hctx, hothers⟩ := List.pairwise_cons.1 hapart
      refine List.pairwise_cons.2 ⟨fun d hd ↦ happart d ?_ (hctx d hd), hothers⟩
      rcases List.mem_append.1 hd with hd | hd
      · exact .inr (hdone d hd)
      · exact .inl (hrest d (List.mem_cons_of_mem _ hd))
  · simp only [hselected, if_false, Bool.false_eq_true, addContext]
    refine ⟨fun d hd ↦ ?_, fun d hd ↦ hrest d (List.mem_cons_of_mem _ hd), ?_⟩
    · rcases List.mem_append.1 hd with hd | hd
      · exact hdone d hd
      · rw [List.mem_singleton.1 hd]
        exact h.skip (by simpa using hselected) hbefore
    · rwa [List.append_assoc, List.singleton_append]

theorem foldl_advance {c : Compilation} {rest : List FunctionContext}
    (hdone : ∀ d ∈ c.contexts, after d c.cls) (hrest : ∀ d ∈ rest, before d c.cls)
    (hapart : (c.contexts ++ rest).Pairwise apart)
    (hlog : (rest.foldl (Compilation.advance selected pass) c).log.numErrors ≤ c.log.numErrors) :
    (∀ d ∈ (rest.foldl (Compilation.advance selected pass) c).contexts,
        after d (rest.foldl (Compilation.advance selected pass) c).cls) ∧
      (rest.foldl (Compilation.advance selected pass) c).contexts.Pairwise apart := by
  induction rest generalizing c with
  | nil => exact ⟨hdone, by simpa using hapart⟩
  | cons ctx rest ih =>
    obtain ⟨-, hlog₁, -⟩ := advance_keeps selected h.keeps c ctx
    obtain ⟨-, hlog₂, -⟩ :=
      foldl_advance_keeps selected h.keeps (c.advance selected pass ctx) rest
    obtain ⟨hdone', hrest', hapart'⟩ :=
      h.advance hdone hrest hapart (Nat.le_trans hlog₂ hlog)
    exact ih hdone' hrest' hapart' (Nat.le_trans hlog hlog₁)

/-- Without an error, all functions reach the next stage. -/
theorem runPass {c : Compilation} (hbefore : ∀ d ∈ c.contexts, before d c.cls)
    (hapart : c.contexts.Pairwise apart)
    (hlog : (c.runPass selected pass).log.numErrors ≤ c.log.numErrors) :
    (∀ d ∈ (c.runPass selected pass).contexts, after d (c.runPass selected pass).cls) ∧
      (c.runPass selected pass).contexts.Pairwise apart :=
  h.foldl_advance (c := { c with contexts := [] }) (by simp) hbefore hapart hlog

end Advances

end Compilation

/-! ## What the passes make -/

namespace FunctionContext

/-- Functions that share neither the name nor storage on the class. -/
structure Apart (c d : FunctionContext) : Prop where
  functionName : c.functionName ≠ d.functionName
  storage : ∀ name, c.HasTerm .eventGraphLocal name → ¬ d.HasTerm .eventGraphLocal name

theorem Apart.symm {c d : FunctionContext} (h : c.Apart d) : d.Apart c :=
  ⟨h.functionName.symm, fun name hd hc ↦ h.storage name hc hd⟩

instance : Std.Symm Apart := ⟨fun _ _ ↦ Apart.symm⟩

theorem Apart.congr {c c' d : FunctionContext} (h : c.Apart d)
    (hname : c'.functionName = c.functionName) (hterms : c'.terms = c.terms) : c'.Apart d where
  functionName := hname ▸ h.functionName
  storage name hc := h.storage name (by simpa only [HasTerm, term?, hterms] using hc)

theorem Prepared.extend {c : FunctionContext} {cls cls' : Class} (h : c.Prepared cls)
    (hext : cls.Extends cls') : c.Prepared cls' where
  failed := h.failed
  enlisted := h.enlisted
  nets := h.nets
  stored := h.stored.extend hext
  settled n hn := (h.settled n hn).extend hext
  scheduled := h.scheduled
  uncoded := h.uncoded
  placed := h.placed

variable (env : CompileEnv) (origin : FunctionContext → Prop) (c : FunctionContext) (cls : Class)

/-- The function was prepared. -/
structure Ready : Prop extends Prepared c cls where
  entered : c.entryPoint.isSome
  origin : origin c

/-- The function was prepared and compiled. -/
def Compiled : Prop := ∃ c₁, Ready origin c₁ cls ∧ c₁.CompiledFrom env c

/-- The function was prepared, compiled and finished. -/
def Finished : Prop := ∃ c₁ c₂, Ready origin c₁ cls ∧ c₁.CompiledFrom env c₂ ∧ c₂.FinishedFrom c

variable {env origin c cls} {cls' : Class}

theorem Ready.extend (h : Ready origin c cls) (hext : cls.Extends cls') : Ready origin c cls' :=
  ⟨h.toPrepared.extend hext, h.entered, h.origin⟩

theorem Compiled.extend (h : Compiled env origin c cls) (hext : cls.Extends cls') :
    Compiled env origin c cls' := by
  obtain ⟨c₁, hready, hcompiled⟩ := h
  exact ⟨c₁, hready.extend hext, hcompiled⟩

theorem Finished.extend (h : Finished env origin c cls) (hext : cls.Extends cls') :
    Finished env origin c cls' := by
  obtain ⟨c₁, c₂, hready, hcompiled, hfinished⟩ := h
  exact ⟨c₁, c₂, hready.extend hext, hcompiled, hfinished⟩

theorem CompiledFrom.frame {c d : FunctionContext} (h : CompiledFrom env c d) :
    ∃ table list, d = { c.withCode table with executionList := list } := by
  cases h with
  | stub => exact ⟨c.nodeStatements, c.executionList, rfl⟩
  | code table =>
    obtain ⟨table', list, heq⟩ := (c.withCode table).inlinePureNodes_eq
    exact ⟨table', list, heq⟩

theorem FinishedFrom.frame {c d : FunctionContext} (h : FinishedFrom c d) :
    ∃ table list code labels flags, d = { c.withCode table with
      executionList := list, statements := code, nodeLabels := labels, netFlags := flags } := by
  cases h with
  | stub flags => exact ⟨c.nodeStatements, c.executionList, _, _, flags, rfl⟩
  | code flags =>
    obtain ⟨table, code, labels, heq⟩ := c.sortForFallThrough.resolveJumps_eq
    exact ⟨table, c.sortForFallThrough.executionList, code, labels, flags, by rw [heq]; rfl⟩

end FunctionContext

/-! ## The three passes -/

namespace Compilation

open FunctionContext

variable {env : CompileEnv} {source origin : FunctionContext → Prop}

/-- Only prepared functions have a place on the class that others could take. -/
def ApartIfReady (c d : FunctionContext) : Prop :=
  c.entryPoint.isSome → d.entryPoint.isSome → c.Apart d

theorem keeps_precompile (env : CompileEnv) : Keeps (·.precompile env) :=
  FunctionState.precompile_keeps env

theorem keeps_compile (env : CompileEnv) : Keeps (·.compile env) := fun s ↦ by
  obtain ⟨hheader, hcls, hlog⟩ := s.compile_keeps env
  exact ⟨hheader, hcls ▸ .refl s.cls, hlog⟩

theorem keeps_postcompile : Keeps (·.postcompile) := fun s ↦ by
  obtain ⟨hheader, hext, hlog, -⟩ := s.postcompile_keeps
  exact ⟨hheader, hext, hlog⟩

/-- A prepared function is apart from every one that was prepared before. -/
theorem apartIfReady_precompile (henv : env.HandlesAll) {s : FunctionState}
    (hs : s.ctx.Fresh) (hlog : (s.precompile env).log.numErrors ≤ s.log.numErrors)
    {d : FunctionContext} (hd : d.Fresh ∨ d.Prepared s.cls) :
    ApartIfReady (s.precompile env).ctx d := by
  intro _ hentry
  obtain ⟨-, -, hname, hstorage⟩ := FunctionState.prepared_precompile henv hs hlog
  have hd' : d.Prepared s.cls := hd.resolve_left fun hfresh ↦ by
    rw [hfresh.entryPoint] at hentry
    cases hentry
  refine ⟨fun heq ↦ ?_, fun name hterm hterm' ↦ ?_⟩
  · obtain ⟨f, hf, -⟩ := hd'.stored.frame
    rw [← heq, (s.precompile_keeps env).1.functionName, hname] at hf
    cases hf
  · have hstored := hd'.stored.onClass name hterm'
    rw [hstorage name hterm] at hstored
    cases hstored

section Precompile

/-- Where a function stands after the delegates were prepared: those that have their turn then
are ready. -/
def Half (source origin : FunctionContext → Prop) (c : FunctionContext) (cls : Class) : Prop :=
  if c.isDelegateSignature then c.Ready origin cls else c.Fresh ∧ source c

theorem Half.extend {c : FunctionContext} {cls cls' : Class} (h : Half source origin c cls)
    (hext : cls.Extends cls') : Half source origin c cls' := by
  unfold Half at h ⊢
  split
  · next hdelegate =>
    rw [if_pos hdelegate] at h
    exact h.extend hext
  · next hdelegate => rwa [if_neg hdelegate] at h

theorem fresh_or_prepared_of_half {c : FunctionContext} {cls : Class}
    (h : Half source origin c cls) : c.Fresh ∨ c.Prepared cls := by
  unfold Half at h
  split at h
  · exact .inr h.toPrepared
  · exact .inl h.1

variable (henv : env.HandlesAll)
  (horigin : ∀ s : FunctionState, s.ctx.Fresh → source s.ctx →
    (s.precompile env).log.numErrors ≤ s.log.numErrors → origin (s.precompile env).ctx)
include henv horigin

theorem ready_precompile {s : FunctionState} (hs : s.ctx.Fresh ∧ source s.ctx)
    (hlog : (s.precompile env).log.numErrors ≤ s.log.numErrors) :
    (s.precompile env).ctx.Ready origin (s.precompile env).cls := by
  obtain ⟨hprepared, hentry, -⟩ := FunctionState.prepared_precompile henv hs.1 hlog
  exact ⟨hprepared, hentry, horigin s hs.1 hs.2 hlog⟩

theorem advances_delegates : Advances (·.isDelegateSignature) (·.precompile env)
    (fun c _ ↦ c.Fresh ∧ source c) (Half source origin) ApartIfReady where
  keeps := keeps_precompile env
  symm h hd hc := (h hc hd).symm
  before_extend h _ := h
  after_extend h hext := h.extend hext
  skip hselected h := by
    rwa [Half, if_neg (by simpa using hselected)]
  run {s} hselected hs hlog := by
    have hheader := (s.precompile_keeps env).1
    have hdelegate : (s.precompile env).ctx.isDelegateSignature = true := by
      rw [isDelegateSignature, hheader.delegateSignatureName]
      exact hselected
    refine ⟨?_, fun d hd _ ↦ apartIfReady_precompile henv hs.1 hlog ?_⟩
    · rw [Half, if_pos hdelegate]
      exact ready_precompile henv horigin hs hlog
    · exact hd.elim (fun h ↦ .inl h.1) fresh_or_prepared_of_half

theorem advances_others : Advances (!·.isDelegateSignature) (·.precompile env)
    (Half source origin) (Ready origin) ApartIfReady where
  keeps := keeps_precompile env
  symm h hd hc := (h hc hd).symm
  before_extend h hext := h.extend hext
  after_extend h hext := h.extend hext
  skip hselected h := by
    rwa [Half, if_pos (by simpa using hselected)] at h
  run {s} hselected hs hlog := by
    rw [Half, if_neg (by simpa using hselected)] at hs
    refine ⟨ready_precompile henv horigin hs hlog, fun d hd _ ↦ ?_⟩
    refine apartIfReady_precompile henv hs.1 hlog ?_
    exact hd.elim fresh_or_prepared_of_half fun h ↦ .inr h.toPrepared

/-- Without an error, preparation makes every function ready and keeps them apart. -/
theorem ready_of_precompile {c : Compilation} (hc : ∀ d ∈ c.contexts, d.Fresh ∧ source d)
    (hlog : (c.precompile env).log.numErrors ≤ c.log.numErrors) :
    (∀ d ∈ (c.precompile env).contexts, d.Ready origin (c.precompile env).cls) ∧
      (c.precompile env).contexts.Pairwise Apart := by
  obtain ⟨-, hlog₁, -⟩ := runPass_keeps (·.isDelegateSignature)
    (keeps_precompile env) c
  obtain ⟨-, hlog₂, -⟩ := runPass_keeps (!·.isDelegateSignature)
    (keeps_precompile env) (c.runPass (·.isDelegateSignature) (·.precompile env))
  have hapart : c.contexts.Pairwise ApartIfReady := by
    refine List.pairwise_of_forall_mem_list fun d hd e he hentry ↦ ?_
    rw [(hc d hd).1.entryPoint] at hentry
    cases hentry
  obtain ⟨hhalf, hapart'⟩ := (advances_delegates henv horigin).runPass hc hapart
    (Nat.le_trans hlog₂ hlog)
  obtain ⟨hready, hapart''⟩ := (advances_others henv horigin).runPass hhalf hapart'
    (Nat.le_trans hlog hlog₁)
  refine ⟨hready, hapart''.imp_of_mem fun hd he happart ↦ ?_⟩
  exact happart (hready _ hd).entered (hready _ he).entered

end Precompile

theorem advances_compile : Advances (fun _ ↦ true) (·.compile env) (Ready origin)
    (Compiled env origin) Apart where
  keeps := keeps_compile env
  symm := Apart.symm
  before_extend h hext := h.extend hext
  after_extend h hext := h.extend hext
  skip h := by cases h
  run {s} _ hs hlog := by
    have hcompiled := FunctionState.compile_prepared env hs.toPrepared hlog
    obtain ⟨table, list, heq⟩ := hcompiled.frame
    refine ⟨⟨s.ctx, ?_, hcompiled⟩, fun d _ hd ↦ hd.congr ?_ ?_⟩
    · rw [(s.compile_keeps env).2.1]
      exact hs
    · rw [heq]
      rfl
    · rw [heq]
      rfl

theorem advances_postcompile : Advances (fun _ ↦ true) (·.postcompile) (Compiled env origin)
    (Finished env origin) Apart where
  keeps := keeps_postcompile
  symm := Apart.symm
  before_extend h hext := h.extend hext
  after_extend h hext := h.extend hext
  skip h := by cases h
  run {s} _ hs hlog := by
    obtain ⟨c₁, hready, hcompiled⟩ := hs
    obtain ⟨-, hext, -, hfinish⟩ := s.postcompile_keeps
    obtain ⟨table, list, heq⟩ := hcompiled.frame
    have hfinished := hfinish (by rw [heq]; exact hready.failed)
    obtain ⟨table', list', code, labels, flags, heq'⟩ := hfinished.frame
    refine ⟨⟨c₁, s.ctx, hready.extend hext, hcompiled, hfinished⟩, fun d _ hd ↦ hd.congr ?_ ?_⟩
    · rw [heq']
      rfl
    · rw [heq']
      rfl

/-- The functions after the three passes, before stubs enter the event graph. -/
def afterPasses (env : CompileEnv) (c : Compilation) : Compilation :=
  ((c.precompile env).runPass (fun _ ↦ true) (·.compile env)).runPass (fun _ ↦ true) (·.postcompile)

theorem afterPasses_keeps (env : CompileEnv) (c : Compilation) :
    c.cls.Extends (c.afterPasses env).cls ∧
      c.log.numErrors ≤ (c.afterPasses env).log.numErrors ∧
      (c.afterPasses env).contexts.map (·.functionName) = c.contexts.map (·.functionName) := by
  have hdelegates := runPass_keeps (·.isDelegateSignature) (keeps_precompile env) c
  have hothers := runPass_keeps (!·.isDelegateSignature) (keeps_precompile env)
    (c.runPass (·.isDelegateSignature) (·.precompile env))
  have hcompile := runPass_keeps (fun _ ↦ true) (keeps_compile env) (c.precompile env)
  have hpost := runPass_keeps (fun _ ↦ true) keeps_postcompile
    ((c.precompile env).runPass (fun _ ↦ true) (·.compile env))
  refine ⟨?_, ?_, ?_⟩
  · exact hdelegates.1.trans (hothers.1.trans (hcompile.1.trans hpost.1))
  · exact Nat.le_trans hdelegates.2.1
      (Nat.le_trans hothers.2.1 (Nat.le_trans hcompile.2.1 hpost.2.1))
  · exact hpost.2.2.trans (hcompile.2.2.trans (hothers.2.2.trans hdelegates.2.2))

/-- Without an error, compiling and finishing take every function that is ready to its end. -/
theorem finished_of_ready {c : Compilation} (hready : ∀ d ∈ c.contexts, d.Ready origin c.cls)
    (hapart : c.contexts.Pairwise Apart)
    (hlog : ((c.runPass (fun _ ↦ true) (·.compile env)).runPass (fun _ ↦ true)
      (·.postcompile)).log.numErrors ≤ c.log.numErrors) :
    (∀ d ∈ ((c.runPass (fun _ ↦ true) (·.compile env)).runPass (fun _ ↦ true)
        (·.postcompile)).contexts, d.Finished env origin
          ((c.runPass (fun _ ↦ true) (·.compile env)).runPass (fun _ ↦ true) (·.postcompile)).cls) ∧
      ((c.runPass (fun _ ↦ true) (·.compile env)).runPass (fun _ ↦ true)
        (·.postcompile)).contexts.Pairwise Apart := by
  obtain ⟨-, hcompile, -⟩ := runPass_keeps (fun _ ↦ true) (keeps_compile env) c
  obtain ⟨-, hpost, -⟩ := runPass_keeps (fun _ ↦ true) keeps_postcompile
    (c.runPass (fun _ ↦ true) (·.compile env))
  obtain ⟨hcompiled, hapart'⟩ := advances_compile.runPass hready hapart (Nat.le_trans hpost hlog)
  exact advances_postcompile.runPass hcompiled hapart' (Nat.le_trans hlog hcompile)

/-- Preparation and what follows it report no more errors than all passes do. -/
theorem afterPasses_quiet {c : Compilation}
    (hlog : (c.afterPasses env).log.numErrors ≤ c.log.numErrors) :
    (c.precompile env).log.numErrors ≤ c.log.numErrors ∧
      (c.afterPasses env).log.numErrors ≤ (c.precompile env).log.numErrors := by
  have hdelegates := runPass_keeps (·.isDelegateSignature) (keeps_precompile env) c
  have hothers := runPass_keeps (!·.isDelegateSignature) (keeps_precompile env)
    (c.runPass (·.isDelegateSignature) (·.precompile env))
  have hcompile := runPass_keeps (fun _ ↦ true) (keeps_compile env) (c.precompile env)
  have hpost := runPass_keeps (fun _ ↦ true) keeps_postcompile
    ((c.precompile env).runPass (fun _ ↦ true) (·.compile env))
  exact ⟨Nat.le_trans (Nat.le_trans hcompile.2.1 hpost.2.1) hlog,
    Nat.le_trans hlog (Nat.le_trans hdelegates.2.1 hothers.2.1)⟩

/-- Without an error, the passes finish every function and keep them apart. -/
theorem finished_of_afterPasses (henv : env.HandlesAll)
    (horigin : ∀ s : FunctionState, s.ctx.Fresh → source s.ctx →
      (s.precompile env).log.numErrors ≤ s.log.numErrors → origin (s.precompile env).ctx)
    {c : Compilation} (hc : ∀ d ∈ c.contexts, d.Fresh ∧ source d)
    (hlog : (c.afterPasses env).log.numErrors ≤ c.log.numErrors) :
    (∀ d ∈ (c.afterPasses env).contexts, d.Finished env
        (fun e ↦ origin e ∧ e ∈ (c.precompile env).contexts) (c.afterPasses env).cls) ∧
      (c.afterPasses env).contexts.Pairwise Apart := by
  obtain ⟨hbefore, hafter⟩ := afterPasses_quiet hlog
  obtain ⟨hready, hapart⟩ := ready_of_precompile henv horigin hc hbefore
  refine finished_of_ready (fun d hd ↦ ?_) hapart hafter
  exact { toPrepared := (hready d hd).toPrepared, entered := (hready d hd).entered,
          origin := ⟨(hready d hd).origin, hd⟩ }

end Compilation

end VisualScript
