import VisualScript.Compile.Compilation
import VisualScript.Proofs.Compile.Functions
import VisualScript.Proofs.Compile.Preparation

/-!
# Delivering the class

After the functions are finished, stubs learn where they enter the event graph, and
the class is laid out and given its scripts.  None of this touches storage.
-/

/-!
## Listing the functions

Every function of a compile begins as a graph with a name, and nothing has worked
on it yet.
-/

namespace VisualScript.Compilation

open FunctionContext

/-- A function as it is listed: a new one with a header. -/
def listed (c : Compilation) (name : String) (g : Graph) (flags : ContextFlags)
    (delegate : Option String) (stub : Option StubLink) : FunctionContext :=
  { c.newContext name g with flags, delegateSignatureName := delegate, stub }

/-- A function that is listed is fresh. -/
theorem fresh_listed (c : Compilation) (name : String) (g : Graph) (flags : ContextFlags)
    (delegate : Option String) (stub : Option StubLink) :
    (c.listed name g flags delegate stub).Fresh where
  terms := rfl
  lists kind := by cases kind <;> rfl
  netMap := rfl
  nodeStatements := rfl
  failed := rfl
  entryPoint := rfl

/-- A property of functions that follows from where their graphs come from. -/
structure Sound (env : CompileEnv) (b : Blueprint) (P : FunctionContext → Prop) : Prop where
  eventGraph (c : Compilation) (name : String) (g : Graph) (flags : ContextFlags) :
    flags.eventGraph = true → flags.createDebugData = true → P (c.listed name g flags none none)
  stub (c : Compilation) (ubergraph : Graph) (event : NodeId) (data : EventData) (s : EventStub)
    (flags : ContextFlags) : ubergraph.kind? event = some (.event data) →
    flags.eventGraph = false → flags.interfaceStub = false → flags.createDebugData = true →
    (EventStub.build ubergraph event env.schema c.cls c.classNetNames c.log).1 = some s →
      P (c.listed data.function s.graph flags none (some ⟨event, s.call⟩))
  graph (c : Compilation) (name : String) (g : Graph) (flags : ContextFlags)
    (delegate : Option String) : flags.createDebugData = true → c.blueprint = b →
      g ∈ b.allGraphs → P (c.listed name (c.expand env g).1 flags delegate none)

section Listing

variable {env : CompileEnv} {P : FunctionContext → Prop}

/-- The functions so far are of the Blueprint and have the property. -/
def Lists (b : Blueprint) (P : FunctionContext → Prop) (c : Compilation) : Prop :=
  c.blueprint = b ∧ ∀ d ∈ c.contexts, P d

variable {b : Blueprint} {c : Compilation}

theorem Lists.addContext (h : Lists b P c) {ctx : FunctionContext} (hctx : P ctx) :
    Lists b P (c.addContext ctx) := by
  refine ⟨h.1, fun d hd ↦ ?_⟩
  rcases List.mem_append.1 hd with hd | hd
  · exact h.2 d hd
  · rwa [List.mem_singleton.1 hd]

theorem Lists.foldl {α : Type} {f : Compilation → α → Compilation} {l : List α}
    (hf : ∀ c, ∀ a ∈ l, Lists b P c → Lists b P (f c a)) (h : Lists b P c) :
    Lists b P (l.foldl f c) := by
  induction l generalizing c with
  | nil => exact h
  | cons a l ih =>
    refine ih (fun c a ha ↦ hf c a (List.mem_cons_of_mem _ ha)) ?_
    exact hf c a List.mem_cons_self h

theorem Lists.addStub (hP : Sound env b P) (h : Lists b P c) (g : Graph) (event : NodeId) :
    Lists b P (c.addStub env g event) := by
  unfold Compilation.addStub
  split
  · next data hkind =>
    dsimp only
    split
    · exact h
    · next stub hstub =>
      exact Lists.addContext h (hP.stub c g event data stub _ hkind rfl rfl rfl hstub)
  · exact h

theorem Lists.addEventGraph (hP : Sound env b P) (h : Lists b P c) :
    Lists b P (c.addEventGraph env) := by
  refine Lists.foldl (fun c event _ hc ↦ hc.addStub hP _ event) ?_
  exact Lists.addContext h (hP.eventGraph _ _ _ _ rfl rfl)

/-- The functions that are listed have every sound property. -/
theorem Lists.addFunctions (hP : Sound env b P) (h : Lists b P c) :
    Lists b P (c.addFunctions env) := by
  have hevents : Lists b P (if c.blueprint.blueprintType.supportsEventGraphs &&
      !c.blueprint.ubergraphPages.isEmpty then c.addEventGraph env else c) := by
    split
    · exact h.addEventGraph hP
    · exact h
  obtain rfl := h.1
  have hall {g : Graph} (hg : g ∈ c.blueprint.functionGraphs ∨
      g ∈ c.blueprint.delegateSignatureGraphs ∨
      g ∈ c.blueprint.implementedInterfaces.flatMap (·.graphs)) : g ∈ c.blueprint.allGraphs := by
    simp only [Blueprint.allGraphs, List.mem_append]
    rcases hg with hg | hg | hg
    · exact .inl (.inl (.inl (.inr hg)))
    · exact .inl (.inl (.inr hg))
    · exact .inr hg
  refine Lists.foldl (fun c' g hg hc ↦ ?_) (Lists.foldl (fun c' g hg hc ↦ ?_)
    (Lists.foldl (fun c' g hg hc ↦ ?_) hevents))
  · exact Lists.addContext hc (hP.graph c' _ g _ none rfl hc.1 (hall (.inr (.inr hg))))
  · exact Lists.addContext hc (hP.graph c' _ g _ (some g.name) rfl hc.1 (hall (.inr (.inl hg))))
  · exact Lists.addContext hc (hP.graph c' _ g _ none rfl hc.1 (hall (.inl hg)))

theorem sound_fresh (env : CompileEnv) (b : Blueprint) : Sound env b Fresh where
  eventGraph _ _ _ _ _ _ := fresh_listed ..
  stub _ _ _ _ _ _ _ _ _ _ _ := fresh_listed ..
  graph _ _ _ _ _ _ _ _ := fresh_listed ..

theorem sound_true (env : CompileEnv) (b : Blueprint) : Sound env b fun _ ↦ True where
  eventGraph _ _ _ _ _ _ := trivial
  stub _ _ _ _ _ _ _ _ _ _ _ := trivial
  graph _ _ _ _ _ _ _ _ := trivial

/-- Every function that is listed marks its code for the debugger. -/
theorem sound_createDebugData (env : CompileEnv) (b : Blueprint) :
    Sound env b (·.flags.createDebugData = true) where
  eventGraph _ _ _ _ _ h := h
  stub _ _ _ _ _ _ _ _ _ h _ := h
  graph _ _ _ _ _ h _ _ := h

end Listing

end VisualScript.Compilation

namespace VisualScript

/-! ## Entering the event graph -/

namespace FunctionContext

/-- The function differs in literals and in defaults of pins only. -/
structure SameStorage (c d : FunctionContext) : Prop where
  functionName : d.functionName = c.functionName
  kinds : d.graph.kind? = c.graph.kind?
  terms (t : TermId) : d.term? t = c.term? t ∨
    ∃ old new, c.term? t = some old ∧ d.term? t = some new ∧ old.kind = .literal ∧
      new.kind = .literal

namespace SameStorage

theorem refl (c : FunctionContext) : c.SameStorage c := ⟨rfl, rfl, fun _ ↦ .inl rfl⟩

variable {c d : FunctionContext} (h : c.SameStorage d)
include h

/-- A terminal that is no literal is the same as before. -/
theorem term?_of_ne {t : TermId} {term : Terminal} (hd : d.term? t = some term)
    (hkind : term.kind ≠ .literal) : c.term? t = some term := by
  rcases h.terms t with hsame | ⟨old, new, -, hnew, -, hliteral⟩
  · rw [← hsame, hd]
  · cases hd.symm.trans hnew
    exact absurd hliteral hkind

theorem hasTerm_iff {name : String} :
    d.HasTerm .eventGraphLocal name ↔ c.HasTerm .eventGraphLocal name := by
  constructor
  · rintro ⟨t, term, hterm, hkind, hname⟩
    exact ⟨t, term, h.term?_of_ne hterm (by rw [hkind]; decide), hkind, hname⟩
  · rintro ⟨t, term, hterm, hkind, hname⟩
    rcases h.terms t with hsame | ⟨old, new, hold, -, hliteral, -⟩
    · exact ⟨t, term, hsame.trans hterm, hkind, hname⟩
    · cases hold.symm.trans hterm
      exact absurd (hkind.symm.trans hliteral) (by decide)

theorem namesExplicitly {name : String} :
    d.graph.NamesExplicitly name ↔ c.graph.NamesExplicitly name := by
  simp only [Graph.NamesExplicitly, h.kinds]

theorem stored {cls : Class} (hc : c.Stored cls) : d.Stored cls := by
  have hframe {t : TermId} {term : Terminal} (hterm : d.term? t = some term)
      (hlocal : term.isLocal = true) : c.term? t = some term := by
    refine h.term?_of_ne hterm fun hkind ↦ ?_
    simp [Terminal.isLocal, hkind] at hlocal
  have hclass {t : TermId} {term : Terminal} (hterm : d.term? t = some term)
      (hkind : term.kind = .eventGraphLocal) : c.term? t = some term :=
    h.term?_of_ne hterm (by rw [hkind]; decide)
  refine ⟨?_, fun name hname ↦ hc.onClass name (h.hasTerm_iff.1 hname), fun term hterm hkind ↦ ?_,
    fun t u term term' ht hu hlocal hlocal' ↦ ?_, fun t u term term' ht hu hkind hkind' ↦ ?_⟩
  · obtain ⟨f, hf, hproperty⟩ := hc.frame
    exact ⟨f, h.functionName ▸ hf, fun t term ht hlocal ↦ hproperty t term (hframe ht hlocal) hlocal⟩
  · obtain ⟨t, ht⟩ := exists_term?_of_mem hterm
    have hold := h.term?_of_ne ht (by rw [hkind]; decide)
    exact (hc.members term (mem_terms_of_term? hold) hkind).imp_right h.namesExplicitly.2
  · exact hc.frameNames t u term term' (hframe ht hlocal) (hframe hu hlocal') hlocal hlocal'
  · exact hc.classNames t u term term' (hclass ht hkind) (hclass hu hkind') hkind hkind'

end SameStorage

/-- The entry point of a call is an input, so what stands for it is a literal. -/
theorem sameStorage_enterAt {c : FunctionContext} (hnets : c.NetsTyped) (call : NodeId)
    (index : Nat) : c.SameStorage (Compilation.enterAt c call index) := by
  unfold Compilation.enterAt
  cases hp : c.graph.findPin? call PinName.entryPoint (some .input) with
  | none => exact .refl c
  | some p =>
    dsimp only
    generalize hg : c.graph.modifyPin p _ = g
    have hkinds : g.kind? = c.graph.kind? := by rw [← hg]; rfl
    cases ht : c.net? p with
    | none =>
      have hnet : net? { c with graph := g } p = none := ht
      rw [hnet]
      exact ⟨rfl, hkinds, fun _ ↦ .inl rfl⟩
    | some t =>
      have hnet : net? { c with graph := g } p = some t := ht
      rw [hnet]
      refine ⟨rfl, hkinds, fun u ↦ ?_⟩
      obtain ⟨pin, term, hpin, hterm, hliteral⟩ := hnets p t ht
      have hinput : pin.direction = .input := by
        have hmatch := List.find?_some hp
        simp only [Graph.pinMatches, hpin, Option.any_some, Option.all_some, Bool.and_eq_true,
          decide_eq_true_eq] at hmatch
        exact hmatch.2.symm
      have hterm' : term? { c with graph := g } t = some term := hterm
      dsimp only
      rw [term?_modifyTerm]
      by_cases htu : t = u
      · rw [if_pos htu, ← htu, hterm']
        exact .inr ⟨term, _, hterm, rfl, hliteral hinput, hliteral hinput⟩
      · rw [if_neg htu]
        exact .inl rfl

theorem statements_enterAt (c : FunctionContext) (call : NodeId) (index : Nat) :
    (Compilation.enterAt c call index).statements = c.statements ∧
      (Compilation.enterAt c call index).failed = c.failed := by
  unfold Compilation.enterAt
  split
  · exact ⟨rfl, rfl⟩
  · dsimp only
    split <;> exact ⟨rfl, rfl⟩

end FunctionContext

namespace Compilation

/-- Lets a stub enter the event graph at the label of its event. -/
def patchStub (labels : List (NodeId × Nat)) (ctx : FunctionContext) : FunctionContext :=
  match ctx.stub with
  | none => ctx
  | some link => match labels.lookup link.sourceEvent with
    | none => ctx
    | some index => enterAt ctx link.ubergraphCall index

/-- Where the code of the nodes of the event graph begins. -/
def eventLabels (c : Compilation) : List (NodeId × Nat) :=
  ((c.contexts.find? (·.isEventGraph)).map (·.nodeLabels)).getD []

@[simp]
theorem cls_patchStubs (c : Compilation) : c.patchStubs.cls = c.cls := rfl

@[simp]
theorem log_patchStubs (c : Compilation) : c.patchStubs.log = c.log := rfl

theorem contexts_patchStubs (c : Compilation) :
    c.patchStubs.contexts = c.contexts.map (patchStub c.eventLabels) := rfl

theorem sameStorage_patchStub {ctx : FunctionContext} (labels : List (NodeId × Nat)) (hnets : ctx.NetsTyped) :
    ctx.SameStorage (patchStub labels ctx) := by
  unfold patchStub
  split
  · exact .refl ctx
  · split
    · exact .refl ctx
    · exact FunctionContext.sameStorage_enterAt hnets _ _

theorem statements_patchStub (ctx : FunctionContext) (labels : List (NodeId × Nat)) :
    (patchStub labels ctx).statements = ctx.statements ∧
    (patchStub labels ctx).failed = ctx.failed := by
  unfold patchStub
  split
  · exact ⟨rfl, rfl⟩
  · split
    · exact ⟨rfl, rfl⟩
    · exact FunctionContext.statements_enterAt ctx _ _

end Compilation

/-! ## Finishing the class -/

namespace ClassState

/-- Members and errors stay. -/
def Keeps (s s' : ClassState) : Prop :=
  s.cls.Extends s'.cls ∧ s.log.numErrors ≤ s'.log.numErrors

namespace Keeps

theorem refl (s : ClassState) : Keeps s s := ⟨.refl _, Nat.le_refl _⟩

theorem trans {s s' s'' : ClassState} (h : Keeps s s') (h' : Keeps s' s'') : Keeps s s'' :=
  ⟨h.1.trans h'.1, Nat.le_trans h.2 h'.2⟩

theorem foldl {α : Type} {f : ClassState → α → ClassState} (hf : ∀ s a, Keeps s (f s a))
    (l : List α) (s : ClassState) : Keeps s (l.foldl f s) := by
  induction l generalizing s with
  | nil => exact refl s
  | cons a l ih => exact (hf s a).trans (ih (f s a))

end Keeps

theorem keeps_checkRepNotifies (s : ClassState) : Keeps s s.checkRepNotifies := by
  refine Keeps.foldl (fun s e ↦ ?_) _ s
  exact ⟨Class.extends_modifyProperty s.cls e.1 fun _ ↦ rfl, Nat.le_refl _⟩

theorem keeps_checkDelegates (s : ClassState) : Keeps s s.checkDelegates := by
  refine Keeps.foldl (fun s _ ↦ ?_) _ s
  exact ⟨.refl s.cls, Nat.le_refl _⟩

theorem numErrors_le_applyDeclared (c : Class) (vars : List VariableDescription)
    (acc : DefaultObject × MessageLog) :
    acc.2.numErrors ≤ (vars.foldl (applyDeclared c) acc).2.numErrors := by
  induction vars generalizing acc with
  | nil => exact Nat.le_refl _
  | cons v vars ih =>
    refine Nat.le_trans (Nat.le_of_eq ?_) (ih (applyDeclared c acc v))
    unfold applyDeclared
    dsimp only
    split
    · rfl
    · split <;> rfl

theorem keeps_buildDefaults (s : ClassState) (b : Blueprint) (old : Option DefaultObject)
    (isRegenerating : Bool) : Keeps s (s.buildDefaults b old isRegenerating) := by
  have hlog (defaults : DefaultObject) :=
    numErrors_le_applyDeclared s.cls b.newVariables (defaults, s.log)
  refine ⟨.of_members rfl rfl rfl, ?_⟩
  unfold buildDefaults
  dsimp only
  split <;> exact hlog _

end ClassState

namespace Compilation

theorem keeps_bindDelegates (c : Compilation) (contexts : List FunctionContext) :
    c.cls.Extends (contexts.foldl bindDelegate c).cls ∧
      c.log.numErrors ≤ (contexts.foldl bindDelegate c).log.numErrors ∧
      (contexts.foldl bindDelegate c).contexts = c.contexts := by
  induction contexts generalizing c with
  | nil => exact ⟨.refl _, Nat.le_refl _, rfl⟩
  | cons ctx contexts ih =>
    have hstep : c.cls.Extends (bindDelegate c ctx).cls ∧
        c.log.numErrors ≤ (bindDelegate c ctx).log.numErrors ∧
        (bindDelegate c ctx).contexts = c.contexts := by
      unfold bindDelegate
      split
      · exact ⟨.refl _, Nat.le_refl _, rfl⟩
      · split
        · exact ⟨Class.extends_modifyProperty c.cls _ fun _ ↦ rfl, Nat.le_refl _, rfl⟩
        · exact ⟨.refl _, Nat.le_refl _, rfl⟩
    obtain ⟨hext, hlog, hcontexts⟩ := ih (bindDelegate c ctx)
    exact ⟨hstep.1.trans hext, Nat.le_trans hstep.2.1 hlog, hcontexts.trans hstep.2.2⟩

/-- Members, errors and functions stay while the class is finished. -/
theorem finishClass_keeps (env : CompileEnv) (old : Option DefaultObject) (c : Compilation) :
    c.cls.Extends (c.finishClass env old).cls ∧
      c.log.numErrors ≤ (c.finishClass env old).log.numErrors ∧
      (c.finishClass env old).contexts = c.contexts := by
  obtain ⟨hext, hlog, hcontexts⟩ := c.keeps_bindDelegates c.contexts
  let s : ClassState := ⟨(c.contexts.foldl bindDelegate c).cls, (c.contexts.foldl bindDelegate c).log⟩
  have hchecks := s.keeps_checkRepNotifies.trans s.checkRepNotifies.keeps_checkDelegates
  have hlink : ClassState.Keeps s.checkRepNotifies.checkDelegates
      { s.checkRepNotifies.checkDelegates with
        cls := s.checkRepNotifies.checkDelegates.cls.staticLink } :=
    ⟨Class.extends_staticLink _, Nat.le_refl _⟩
  have hdefaults := (hchecks.trans hlink).trans
    (ClassState.keeps_buildDefaults _ (c.contexts.foldl bindDelegate c).blueprint old
      env.options.isRegeneratingOnLoad)
  exact ⟨hext.trans hdefaults.1, Nat.le_trans hlog hdefaults.2, hcontexts⟩

end Compilation

/-! ## Scripts -/

namespace Class

/-- Gives a function its script. -/
def setScript (c : Class) (ctx : FunctionContext) : Class :=
  c.modifyFunction ctx.functionName fun f ↦ { f with script := ctx.script false }

theorem generateCode_eq (c : Class) (contexts : List FunctionContext) :
    c.generateCode contexts false = contexts.foldl setScript c := rfl

theorem findOwnFunction?_setScript (c : Class) (ctx : FunctionContext) (name : String) :
    (c.setScript ctx).findOwnFunction? name =
      if name = ctx.functionName then
        (c.findOwnFunction? name).map fun f ↦ { f with script := ctx.script false }
      else c.findOwnFunction? name := by
  refine (findOwnFunction?_modifyFunction c
    (f := fun f ↦ { f with script := ctx.script false }) (fun _ hg ↦ hg) name).trans ?_
  split
  · next heq => rw [heq]
  · rfl

theorem extends_setScript (c : Class) (ctx : FunctionContext) : c.Extends (c.setScript ctx) :=
  extends_modifyFunction (fun _ hg ↦ hg) fun _ _ ↦ Function.extends_of_names rfl rfl

theorem extends_generateCode (c : Class) (contexts : List FunctionContext) :
    c.Extends (c.generateCode contexts false) := by
  rw [generateCode_eq]
  induction contexts generalizing c with
  | nil => exact .refl c
  | cons ctx contexts ih => exact (c.extends_setScript ctx).trans (ih _)

theorem findOwnFunction?_foldl_of_notMem {contexts : List FunctionContext} {name : String}
    (h : name ∉ contexts.map (·.functionName)) (c : Class) :
    (contexts.foldl setScript c).findOwnFunction? name = c.findOwnFunction? name := by
  induction contexts generalizing c with
  | nil => rfl
  | cons ctx contexts ih =>
    obtain ⟨hne, hrest⟩ := List.ne_and_not_mem_of_not_mem_cons h
    rw [List.foldl_cons, ih hrest, findOwnFunction?_setScript, if_neg hne]

/-- Functions of different names get each the script of its own context. -/
theorem findOwnFunction?_generateCode {contexts : List FunctionContext}
    (hnodup : (contexts.map (·.functionName)).Nodup) {ctx : FunctionContext} (hctx : ctx ∈ contexts)
    (c : Class) : (c.generateCode contexts false).findOwnFunction? ctx.functionName =
      (c.findOwnFunction? ctx.functionName).map fun f ↦ { f with script := ctx.script false } := by
  rw [generateCode_eq]
  induction contexts generalizing c with
  | nil => cases hctx
  | cons first contexts ih =>
    obtain ⟨hfirst, hrest⟩ := List.nodup_cons.1 hnodup
    rw [List.foldl_cons]
    rcases List.mem_cons.1 hctx with rfl | hmem
    · rw [findOwnFunction?_foldl_of_notMem hfirst, findOwnFunction?_setScript, if_pos rfl]
    · have hne : ctx.functionName ≠ first.functionName := fun heq ↦
        hfirst (List.mem_map.2 ⟨ctx, hmem, heq⟩)
      rw [ih hrest hmem, findOwnFunction?_setScript, if_neg hne]

end Class

namespace Compilation

/-- Writing the scripts adds at most notes to the log. -/
theorem numErrors_deliver (env : CompileEnv) (c : Compilation) :
    (c.deliver env).log.numErrors = c.log.numErrors := by
  have hnotes (lines : List String) (log : MessageLog) :
      (lines.foldl (·.note · []) log).numErrors = log.numErrors :=
    List.foldlRecOn (motive := fun log' : MessageLog ↦ log'.numErrors = log.numErrors) lines _ rfl
      fun _ h _ _ ↦ h
  unfold deliver
  dsimp only
  split
  · exact hnotes _ _
  · rfl

/-- Writing the scripts keeps the members of the class and adds at most notes to the log. -/
theorem deliver_keeps {env : CompileEnv} (henv : env.options.isSkeletonOnly = false)
    (c : Compilation) :
    (c.deliver env).cls = c.cls.generateCode c.contexts false ∧
      c.log.numErrors ≤ (c.deliver env).log.numErrors ∧
      (c.deliver env).contexts = c.contexts := by
  refine ⟨?_, Nat.le_of_eq (c.numErrors_deliver env).symm, rfl⟩
  unfold deliver
  rw [henv]

end Compilation

/-! ## The whole compile -/

namespace Blueprint

variable (b : Blueprint) (options : CompileOptions) (suffix : Bool)

/-- What the functions of the Blueprint are compiled under. -/
def environment : CompileEnv :=
  { schema := ⟨b.name⟩, options, blueprintType := b.blueprintType }

/-- The compile before it lists the functions: the class has the members that the Blueprint
declares. -/
def shaped : Compilation :=
  let b' := (b.settleNames .empty).1
  let c : Compilation := {
    blueprint := { b' with generatedClass := none }
    cls := b'.freshClass.1
    log := (b.settleNames .empty).2 }
  c.shapeClass suffix

theorem contexts_shaped : (b.shaped suffix).contexts = [] := rfl

variable {b options suffix} in
/-- The functions that are listed have every sound property. -/
theorem forall_listed {P : FunctionContext → Prop}
    (hP : Compilation.Sound (b.environment options) (b.shaped suffix).blueprint P) :
    ∀ d ∈ ((b.shaped suffix).addFunctions (b.environment options)).contexts, P d :=
  (Compilation.Lists.addFunctions (c := b.shaped suffix) hP ⟨rfl, fun d hd ↦ by
    rw [contexts_shaped] at hd
    cases hd⟩).2

/-- No pass has worked on a function that is listed. -/
theorem fresh_listed :
    ∀ d ∈ ((b.shaped suffix).addFunctions (b.environment options)).contexts, d.Fresh :=
  forall_listed (Compilation.sound_fresh (b.environment options) _)

/-- All functions are prepared. -/
def precompiled : Compilation :=
  ((b.shaped suffix).addFunctions (b.environment options)).precompile (b.environment options)

/-- The functions after the passes. -/
def passed : Compilation :=
  ((b.shaped suffix).addFunctions (b.environment options)).afterPasses (b.environment options)

/-- The class is finished around the functions. -/
def finished : Compilation :=
  ((b.passed options suffix).patchStubs).finishClass (b.environment options)
    (b.settleNames .empty).1.freshClass.2

variable {b options}

theorem isSkeletonOnly_of_full (hfull : options.compileType = .full) :
    (b.environment options).options.isSkeletonOnly = false := by
  simp [environment, CompileOptions.isSkeletonOnly, hfull]

theorem compile_eq (hfull : options.compileType = .full) :
    b.compile options suffix = (b.finished options suffix).deliver (b.environment options) := by
  have hskeleton : options.isSkeletonOnly = false := isSkeletonOnly_of_full (b := b) hfull
  simp only [compile, Compilation.compileFunctions, hskeleton, Bool.false_eq_true, if_false]
  rfl

theorem handlesAll_environment : (b.environment options).HandlesAll := by
  intro kind
  show decide (kind.tag ∈ NodeTag.handled) = kind.tag.hasHandler
  cases kind.tag <;> rfl

variable {suffix}

theorem contexts_compile (hfull : options.compileType = .full) :
    (b.compile options suffix).contexts = (b.passed options suffix).contexts.map
      (Compilation.patchStub (b.passed options suffix).eventLabels) := by
  have hfinish := (b.passed options suffix).patchStubs.finishClass_keeps
    (b.environment options) (b.settleNames .empty).1.freshClass.2
  rw [compile_eq suffix hfull, (Compilation.deliver_keeps (isSkeletonOnly_of_full hfull) _).2.2,
    finished, hfinish.2.2, Compilation.contexts_patchStubs]

/-- The finished class gets the scripts, and there are no fewer errors than after the passes. -/
theorem compile_keeps (b : Blueprint) (suffix : Bool) (hfull : options.compileType = .full) :
    (b.passed options suffix).cls.Extends (b.finished options suffix).cls ∧
      (b.compile options suffix).cls =
        (b.finished options suffix).cls.generateCode (b.compile options suffix).contexts false ∧
      (b.passed options suffix).log.numErrors ≤ (b.compile options suffix).log.numErrors := by
  have hfinish := (b.passed options suffix).patchStubs.finishClass_keeps
    (b.environment options) (b.settleNames .empty).1.freshClass.2
  have hdeliver := (b.finished options suffix).deliver_keeps
    (isSkeletonOnly_of_full (b := b) hfull)
  simp only [Compilation.cls_patchStubs, Compilation.log_patchStubs] at hfinish
  rw [compile_eq suffix hfull]
  exact ⟨hfinish.1, by rw [hdeliver.1, hdeliver.2.2], Nat.le_trans hfinish.2.1 hdeliver.2.1⟩

end Blueprint

end VisualScript
