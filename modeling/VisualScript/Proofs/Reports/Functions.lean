import VisualScript.Compile.Emit
import VisualScript.Compile.Finish
import VisualScript.Proofs.Compile.Functions
import VisualScript.Proofs.Compile.Preparation
import VisualScript.Proofs.Log
import VisualScript.Proofs.Reports.Expansion

/-!
# Functions and what they report

The passes over a function report a lot, and read none of it.
-/

namespace VisualScript

open Logged (Alike)

instance {σ : Type} : Logged (PropertyState σ) := ⟨fun s s' ↦ ∃ log, s' = { s with log }⟩

namespace FunctionState

/-! ## Terminals -/

theorem registerPin_ignoresLog (p : PinId) : IgnoresLog (registerPin · p) := by
  rintro s _ ⟨log, rfl⟩
  unfold registerPin addLocal netName
  dsimp only [graph]
  split
  · exact ⟨_, rfl⟩
  · split
    · exact ⟨_, rfl⟩
    · split
      · split <;> exact ⟨_, rfl⟩
      · split <;> exact ⟨_, rfl⟩

theorem addLocal_ignoresLog (p : PinId) : IgnoresLog (addLocal · p) := by
  rintro s _ ⟨log, rfl⟩
  unfold addLocal netName
  dsimp only [graph]
  split <;> exact ⟨rfl, _, rfl⟩

theorem ctx_of_alike {s s' : FunctionState} (h : Alike s s') : s'.ctx = s.ctx := by
  obtain ⟨log, rfl⟩ := h
  rfl

theorem modify_ignoresLog (f : FunctionContext → FunctionContext) :
    IgnoresLog fun s : FunctionState ↦ { s with ctx := f s.ctx } := by
  rintro s _ ⟨log, rfl⟩
  exact ⟨log, rfl⟩

/-- A step for each of some things that the context names. -/
theorem foldlOf_ignoresLog {α : Type} {f : FunctionState → α → FunctionState}
    (items : FunctionContext → List α) (hf : ∀ a, IgnoresLog (f · a)) :
    IgnoresLog fun s ↦ (items s.ctx).foldl f s := by
  rintro s _ ⟨log, rfl⟩
  exact IgnoresLog.foldl hf (items s.ctx) ⟨log, rfl⟩

theorem registerPins_ignoresLog (n : NodeId) : IgnoresLog (registerPins · n) :=
  foldlOf_ignoresLog (fun ctx ↦ ctx.graph.pinsOf n) registerPin_ignoresLog

theorem append_ignoresLog (n : NodeId) (statement : Statement) :
    IgnoresLog (append · n statement) :=
  modify_ignoresLog (·.append n statement)

theorem gotoThen_ignoresLog (n : NodeId) : IgnoresLog (gotoThen · n) := by
  rintro s _ ⟨log, rfl⟩
  exact ⟨log, rfl⟩

end FunctionState

/-! ## Handlers -/

namespace CallFunction

theorem compile_ignoresLog (n : NodeId) (call : CallData) : IgnoresLog (compile · n call) := by
  rintro s _ ⟨log, rfl⟩
  unfold compile FunctionState.inputTerms outputTerms
  dsimp only [FunctionState.graph]
  split
  · exact ⟨_, rfl⟩
  · split
    · exact ⟨_, rfl⟩
    · split
      · exact ⟨_, rfl⟩
      · exact FunctionState.gotoThen_ignoresLog n ⟨_, rfl⟩

end CallFunction

theorem MakeArray.compile_ignoresLog (n : NodeId) : IgnoresLog (compile · n) := by
  rintro s _ ⟨log, rfl⟩
  unfold compile FunctionState.inputTerms
  dsimp only [FunctionState.graph]
  split
  · exact ⟨_, rfl⟩
  · split <;> exact ⟨_, rfl⟩

namespace FunctionEntry

theorem register_ignoresLog (n : NodeId) : IgnoresLog (register · n) := by
  refine FunctionState.foldlOf_ignoresLog (fun ctx ↦ ctx.graph.filteredPins n .output false)
    fun p ↦ ?_
  rintro s _ ⟨log, rfl⟩
  unfold registerParameter
  dsimp only [FunctionState.graph]
  split <;> exact ⟨_, rfl⟩

theorem compile_ignoresLog (n : NodeId) : IgnoresLog (compile · n) := by
  rintro s _ ⟨log, rfl⟩
  unfold compile
  dsimp only [FunctionState.graph]
  split
  · split <;> exact ⟨_, rfl⟩
  · exact FunctionState.gotoThen_ignoresLog n ⟨_, rfl⟩

end FunctionEntry

theorem Event.register_ignoresLog (n : NodeId) : IgnoresLog (register · n) := by
  rintro s _ ⟨log, rfl⟩
  unfold register
  dsimp only [FunctionState.graph]
  split
  · exact IgnoresLog.foldl (fun p _ _ h ↦ (FunctionState.addLocal_ignoresLog p h).2) _ ⟨_, rfl⟩
  · exact ⟨_, rfl⟩

namespace FunctionResult

theorem register_ignoresLog (n : NodeId) : IgnoresLog (register · n) := by
  refine FunctionState.foldlOf_ignoresLog (fun ctx ↦ ctx.graph.filteredPins n .input false)
    fun p ↦ ?_
  rintro s _ ⟨log, rfl⟩
  unfold registerResult
  dsimp only [FunctionState.graph]
  split
  · exact ⟨_, rfl⟩
  · split <;> split <;> exact ⟨_, rfl⟩

theorem assignResult_ignoresLog (n : NodeId) (p : PinId) : IgnoresLog (assignResult n · p) := by
  rintro s _ ⟨log, rfl⟩
  unfold assignResult
  dsimp only [FunctionState.graph]
  split
  · exact ⟨_, rfl⟩
  · split
    · exact ⟨_, rfl⟩
    · split <;> exact ⟨_, rfl⟩

theorem compile_ignoresLog (n : NodeId) : IgnoresLog (compile · n) :=
  (FunctionState.foldlOf_ignoresLog (fun ctx ↦ ctx.graph.filteredPins n .input false)
    (assignResult_ignoresLog n)).comp (FunctionState.append_ignoresLog n .gotoReturn)

end FunctionResult

theorem Branch.compile_ignoresLog (n : NodeId) : IgnoresLog (compile · n) := by
  rintro s _ ⟨log, rfl⟩
  unfold compile
  dsimp only [FunctionState.graph]
  split
  · split <;> exact ⟨_, rfl⟩
  · exact ⟨_, rfl⟩

namespace Knot

theorem bridge_ignoresLog (n : NodeId) (target source : PinId) :
    IgnoresLog (bridge n target · source) := by
  rintro s _ ⟨log, rfl⟩
  unfold bridge
  dsimp only [FunctionState.graph]
  split <;> exact ⟨_, rfl⟩

theorem release_ignoresLog (n : NodeId) (output : PinId) (sources : List PinId) (value : String)
    (object : Option String) (target : PinId) :
    IgnoresLog (release n output sources value object · target) := by
  rintro s _ ⟨log, rfl⟩
  exact IgnoresLog.foldl (bridge_ignoresLog n target) sources ⟨log, rfl⟩

theorem transform_ignoresLog (n : NodeId) : IgnoresLog (transform · n) := by
  rintro s _ ⟨log, rfl⟩
  unfold transform
  dsimp only [FunctionState.graph]
  split
  · exact ((IgnoresLog.foldl (release_ignoresLog n _ _ _ _) _).comp
      (FunctionState.modify_ignoresLog fun ctx ↦
        { ctx with graph := ctx.graph.removeNode n })) ⟨log, rfl⟩
  · exact ⟨_, rfl⟩

end Knot

theorem VariableAccess.resolve_ignoresLog (n : NodeId) (var : VariableReference) (report : Bool) :
    IgnoresLog (resolve · n var report) := by
  rintro s _ ⟨log, rfl⟩
  unfold resolve
  dsimp only [FunctionState.graph]
  split
  · split <;> exact ⟨rfl, _, rfl⟩
  · exact ⟨rfl, _, rfl⟩

open VariableAccess

theorem VariableGet.register_ignoresLog (n : NodeId) (var : VariableReference) :
    IgnoresLog (register · n var) := by
  intro s s' h
  obtain ⟨t, s₁, s₁', hs, hs', h₁⟩ := (resolve_ignoresLog n var true).outcome h
  unfold register
  dsimp only
  rw [hs, hs']
  cases t with
  | none => exact h₁
  | some t =>
    exact FunctionState.foldlOf_ignoresLog (fun ctx ↦ ctx.graph.filteredPins n .output false)
      (fun p ↦ FunctionState.modify_ignoresLog (·.setNet p t)) h₁

namespace VariableSet

theorem resolveMember_ignoresLog (n : NodeId) (report : Bool) (p : PinId) :
    IgnoresLog (resolveMember n report · p) := by
  rintro ⟨pairs, s⟩ ⟨_, s'⟩ ⟨rfl, h⟩
  unfold resolveMember
  dsimp only [FunctionState.graph]
  rw [FunctionState.ctx_of_alike h]
  cases s.ctx.graph.pin? p with
  | none => exact ⟨rfl, h⟩
  | some pin =>
    obtain ⟨t, s₁, s₁', hs, hs', h₁⟩ :=
      (resolve_ignoresLog n (.selfMember pin.name pin.ty) report).outcome h
    dsimp only
    rw [hs, hs']
    cases t with
    | none => exact ⟨rfl, h₁⟩
    | some t => exact ⟨rfl, h₁⟩

theorem assignments_ignoresLog (n : NodeId) (var : Option VariableReference) (report : Bool) :
    IgnoresLog (assignments · n var report) := by
  intro s s' h
  unfold assignments
  dsimp only [FunctionState.graph]
  rw [FunctionState.ctx_of_alike h]
  cases var with
  | none => exact IgnoresLog.foldl (resolveMember_ignoresLog n report) _ ⟨rfl, h⟩
  | some var =>
    obtain ⟨t, s₁, s₁', hs, hs', h₁⟩ := (resolve_ignoresLog n var report).outcome h
    dsimp only
    rw [hs, hs']
    cases t with
    | none => exact ⟨rfl, h₁⟩
    | some t => exact ⟨rfl, h₁⟩

theorem register_ignoresLog (n : NodeId) (var : Option VariableReference) :
    IgnoresLog (register · n var) := by
  intro s s' h
  obtain ⟨pairs, s₁, s₁', hs, hs', h₁⟩ := (assignments_ignoresLog n var true).outcome h
  unfold register
  dsimp only
  rw [hs, hs']
  refine IgnoresLog.foldl (fun a ↦ ?_) pairs h₁
  rintro s _ ⟨log, rfl⟩
  dsimp only [FunctionState.graph]
  split <;> exact ⟨_, rfl⟩

theorem compile_ignoresLog (n : NodeId) (var : Option VariableReference) :
    IgnoresLog (compile · n var) := by
  intro s s' h
  obtain ⟨pairs, s₁, s₁', hs, hs', h₁⟩ := (assignments_ignoresLog n var false).outcome h
  unfold compile
  dsimp only
  rw [hs, hs']
  refine FunctionState.gotoThen_ignoresLog n (IgnoresLog.foldl (fun a ↦ ?_) pairs h₁)
  rintro s _ ⟨log, rfl⟩
  unfold assign
  dsimp only
  split <;> exact ⟨_, rfl⟩

end VariableSet

namespace TemporaryVariable

theorem registerTemporary_ignoresLog (p : PinId) : IgnoresLog (registerTemporary · p) := by
  intro s s' h
  obtain ⟨t, s₁, s₁', hs, hs', h₁⟩ := (FunctionState.addLocal_ignoresLog p).outcome h
  unfold registerTemporary
  dsimp only
  rw [hs, hs']
  cases t with
  | none => exact h₁
  | some t => exact FunctionState.modify_ignoresLog (·.modifyTerm t fun term ↦
      if term.kind = .eventGraphLocal then { term with savePersistent := false } else term) h₁

theorem register_ignoresLog (n : NodeId) : IgnoresLog (register · n) :=
  FunctionState.foldlOf_ignoresLog (fun ctx ↦ ctx.graph.filteredPins n .output false)
    registerTemporary_ignoresLog

end TemporaryVariable

namespace TimelineNode

theorem registerTrack_ignoresLog (timeline : String) (p : PinId) :
    IgnoresLog (registerTrack timeline · p) := by
  rintro s _ ⟨log, rfl⟩
  unfold registerTrack
  dsimp only [FunctionState.graph]
  split
  · exact ⟨_, rfl⟩
  · split <;> exact ⟨_, rfl⟩

theorem register_ignoresLog (n : NodeId) (timeline : String) :
    IgnoresLog (register · n timeline) := by
  rintro s _ ⟨log, rfl⟩
  unfold register
  dsimp only [FunctionState.graph]
  split
  · exact IgnoresLog.foldl (registerTrack_ignoresLog timeline) _ ⟨log, rfl⟩
  · exact ⟨_, rfl⟩

end TimelineNode

namespace NodeKind

variable (kind : NodeKind) (n : NodeId)

theorem transform_ignoresLog : IgnoresLog (kind.transform · n) := by
  cases kind with
  | knot ty => exact Knot.transform_ignoresLog n
  | _ => exact .id

theorem register_ignoresLog : IgnoresLog (kind.register · n) := by
  cases kind with
  | functionEntry data => exact FunctionEntry.register_ignoresLog n
  | functionResult => exact FunctionResult.register_ignoresLog n
  | event data => exact Event.register_ignoresLog n
  | variableGet var => exact VariableGet.register_ignoresLog n var
  | variableSet var => exact VariableSet.register_ignoresLog n var
  | temporaryVariable ty => exact TemporaryVariable.register_ignoresLog n
  | timeline name => exact TimelineNode.register_ignoresLog n name
  | callFunction call => exact FunctionState.registerPins_ignoresLog n
  | branch => exact FunctionState.registerPins_ignoresLog n
  | makeArray ty count => exact FunctionState.registerPins_ignoresLog n
  | _ => exact .id

theorem compile_ignoresLog : IgnoresLog (kind.compile · n) := by
  cases kind with
  | functionEntry data => exact FunctionEntry.compile_ignoresLog n
  | functionResult => exact FunctionResult.compile_ignoresLog n
  | event data => exact FunctionState.gotoThen_ignoresLog n
  | callFunction call => exact CallFunction.compile_ignoresLog n call
  | variableSet var => exact VariableSet.compile_ignoresLog n var
  | branch => exact Branch.compile_ignoresLog n
  | makeArray ty count => exact MakeArray.compile_ignoresLog n
  | _ => exact .id

end NodeKind

/-! ## Properties -/

theorem PropertyState.addTerms_ignoresLog {σ : Type} [PropertyScope σ] (ts : List TermId)
    (flags : PropertyFlags) : IgnoresLog fun s : PropertyState σ ↦ s.addTerms ts flags := by
  refine .foldl (fun t ↦ ?_) ts
  rintro s _ ⟨log, rfl⟩
  unfold addTerm
  dsimp only
  split
  · exact ⟨_, rfl⟩
  · split
    · exact ⟨_, rfl⟩
    · split <;> exact ⟨_, rfl⟩

theorem PropertyState.addLists_ignoresLog {σ : Type} [LawfulPropertyScope σ]
    (lists : List (List TermId × PropertyFlags)) :
    IgnoresLog fun s : PropertyState σ ↦ s.addLists lists := by
  have hlist (list : List TermId × PropertyFlags) :
      IgnoresLog fun s : PropertyState σ ↦ s.addTerms list.1 list.2 :=
    addTerms_ignoresLog list.1 list.2
  exact .foldl hlist lists

namespace FunctionState

theorem withFrame_ignoresLog (f : Function) : IgnoresLog (withFrame · f) := by
  rintro s _ ⟨log, rfl⟩
  obtain ⟨log', hlog'⟩ : Alike (frameProperties s f) (frameProperties { s with log } f) :=
    PropertyState.addLists_ignoresLog s.ctx.frameLists ⟨log, rfl⟩
  refine ⟨log', ?_⟩
  unfold withFrame
  dsimp only
  rw [hlog']

theorem withClassProperties_ignoresLog (ts : List TermId) : IgnoresLog fun s : FunctionState ↦
    { s with
      cls := (s.classProperties ts).scope
      ctx := (s.classProperties ts).ctx
      log := (s.classProperties ts).log } := by
  rintro s _ ⟨log, rfl⟩
  obtain ⟨log', hlog'⟩ : Alike (classProperties s ts) (classProperties { s with log } ts) :=
    PropertyState.addTerms_ignoresLog ts .empty ⟨log, rfl⟩
  refine ⟨log', ?_⟩
  dsimp only
  rw [hlog']

theorem createProperties_ignoresLog : IgnoresLog createProperties := by
  rintro s _ ⟨log, rfl⟩
  have hclass := withClassProperties_ignoresLog s.ctx.eventGraphLocals
  cases hf : s.cls.findOwnFunction? s.ctx.functionName with
  | none =>
    simp only [createProperties, hf]
    exact hclass ⟨log, rfl⟩
  | some f =>
    rw [createProperties_eq hf, createProperties_eq (s := { s with log }) hf]
    exact hclass (withFrame_ignoresLog f ⟨log, rfl⟩)

/-! ## Preparing -/

variable (env : CompileEnv)

/-- A step for the nodes that can be compiled. -/
theorem foldl_nodes_ignoresLog {f : NodeKind → FunctionState → NodeId → FunctionState}
    (hf : ∀ kind n, IgnoresLog (f kind · n)) (nodes : FunctionContext → List NodeId) :
    IgnoresLog fun s : FunctionState ↦ (nodes s.ctx).foldl
      (fun s n ↦ match s.graph.kind? n with
        | some kind => if env.handles kind then f kind s n else s
        | none => s) s := by
  refine foldlOf_ignoresLog nodes fun n s s' h ↦ ?_
  dsimp only [graph]
  rw [ctx_of_alike h]
  split
  · split
    · exact hf _ n h
    · exact h
  · exact h

theorem simplifyGraph_ignoresLog (entry : NodeId) : IgnoresLog (simplifyGraph env · entry) := by
  have htransform := (foldl_nodes_ignoresLog env NodeKind.transform_ignoresLog (·.graph.order)).comp
    (modify_ignoresLog fun ctx ↦ { ctx with graph := dropUnusedWorldContext env entry ctx.graph })
  rintro s _ ⟨log, rfl⟩
  exact htransform ⟨_, rfl⟩

theorem layOut_ignoresLog (entry : NodeId) : IgnoresLog (layOut env · entry) := by
  have hlocal (v : LocalVariable) : IgnoresLog (addUserLocal entry · v) := by
    rintro s _ ⟨log, rfl⟩
    exact ⟨log, rfl⟩
  have hregister := (foldl_nodes_ignoresLog env NodeKind.register_ignoresLog (·.executionList)).comp
    createProperties_ignoresLog
  rintro s _ ⟨log, rfl⟩
  exact hregister (IgnoresLog.foldl hlocal _ ⟨_, rfl⟩)

theorem createFunction_ignoresLog (entry : NodeId) : IgnoresLog (createFunction · entry) := by
  rintro s _ ⟨log, rfl⟩
  have hfault (overridden : Option (String × Function)) :
      creationFault? { s with log } overridden = s.creationFault? overridden := rfl
  unfold createFunction
  dsimp only [graph]
  rw [hfault]
  split
  · exact ⟨rfl, _, rfl⟩
  · split <;> exact ⟨rfl, _, rfl⟩

theorem checkSignature_ignoresLog (entry : NodeId) (overridden : Option (String × Function)) :
    IgnoresLog (checkSignature · entry overridden) := by
  rintro s _ ⟨log, rfl⟩
  unfold checkSignature
  dsimp only [graph]
  split
  · exact ⟨_, rfl⟩
  · split
    · exact ⟨_, rfl⟩
    · split <;> exact ⟨_, rfl⟩

theorem precompile_ignoresLog : IgnoresLog (precompile env) := by
  intro s s' h
  have hentry : s'.findEntry = s.findEntry := by
    unfold findEntry graph
    rw [ctx_of_alike h]
  unfold precompile
  rw [hentry]
  cases s.findEntry with
  | error m =>
    obtain ⟨log, rfl⟩ := h
    exact ⟨_, rfl⟩
  | ok entry =>
    obtain ⟨overridden, s₁, s₁', hs, hs', h₁⟩ :=
      (createFunction_ignoresLog entry).outcome (simplifyGraph_ignoresLog env entry h)
    dsimp only
    rw [hs, hs']
    cases overridden with
    | none =>
      obtain ⟨log, rfl⟩ := h₁
      exact ⟨_, rfl⟩
    | some overridden =>
      exact checkSignature_ignoresLog entry overridden (layOut_ignoresLog env entry h₁)

/-! ## Code -/

theorem markNode_ignoresLog (n : NodeId) (kind : NodeKind) :
    IgnoresLog (markNode env · n kind) := by
  intro s s' h
  have hcomment : Alike
      (if env.options.emitNodeComments then s.append n (.comment (commentOf s.ctx.graph n)) else s)
      (if env.options.emitNodeComments then s'.append n (.comment (commentOf s.ctx.graph n))
        else s') := by
    split
    · exact append_ignoresLog n _ h
    · exact h
  unfold markNode
  dsimp only [graph]
  rw [ctx_of_alike h]
  split
  · exact h
  · generalize (if env.options.emitNodeComments then _ else s) = s₁ at hcomment
    generalize (if env.options.emitNodeComments then _ else s') = s₁' at hcomment
    rw [ctx_of_alike hcomment]
    split
    · exact append_ignoresLog n _ hcomment
    · exact hcomment

theorem emitNodes_ignoresLog (nodes : List NodeId) : IgnoresLog (emitNodes env nodes) := by
  induction nodes with
  | nil => exact .id
  | cons n nodes ih =>
    intro s s' h
    unfold emitNodes
    dsimp only [graph]
    rw [ctx_of_alike h]
    split
    · exact ih h
    · next kind _ =>
      split
      · exact ih (kind.compile_ignoresLog n (markNode_ignoresLog env n kind h))
      · obtain ⟨log, rfl⟩ := h
        exact ⟨_, rfl⟩

theorem compile_ignoresLog : IgnoresLog (compile env) := by
  intro s s' h
  obtain ⟨log, hlog⟩ := emitNodes_ignoresLog env s.ctx.executionList h
  unfold compile
  dsimp only
  rw [ctx_of_alike h]
  split
  · exact h
  · rw [hlog]
    dsimp only
    split <;> exact ⟨log, rfl⟩

/-! ## Finishing -/

theorem postcompile_ignoresLog : IgnoresLog postcompile := by
  rintro s _ ⟨log, rfl⟩
  unfold postcompile finish
  dsimp only [graph]
  generalize (if s.ctx.failed || s.ctx.flags.interfaceStub then
      { s.ctx with statements := [.ret], nodeLabels := [] }
    else s.ctx.sortForFallThrough.resolveJumps) = ctx
  split <;> exact ⟨_, rfl⟩

end FunctionState

/-!
## Compiles and what they report

From a Blueprint to its functions a compile reads nothing of what was reported, and nothing
of the graphs that were kept for inspection.
-/

/-- What an earlier compile kept for inspection counts as reported. -/
instance : Logged Compilation := ⟨fun c c' ↦ ∃ log graphs, c' = { c with
  log
  blueprint := { c.blueprint with intermediateGeneratedGraphs := graphs } }⟩

namespace Compilation

/-! ### Listing the functions -/

section Functions

variable (env : CompileEnv)

theorem expand_ignoresLog (g : Graph) : IgnoresLog (expand env · g) := by
  rintro c _ ⟨log, graphs, rfl⟩
  obtain ⟨log', hlog'⟩ := expandMacros_ignoresLog g c.blueprint.macroGraphs
    env.options.saveIntermediateProducts (s := c.log) (t := log) trivial
  dsimp only at hlog'
  unfold expand
  dsimp only
  rw [hlog']
  exact ⟨rfl, log', graphs, rfl⟩

/-- Whatever is added for an expanded graph. -/
theorem expandThen_ignoresLog {f : Graph → Compilation → Compilation} (hf : ∀ g, IgnoresLog (f g))
    (source : Graph) :
    IgnoresLog fun c : Compilation ↦ f (c.expand env source).1 (c.expand env source).2 := by
  intro c c' h
  obtain ⟨g, c₁, c₁', hc, hc', h₁⟩ := (expand_ignoresLog env source).outcome h
  dsimp only at hc hc' ⊢
  rw [hc, hc']
  exact hf g h₁

theorem addFunctionGraph_ignoresLog (source : Graph) :
    IgnoresLog (addFunctionGraph env · source) := by
  refine expandThen_ignoresLog env (f := fun g c ↦ c.addContext { c.newContext g.functionName g with
    flags.interfaceStub := c.blueprint.blueprintType = .interface }) (fun g ↦ ?_) source
  rintro c _ ⟨log, graphs, rfl⟩
  exact ⟨log, graphs, rfl⟩

theorem addDelegateGraph_ignoresLog (source : Graph) :
    IgnoresLog (addDelegateGraph env · source) := by
  refine expandThen_ignoresLog env (f := fun g c ↦ c.addContext
    { c.newContext (Schema.delegateSignatureName source.name) g with
      delegateSignatureName := some source.name }) (fun g ↦ ?_) source
  rintro c _ ⟨log, graphs, rfl⟩
  exact ⟨log, graphs, rfl⟩

theorem addInterfaceGraph_ignoresLog (source : Graph) :
    IgnoresLog (addInterfaceGraph env · source) := by
  refine expandThen_ignoresLog env (f := fun g c ↦ c.addContext (c.newContext g.functionName g))
    (fun g ↦ ?_) source
  rintro c _ ⟨log, graphs, rfl⟩
  exact ⟨log, graphs, rfl⟩

theorem addStub_ignoresLog (ubergraph : Graph) (event : NodeId) :
    IgnoresLog (addStub env ubergraph · event) := by
  rintro c _ ⟨log, graphs, rfl⟩
  unfold addStub
  dsimp only
  split
  · next data _ =>
    obtain ⟨hstub, hnames, -⟩ := EventStub.build_ignoresLog ubergraph event env.schema c.cls
      c.classNetNames (s := c.log) (t := log) trivial
    dsimp only at hstub hnames
    rw [hstub, hnames]
    split
    · exact ⟨_, graphs, rfl⟩
    · exact ⟨_, graphs, rfl⟩
  · exact ⟨log, graphs, rfl⟩

theorem eventGraph_ignoresLog : IgnoresLog (eventGraph env) := by
  rintro c _ ⟨log, graphs, rfl⟩
  obtain ⟨_, ⟨_, log₁⟩, ⟨g₁, log₁'⟩, h₁, h₁', rfl, -⟩ := (mergePages_ignoresLog
    c.blueprint.ubergraphPages env.schema.ubergraphFunctionName
      env.options.saveIntermediateProducts).outcome (s := c.log) (t := log) trivial
  obtain ⟨_, ⟨_, log₂⟩, ⟨g₂, log₂'⟩, h₂, h₂', rfl, -⟩ := (spawnMissingEvents_ignoresLog g₁
    c.blueprint.implementedInterfaces).outcome (s := log₁) (t := log₁') trivial
  obtain ⟨g₃, c₃, _, h₃, h₃', log₃, graphs₃, rfl⟩ := (expand_ignoresLog env g₂).outcome
    (s := { c with log := log₂ }) (t := { c with
      log := log₂'
      blueprint := { c.blueprint with intermediateGeneratedGraphs := graphs } }) ⟨log₂', graphs, rfl⟩
  obtain ⟨_, ⟨_, log₄⟩, ⟨g₄, log₄'⟩, h₄, h₄', rfl, -⟩ := (expandTimelines_ignoresLog g₃
    c.blueprint.timelines).outcome (s := c₃.log) (t := log₃) trivial
  unfold eventGraph
  dsimp only at h₁ h₁' h₂ h₂' h₃ h₃' h₄ h₄' ⊢
  rw [h₁, h₁']
  dsimp only
  rw [h₂, h₂']
  dsimp only
  rw [h₃, h₃']
  dsimp only
  rw [h₄, h₄']
  exact ⟨rfl, log₄', graphs₃, rfl⟩

theorem addEventGraph_ignoresLog : IgnoresLog (addEventGraph env) := by
  intro c c' h
  obtain ⟨g, c₁, _, hc, hc', log, graphs, rfl⟩ := (eventGraph_ignoresLog env).outcome h
  unfold addEventGraph
  dsimp only at hc hc' ⊢
  rw [hc, hc']
  exact IgnoresLog.foldl (addStub_ignoresLog env g) _ ⟨log, graphs, rfl⟩

theorem addFunctions_ignoresLog : IgnoresLog (addFunctions env) := by
  rintro c _ ⟨log, graphs, rfl⟩
  unfold addFunctions
  dsimp only
  refine IgnoresLog.foldl (addInterfaceGraph_ignoresLog env) _
    (IgnoresLog.foldl (addDelegateGraph_ignoresLog env) _
      (IgnoresLog.foldl (addFunctionGraph_ignoresLog env) _ ?_))
  split
  · exact addEventGraph_ignoresLog env ⟨log, graphs, rfl⟩
  · exact ⟨log, graphs, rfl⟩

end Functions

/-! ### Passes -/

theorem runPass_ignoresLog {pass : FunctionState → FunctionState}
    (selected : FunctionContext → Bool) (hpass : IgnoresLog pass) :
    IgnoresLog (runPass · selected pass) := by
  rintro c _ ⟨log, graphs, rfl⟩
  dsimp only
  rw [runPass_eq, runPass_eq]
  refine IgnoresLog.foldl (fun ctx ↦ ?_) _ ⟨log, graphs, rfl⟩
  rintro c _ ⟨log, graphs, rfl⟩
  unfold advance
  dsimp only
  split
  · obtain ⟨log', hlog'⟩ := hpass (s := ⟨ctx, c.log, c.cls, c.classNetNames⟩)
      (t := ⟨ctx, log, c.cls, c.classNetNames⟩) ⟨log, rfl⟩
    rw [hlog']
    exact ⟨log', graphs, rfl⟩
  · exact ⟨log, graphs, rfl⟩

theorem patchStubs_ignoresLog : IgnoresLog patchStubs := by
  rintro c _ ⟨log, graphs, rfl⟩
  exact ⟨log, graphs, rfl⟩

theorem compileFunctions_ignoresLog (env : CompileEnv) : IgnoresLog (compileFunctions env) := by
  have hprepared : IgnoresLog fun c : Compilation ↦ (c.addFunctions env).precompile env :=
    ((addFunctions_ignoresLog env).comp (runPass_ignoresLog (·.isDelegateSignature)
      (FunctionState.precompile_ignoresLog env))).comp (runPass_ignoresLog (!·.isDelegateSignature)
        (FunctionState.precompile_ignoresLog env))
  have hfinish : IgnoresLog fun c : Compilation ↦
      (c.runPass (fun _ ↦ true) (·.postcompile)).patchStubs :=
    (runPass_ignoresLog _ FunctionState.postcompile_ignoresLog).comp patchStubs_ignoresLog
  intro c c' h
  unfold compileFunctions
  dsimp only
  split
  · exact hfinish (hprepared h)
  · exact hfinish (runPass_ignoresLog _ (FunctionState.compile_ignoresLog env) (hprepared h))

end Compilation

end VisualScript
