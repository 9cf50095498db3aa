import VisualScript.Proofs.Class.Members
import VisualScript.Proofs.Compile.Descent
import VisualScript.Proofs.Class.Finishing
import VisualScript.Proofs.Compile.Storage
import Mathlib.Data.Prod.Lex

/-!
# Where objects come from

After the functions are listed only properties get sources, which are parts of graphs.  So all
sources of a compile descend if no graph has the name of one that its objects come from, and
then every object is traced to the end of its chain.
-/

namespace VisualScript

variable {ρ : Type} [LinearOrder ρ] {rank : ObjectRef → ρ}

/-- Properties are above all objects of other kinds. -/
def PropertiesAbove (rank : ObjectRef → ρ) : Prop :=
  ∀ object name, (∀ name', object ≠ .property name') → rank object < rank (.property name)

/-! ## Properties -/

/-- The sources descend, and no terminal was made for a property. -/
structure Traced (rank : ObjectRef → ρ) (ctx : FunctionContext) (log : MessageLog) : Prop where
  log : log.Descends rank
  sourced : ∀ term ∈ ctx.terms, term.Sourced

namespace PropertyState

variable {σ : Type} [PropertyScope σ] {s : PropertyState σ}

theorem traced_addTerm (hproperties : PropertiesAbove rank) (h : Traced rank s.ctx s.log)
    (flags : PropertyFlags) (t : TermId) :
    Traced rank (addTerm flags s t).ctx (addTerm flags s t).log := by
  unfold addTerm
  split
  · exact h
  · next term hterm =>
    have hsourced := h.sourced term (FunctionContext.mem_terms_of_term? hterm)
    split
    · exact h
    · dsimp only
      split
      · exact ⟨h.log.of_sources rfl, h.sourced⟩
      · refine ⟨?_, fun new hnew ↦ ?_⟩
        · split
          · next source hsource =>
            refine h.log.addSource (hproperties _ _ fun name hname ↦ hsourced name ?_)
            rw [hsource, Option.map_some, hname]
          · exact h.log
        · obtain ⟨old, hold, rfl | rfl⟩ := s.ctx.of_mem_terms_modifyTerm hnew
          · exact h.sourced new hold
          · exact h.sourced old hold

theorem traced_addTerms (hproperties : PropertiesAbove rank) (h : Traced rank s.ctx s.log)
    (ts : List TermId) (flags : PropertyFlags) :
    Traced rank (s.addTerms ts flags).ctx (s.addTerms ts flags).log :=
  List.foldlRecOn (motive := fun s : PropertyState σ ↦ Traced rank s.ctx s.log) ts _ h
    fun _ hs t _ ↦ traced_addTerm hproperties hs flags t

end PropertyState

/-! ## Passes over a function -/

namespace FunctionState

variable {s : FunctionState}

theorem traced_createProperties (hproperties : PropertiesAbove rank)
    (h : Traced rank s.ctx s.log) :
    Traced rank s.createProperties.ctx s.createProperties.log := by
  have hclass (s : FunctionState) (hs : Traced rank s.ctx s.log) (ts : List TermId) :
      Traced rank (s.classProperties ts).ctx (s.classProperties ts).log :=
    PropertyState.traced_addTerms (s := ⟨s.cls, s.ctx, s.log⟩) hproperties hs ts _
  cases hf : s.cls.findOwnFunction? s.ctx.functionName with
  | none =>
    simp only [createProperties, hf]
    exact hclass s h _
  | some f =>
    have hframe : Traced rank (s.frameProperties f).ctx (s.frameProperties f).log :=
      List.foldlRecOn (motive := fun p : PropertyState Function ↦ Traced rank p.ctx p.log)
        s.ctx.frameLists _ h fun p hp l _ ↦ p.traced_addTerms hproperties hp l.1 l.2
    rw [createProperties_eq hf]
    exact hclass (s.withFrame f) hframe _

/-- Preparation lets only properties have sources. -/
theorem traced_precompile (hproperties : PropertiesAbove rank) (env : CompileEnv)
    (h : Traced rank s.ctx s.log) :
    Traced rank (s.precompile env).ctx (s.precompile env).log := by
  rcases precompile_cases env s with
    ⟨ctx, log, hs, -, -, -, hterms, -, hsources⟩ |
    ⟨entry, g, log, f, cls, flags, overridden, -, hsimplify, -, -, -, hs⟩
  · rw [hs]
    exact ⟨h.log.of_sources hsources, hterms ▸ h.sourced⟩
  · have hsources : log.sources = s.log.sources := by
      obtain ⟨_, _, hedits, -, hsources⟩ := editsGraph_simplifyGraph env s entry
      rw [hsimplify] at hedits
      cases hedits
      exact hsources
    have hsteps := graphSteps_registered env (s.created entry g log cls flags) entry
    have hregistered : Traced rank ((s.created entry g log cls flags).registered env entry).ctx
        ((s.created entry g log cls flags).registered env entry).log :=
      ⟨h.log.of_sources (hsteps.sources.trans ((MessageLog.sources_pushAll _ _).trans hsources)),
        hsteps.sourced h.sourced⟩
    have hlaid := traced_createProperties hproperties hregistered
    rw [← layOut_eq] at hlaid
    rw [hs]
    generalize (s.created entry g log cls flags).layOut env entry = s' at hlaid
    unfold checkSignature
    split
    · exact hlaid
    · split
      · exact hlaid
      · split
        · exact hlaid
        · exact ⟨hlaid.log.of_sources rfl, hlaid.sourced⟩

theorem sources_compile (env : CompileEnv) (s : FunctionState) :
    (s.compile env).log.sources = s.log.sources := by
  have hemitted := (graphSteps_emitNodes env s.ctx.executionList s).sources
  unfold compile
  split
  · rfl
  · dsimp only
    split <;> exact hemitted

theorem sources_postcompile (s : FunctionState) : s.postcompile.log.sources = s.log.sources := by
  have hfinish (s : FunctionState) : s.finish.log.sources = s.log.sources := by
    unfold finish
    dsimp only
    split
    · rfl
    · exact MessageLog.sources_pushAll _ _
  exact hfinish _

end FunctionState

/-! ## Passes over all functions -/

namespace Compilation

variable {env : CompileEnv} {c : Compilation}

theorem sources_runPass (selected : FunctionContext → Bool) {pass : FunctionState → FunctionState}
    (hpass : ∀ s, (pass s).log.sources = s.log.sources) (c : Compilation) :
    (c.runPass selected pass).log.sources = c.log.sources := by
  rw [runPass_eq]
  refine List.foldlRecOn (motive := fun c' : Compilation ↦ c'.log.sources = c.log.sources) _ _ rfl
    fun c' hc' ctx _ ↦ ?_
  unfold advance
  split
  · exact (hpass _).trans hc'
  · exact hc'

/-- The sources descend, and no terminal of a function was made for a property. -/
structure Descends (rank : ObjectRef → ρ) (c : Compilation) : Prop where
  log : c.log.Descends rank
  sourced : ∀ d ∈ c.contexts, ∀ term ∈ d.terms, term.Sourced

theorem Descends.runPass (h : c.Descends rank) (selected : FunctionContext → Bool)
    {pass : FunctionState → FunctionState}
    (hpass : ∀ s, Traced rank s.ctx s.log → Traced rank (pass s).ctx (pass s).log) :
    (c.runPass selected pass).Descends rank := by
  rw [runPass_eq]
  refine List.foldlRecOn (motive := fun c : Compilation ↦ c.Descends rank) _ _
    ⟨h.log, List.forall_mem_nil _⟩ fun c' hc' ctx hctx ↦ ?_
  unfold advance
  split
  · obtain ⟨hlog, hsourced⟩ := hpass ⟨ctx, c'.log, c'.cls, c'.classNetNames⟩
      ⟨hc'.log, h.sourced ctx hctx⟩
    exact ⟨hlog, List.forall_mem_append.2 ⟨hc'.sourced, List.forall_mem_singleton.2 hsourced⟩⟩
  · exact ⟨hc'.log, List.forall_mem_append.2
      ⟨hc'.sourced, List.forall_mem_singleton.2 (h.sourced ctx hctx)⟩⟩

/-- Sources descend once the functions are compiled. -/
theorem descends_compileFunctions (hproperties : PropertiesAbove rank) (hranked : c.Ranked rank env)
    (h : c.log.Descends rank) (hcontexts : c.contexts = []) :
    (c.compileFunctions env).log.Descends rank := by
  have hfresh : Lists c.blueprint FunctionContext.Fresh (c.addFunctions env) :=
    Lists.addFunctions (sound_fresh env c.blueprint)
      ⟨rfl, fun d hd ↦ absurd (hcontexts ▸ hd) List.not_mem_nil⟩
  have hlisted : (c.addFunctions env).Descends rank :=
    ⟨descends_addFunctions hranked h, fun d hd term hterm ↦ by
      rw [(hfresh.2 d hd).terms] at hterm
      exact absurd hterm List.not_mem_nil⟩
  have hprepared : ((c.addFunctions env).precompile env).Descends rank :=
    (hlisted.runPass _ fun _ ↦ FunctionState.traced_precompile hproperties env).runPass _
      fun _ ↦ FunctionState.traced_precompile hproperties env
  refine hprepared.log.of_sources ?_
  unfold compileFunctions
  dsimp only
  refine (sources_runPass _ FunctionState.sources_postcompile _).trans ?_
  split
  · rfl
  · exact sources_runPass _ (FunctionState.sources_compile env) _

/-! ## The class -/

theorem reports_bindDelegate (c : Compilation) (ctx : FunctionContext) :
    MessageLog.Reports [] c.log (c.bindDelegate ctx).log := by
  unfold bindDelegate
  split
  · exact .refl _
  · split
    · exact .refl _
    · exact .warning _ _ _

end Compilation

namespace ClassState

open MessageLog (Reports)

theorem reports_checkRepNotifies (s : ClassState) : Reports [] s.log s.checkRepNotifies.log :=
  .foldl log (fun s _ ↦ .warning s.log _ _) _ s

theorem reports_checkDelegates (s : ClassState) : Reports [] s.log s.checkDelegates.log :=
  .foldl log (fun s _ ↦ .warning s.log _ _) _ s

theorem reports_applyDeclared (cls : Class) (acc : DefaultObject × MessageLog)
    (v : VariableDescription) : Reports [] acc.2 (applyDeclared cls acc v).2 := by
  unfold applyDeclared
  dsimp only
  split
  · exact .refl _
  · split
    · exact .refl _
    · exact .warning _ _ _

theorem reports_buildDefaults (s : ClassState) (b : Blueprint) (old : Option DefaultObject)
    (isRegenerating : Bool) : Reports [] s.log (s.buildDefaults b old isRegenerating).log := by
  have hdeclared (acc : DefaultObject × MessageLog) :
      Reports [] acc.2 (b.newVariables.foldl (applyDeclared s.cls) acc).2 :=
    .foldl Prod.snd (reports_applyDeclared s.cls) _ acc
  unfold buildDefaults
  dsimp only
  split
  · exact hdeclared (zeroDefaults s.cls, s.log)
  · exact hdeclared (_, s.log)

end ClassState

namespace Compilation

variable {env : CompileEnv}

/-- Once its functions are finished, a class gives rise to warnings at most. -/
theorem reports_finishClass (c : Compilation) (old : Option DefaultObject) :
    MessageLog.Reports [] c.log (c.finishClass env old).log := by
  have hbound : MessageLog.Reports [] c.log (c.contexts.foldl bindDelegate c).log :=
    .foldl log reports_bindDelegate _ c
  unfold finishClass
  extract_lets c' s s' s'' s₃
  have hchecked : MessageLog.Reports [] c'.log s'.log :=
    (s.reports_checkRepNotifies).trans s.checkRepNotifies.reports_checkDelegates
  exact (hbound.trans hchecked).trans (s''.reports_buildDefaults c'.blueprint old _)

theorem sources_deliver (c : Compilation) : (c.deliver env).log.sources = c.log.sources := by
  unfold deliver
  dsimp only
  split
  · exact List.foldlRecOn (motive := fun log : MessageLog ↦ log.sources = c.log.sources) _ _ rfl
      fun _ hlog _ _ ↦ hlog
  · rfl

/-! ## Names of graphs -/

/-- Names differ where a graph takes objects from another: the event graph from its pages, the
stub of an event from the event graph and through it from a page, and all graphs from macros. -/
structure GraphsApart (env : CompileEnv) (c : Compilation) : Prop where
  page : ∀ page ∈ c.blueprint.ubergraphPages, page.name ≠ env.schema.ubergraphFunctionName
  stub : ∀ d ∈ (c.addFunctions env).contexts, d.stub.isSome = true →
    d.graph.name ≠ env.schema.ubergraphFunctionName ∧
      ∀ page ∈ c.blueprint.ubergraphPages, d.graph.name ≠ page.name
  copied : ∀ m ∈ c.blueprint.macroGraphs, m.name ≠ env.schema.ubergraphFunctionName ∧
    ∀ g ∈ c.blueprint.functionGraphs ++ c.blueprint.delegateSignatureGraphs ++
      c.blueprint.implementedInterfaces.flatMap (·.graphs), m.name ≠ g.name

/-- Stubs are above the event graph, which is above all others, and their pins are above those of
macros.  In one graph later nodes are above earlier ones. -/
def rankOf (env : CompileEnv) (c : Compilation) : ObjectRef → ℕ ×ₗ ℕ
  | .node g n => toLex (
    if g = env.schema.ubergraphFunctionName then 1
    else if ∃ d ∈ (c.addFunctions env).contexts, d.stub.isSome = true ∧ d.graph.name = g then 2
    else 0, n.index)
  | .pin g _ _ => toLex (
    if g = env.schema.ubergraphFunctionName then 2
    else if ∃ m ∈ c.blueprint.macroGraphs, m.name = g then 0
    else 1, 0)
  | .property _ => toLex (3, 0)
  | _ => toLex (0, 0)

variable {c : Compilation}

theorem rankOf_lt_of_node (g : String) {m n : NodeId} (h : m.index < n.index) :
    c.rankOf env (.node g m) < c.rankOf env (.node g n) :=
  Prod.Lex.toLex_lt_toLex.2 (.inr ⟨rfl, h⟩)

theorem propertiesAbove_rankOf (env : CompileEnv) (c : Compilation) :
    PropertiesAbove (c.rankOf env) := by
  intro object name hobject
  refine Prod.Lex.toLex_lt_toLex.2 (.inl ?_)
  cases object with
  | property name' => exact absurd rfl (hobject name')
  | node g n =>
    show (if _ then 1 else if _ then 2 else 0) < 3
    split_ifs <;> decide
  | pin g n p =>
    show (if _ then 2 else if _ then 0 else 1) < 3
    split_ifs <;> decide
  | _ => exact Nat.zero_lt_succ _

theorem GraphsApart.ranked (h : c.GraphsApart env) : c.Ranked (c.rankOf env) env := by
  have hcopied (m : Graph) (hm : m ∈ c.blueprint.macroGraphs) (n : NodeId) (p : PinId) :
      c.rankOf env (.pin m.name n p) = toLex (0, 0) := by
    rw [rankOf, if_neg (h.copied m hm).1, if_pos ⟨m, hm, rfl⟩]
  refine ⟨fun page hpage ↦ ⟨fun m n ↦ ?_, fun m p n q ↦ ?_⟩, ⟨rankOf_lt_of_node _, ?_⟩,
    fun g hg ↦ ⟨rankOf_lt_of_node _, ?_⟩, fun d hd hstub m n ↦ ?_⟩
  · have hstub : ¬∃ d ∈ (c.addFunctions env).contexts, d.stub.isSome = true ∧
        d.graph.name = page.name :=
      fun ⟨d, hd, hstub, hname⟩ ↦ (h.stub d hd hstub).2 page hpage hname
    rw [rankOf, rankOf, if_neg (h.page page hpage), if_neg hstub, if_pos rfl]
    exact Prod.Lex.toLex_lt_toLex.2 (.inl Nat.zero_lt_one)
  · rw [rankOf, rankOf, if_neg (h.page page hpage), if_pos rfl]
    refine Prod.Lex.toLex_lt_toLex.2 (.inl ?_)
    dsimp only
    split_ifs <;> decide
  · intro m hm n p k q
    rw [hcopied m hm, rankOf, if_pos rfl]
    exact Prod.Lex.toLex_lt_toLex.2 (.inl Nat.zero_lt_two)
  · intro m hm n p k q
    have hother : ¬∃ m ∈ c.blueprint.macroGraphs, m.name = g.name :=
      fun ⟨m, hm, hname⟩ ↦ (h.copied m hm).2 g hg hname
    rw [hcopied m hm, rankOf, if_neg hother]
    refine Prod.Lex.toLex_lt_toLex.2 (.inl ?_)
    dsimp only
    split_ifs <;> decide
  · rw [rankOf, rankOf, if_pos rfl, if_neg (h.stub d hd hstub).1, if_pos ⟨d, hd, hstub, rfl⟩]
    exact Prod.Lex.toLex_lt_toLex.2 (.inl Nat.one_lt_two)

end Compilation

/-! ## The whole compile -/

namespace Blueprint

theorem sources_shaped (b : Blueprint) (suffix : Bool) : (b.shaped suffix).log.sources = [] := by
  have hshaped := (b.declares_shaped suffix).sources
  dsimp only at hshaped
  rw [hshaped, (b.reports_settleNames .empty).sources]
  rfl

/-- No chain of sources returns to where it began if the names of graphs are apart, and every object
is traced to the end of its chain. -/
theorem acyclic_of_compile (b : Blueprint) (options : CompileOptions) (suffix : Bool)
    (hapart : (b.shaped suffix).GraphsApart (b.environment options)) :
    (b.compile options suffix).log.Acyclic ∧ ∀ object,
      (b.compile options suffix).log.EndsAt object
        ((b.compile options suffix).log.sourceOf object) := by
  let rank := (b.shaped suffix).rankOf (b.environment options)
  have hshaped : (b.shaped suffix).log.Descends rank :=
    MessageLog.Descends.empty.of_sources (b.sources_shaped suffix)
  have hcompiled := Compilation.descends_compileFunctions
    (Compilation.propertiesAbove_rankOf _ _) hapart.ranked hshaped rfl
  have hdescends : (b.compile options suffix).log.Descends rank := by
    rw [compile_eq_deliver]
    refine hcompiled.of_sources ((Compilation.sources_deliver _).trans ?_)
    exact (Compilation.reports_finishClass _ _).sources
  exact ⟨hdescends.acyclic, hdescends.endsAt_sourceOf⟩

/-! ### Doors -/

/-- A page on which the event that opens a door sets a variable that the door does not have. -/
def openingPage (name : String) : Graph :=
  let (event, g) := (Graph.empty name).spawn (.event (.custom "Open"))
  let (set, g) := g.spawn (.variableSet (some (.selfMember "Locked" .boolean)))
  g.wired event PinName.thenOut set PinName.execute

def door (page : String) : Blueprint :=
  { Blueprint.new "Door" (Class.new "Actor" none) with ubergraphPages := [openingPage page] }

theorem acyclic_of_compile_door :
    let b := door "Events"
    let c := b.compile .full false
    let assignment : ObjectRef := .node "ExecuteUbergraph_Door" ⟨1⟩
    (b.shaped false).GraphsApart (b.environment .full) ∧
      c.log.Traces assignment (.node "Events" ⟨1⟩) ∧
      c.log.Acyclic ∧ ∀ object, c.log.EndsAt object (c.log.sourceOf object) := by
  intro b c assignment
  have hapart : (b.shaped false).GraphsApart (b.environment .full) :=
    ⟨by decide +kernel, by decide +kernel, by decide +kernel⟩
  have htraces : c.log.sources.lookup assignment = some (.node "Events" ⟨1⟩) := by decide +kernel
  exact ⟨hapart, htraces, acyclic_of_compile b .full false hapart⟩

/-- The stub of an event on a page of its own name comes from the event graph, and the event graph
from the page. -/
theorem not_acyclic_of_compile :
    ¬(∀ (b : Blueprint) (options : CompileOptions) (suffix : Bool),
      (b.compile options suffix).log.Acyclic) ∧
    ¬∀ (b : Blueprint) (options : CompileOptions) (suffix : Bool),
      ∀ c ∈ (b.compile options suffix).contexts, ∀ n ∈ c.graph.order,
        (b.compile options suffix).log.EndsAt (c.graph.nodeRef n)
          ((b.compile options suffix).log.sourceOf (c.graph.nodeRef n)) := by
  constructor
  · intro h
    have hstub : ((door "Open").compile .full false).log.sources.lookup (.node "Open" ⟨0⟩) =
        some (.node "ExecuteUbergraph_Door" ⟨0⟩) := by decide +kernel
    have hpage : ((door "Open").compile .full false).log.sources.lookup
        (.node "ExecuteUbergraph_Door" ⟨0⟩) = some (.node "Open" ⟨0⟩) := by decide +kernel
    exact h (door "Open") .full false _ (.tail (.single hstub) hpage)
  · intro h
    have hcycle : ∃ c ∈ ((door "Open").compile .full false).contexts, ∃ n ∈ c.graph.order,
        ((door "Open").compile .full false).log.sources.lookup
          (((door "Open").compile .full false).log.sourceOf (c.graph.nodeRef n)) ≠ none := by
      decide +kernel
    obtain ⟨c, hc, n, hn, hlookup⟩ := hcycle
    exact hlookup (h (door "Open") .full false c hc n hn).last

end Blueprint

end VisualScript
