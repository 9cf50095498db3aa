import VisualScript.Proofs.Code.Supplies
import VisualScript.Proofs.Code.Walk
import VisualScript.Proofs.Compile.Functions
import VisualScript.Proofs.Compile.Simplification
import VisualScript.Proofs.Compile.Sources
import VisualScript.Proofs.Compile.Storage
import VisualScript.Proofs.Graph.Linking

/-!
# Compiled functions walk their graphs

The code that the passes make of a function performs the walk along its graph:
inlining gathers the operations of a visit, and neither the order of the nodes nor
the jumps that are dropped change a run.
-/

namespace VisualScript

open Machine

/-- Members of a list that contribute nothing may be left out. -/
theorem flatMap_eq_of_sublist {α β : Type} {f : α → List β} {p : α → Bool} {part list : List α}
    (hnodup : list.Nodup) (hpart : part.Sublist list) (hp : ∀ a ∈ part, p a = true)
    (hmissing : ∀ a ∈ list, p a = true → a ∉ part → f a = []) :
    part.flatMap f = (list.filter p).flatMap f := by
  induction hpart with
  | slnil => rfl
  | @cons part list a hpart ih =>
    obtain ⟨ha, hrest⟩ := List.nodup_cons.1 hnodup
    rw [ih hrest hp fun b hb ↦ hmissing b (List.mem_cons_of_mem a hb)]
    by_cases hkeep : p a = true
    · rw [List.filter_cons_of_pos hkeep, List.flatMap_cons,
        hmissing a List.mem_cons_self hkeep fun hmem ↦ ha (hpart.subset hmem), List.nil_append]
    · rw [List.filter_cons_of_neg hkeep]
  | @cons_cons part list a hpart ih =>
    obtain ⟨ha, hrest⟩ := List.nodup_cons.1 hnodup
    rw [List.filter_cons_of_pos (hp a List.mem_cons_self), List.flatMap_cons, List.flatMap_cons,
      ih hrest (fun b hb ↦ hp b (List.mem_cons_of_mem a hb)) fun b hb hkeep hmem ↦ ?_]
    refine hmissing b (List.mem_cons_of_mem a hb) hkeep fun hb' ↦ ?_
    rcases List.mem_cons.1 hb' with rfl | hb'
    · exact ha hb
    · exact hmem hb'

namespace FunctionContext

/-! ## Sorted nodes -/

theorem mem_sortForFallThrough {c : FunctionContext} {n : NodeId} :
    n ∈ c.sortForFallThrough.executionList ↔ n ∈ c.executionList := by
  rw [sortForFallThrough, List.mem_reverse, mem_reach]
  constructor
  · exact Reaches.mem_vertices
  · intro hn
    exact .start (List.mem_append_right _ hn) hn

theorem nodup_sortForFallThrough (c : FunctionContext) :
    c.sortForFallThrough.executionList.Nodup :=
  List.nodup_reverse.2 nodup_reach

/-- The entry comes first. -/
theorem exists_sortForFallThrough_eq_cons {c : FunctionContext} {entry : NodeId}
    (hentry : c.entryPoint = some entry) (hmem : entry ∈ c.executionList) :
    ∃ rest, c.sortForFallThrough.executionList = entry :: rest := by
  rw [sortForFallThrough, hentry]
  exact reverse_reach_cons hmem

theorem startOf_sortForFallThrough {c d : FunctionContext} {entry : NodeId}
    (hentry : c.entryPoint = some entry) (hmem : entry ∈ c.executionList) :
    d.startOf c.sortForFallThrough.executionList entry = 0 := by
  obtain ⟨rest, hlist⟩ := exists_sortForFallThrough_eq_cons hentry hmem
  rw [hlist, startOf, List.takeWhile_cons_of_neg (by simp)]
  rfl

/-! ## The code of a visit -/

section Visit

variable {c : FunctionContext} {env : CompileEnv} {ε : Type} {o : Observer ε} {n : NodeId}
  (hsilent : ∀ s : Statement, s.isOperation = false → o.sees s = [])
include hsilent

theorem flatMap_sees_eq_nil {code : List Statement} (h : ∀ s ∈ code, s.isMarker = true) :
    code.flatMap o.sees = [] :=
  List.flatMap_eq_nil_iff.2 fun s hs ↦ hsilent s (Statement.isOperation_of_isMarker (h s hs))

theorem flatMap_sees_marksOf {kind : NodeKind} : (c.marksOf n env kind).flatMap o.sees = [] :=
  flatMap_sees_eq_nil hsilent fun _ hs ↦ c.isMarker_of_mem_marksOf n hs

/-- Of a pure node only its operations are seen. -/
theorem flatMap_sees_codeOfNode (hpure : c.graph.isPure n = true) :
    (c.codeOfNode n env).flatMap o.sees = (c.operations n).flatMap o.sees := by
  unfold codeOfNode operations
  cases hkind : c.graph.kind? n with
  | none => rfl
  | some kind =>
    rw [Graph.isPure_of_kind? hkind] at hpure
    dsimp only
    rw [c.exitOf_of_isPure n hpure, List.append_nil, List.flatMap_append,
      flatMap_sees_marksOf hsilent, List.nil_append]
    rfl

/-- A node without code has no operations. -/
theorem flatMap_sees_operations (h : (c.codeOfNode n env).any (!·.isMarker) = false) :
    (c.operations n).flatMap o.sees = [] := by
  refine flatMap_sees_eq_nil hsilent fun s hs ↦ ?_
  unfold operations at hs
  unfold codeOfNode at h
  cases hkind : c.graph.kind? n with
  | none =>
    rw [hkind] at hs
    cases hs
  | some kind =>
    rw [hkind] at hs h
    have hmem : s ∈ c.marksOf n env kind ++ (c.operationsOf n kind ++ c.exitOf n kind) :=
      List.mem_append_right _ (List.mem_append_left _ hs)
    simpa using List.any_eq_false.1 h s hmem

end Visit

theorem isStraight_of_mem_codeOfNode {c : FunctionContext} {env : CompileEnv} {n : NodeId}
    {s : Statement} (hpure : c.graph.isPure n = true) (h : s ∈ c.codeOfNode n env) :
    s.isStraight = true := by
  unfold codeOfNode at h
  cases hkind : c.graph.kind? n with
  | none =>
    rw [hkind] at h
    cases h
  | some kind =>
    rw [hkind] at h
    rw [Graph.isPure_of_kind? hkind] at hpure
    dsimp only at h
    rw [c.exitOf_of_isPure n hpure, List.append_nil] at h
    rcases List.mem_append.1 h with h | h
    · exact Statement.isStraight_of_isMarker (c.isMarker_of_mem_marksOf n h)
    · exact Statement.isStraight_of_isOperation (c.isOperation_of_mem_operationsOf n h)

section Passes

variable {c : FunctionContext} {cls : Class} {env : CompileEnv} {ε : Type} {o : Observer ε}
  {table : List (NodeId × List Statement)} {n : NodeId}

/-- Every node of a prepared function is scheduled. -/
theorem Prepared.mem_executionList (h : c.Prepared cls) : n ∈ c.executionList ↔ n ∈ c.graph.order :=
  Inline.mem_executionList h.scheduled

/-- A node that is scheduled once has its code once. -/
theorem statementsOf_of_count (hdistinct : c.executionList.Nodup)
    (hcode : ∀ m, (c.withCode table).statementsOf m =
      (c.executionList.filter (· = m)).flatMap (c.codeOfNode · env))
    (hn : n ∈ c.executionList) : (c.withCode table).statementsOf n = c.codeOfNode n env := by
  rw [hcode n, List.filter_eq, List.count_eq_one_of_mem hdistinct hn]
  simp

/-- The code that is inlined for a node performs what all its sources do: a source that is left
out has no code. -/
theorem sees_needed (hdistinct : c.executionList.Nodup)
    (hsilent : ∀ s : Statement, s.isOperation = false → o.sees s = [])
    {needed : List NodeId} (hsublist : needed.Sublist c.executionList)
    (hsources : needed ⊆ c.graph.sources n)
    (hcomplete : ∀ m ∈ c.graph.sources n, m ∈ c.executionList →
      (c.codeOfNode m env).any (!·.isMarker) = true → m ∈ needed) :
    needed.flatMap (fun m ↦ (c.codeOfNode m env).flatMap o.sees) =
      (c.executionList.filter (· ∈ c.graph.sources n)).flatMap
        fun m ↦ (c.operations m).flatMap o.sees := by
  rw [← flatMap_eq_of_sublist hdistinct hsublist (fun m hm ↦ decide_eq_true (hsources hm))]
  · exact List.flatMap_congr fun m hm ↦
      flatMap_sees_codeOfNode hsilent (Graph.isPure_of_mem_sources (hsources hm))
  · intro m hm hsource hmissing
    have hsilentNode : (c.codeOfNode m env).any (!·.isMarker) = false := by
      rw [← Bool.not_eq_true]
      exact fun hgen ↦ hmissing (hcomplete m (of_decide_eq_true hsource) hm hgen)
    exact flatMap_sees_operations hsilent hsilentNode

/-- The code of a node that runs goes straight up to its exits. -/
theorem isStraight_of_mem_visited {needed : List NodeId} {kind : NodeKind} {s : Statement}
    (hpure : ∀ m ∈ needed, c.graph.isPure m = true)
    (hs : s ∈ needed.flatMap (c.codeOfNode · env) ++ (c.marksOf n env kind ++ c.operationsOf n kind)) :
    s.isStraight = true := by
  rcases List.mem_append.1 hs with hs | hs
  · obtain ⟨m, hm, hs⟩ := List.mem_flatMap.1 hs
    exact isStraight_of_mem_codeOfNode (hpure m hm) hs
  · rcases List.mem_append.1 hs with hs | hs
    · exact Statement.isStraight_of_isMarker (c.isMarker_of_mem_marksOf n hs)
    · exact Statement.isStraight_of_isOperation (c.isOperation_of_mem_operationsOf n hs)

/-- Inlining gives every node that runs the code of a visit. -/
theorem code_inlinePureNodes (hprepared : c.Prepared cls) (hwf : c.graph.WellFormed)
    (hpaired : c.graph.ReadsPaired)
    (hsilent : ∀ s : Statement, s.isOperation = false → o.sees s = [])
    (hcode : ∀ m, (c.withCode table).statementsOf m =
      (c.executionList.filter (· = m)).flatMap (c.codeOfNode · env))
    (hn : n ∈ c.executionList) (himpure : c.graph.isPure n = false) :
    ∃ code kind, c.graph.kind? n = some kind ∧
      (c.withCode table).inlinePureNodes.statementsOf n = code ++ c.exitOf n kind ∧
      (∀ s ∈ code, s.isStraight = true) ∧
      code.flatMap o.sees = (c.visit n).flatMap o.sees := by
  have hdistinct : c.executionList.Nodup :=
    Inline.nodup_executionList hprepared.scheduled hwf.nodup_order
  have hone {m : NodeId} (hm : m ∈ c.executionList) :
      (c.withCode table).statementsOf m = c.codeOfNode m env :=
    statementsOf_of_count hdistinct hcode hm
  obtain ⟨node, hnode⟩ := Option.isSome_iff_exists.1
    ((hwf.mem_order n).1 (hprepared.mem_executionList.1 hn))
  have hkind : c.graph.kind? n = some node.kind := Option.map_eq_some_iff.2 ⟨node, hnode, rfl⟩
  obtain ⟨-, hinline⟩ := inlinePureNodes_spec (c := c.withCode table)
    hprepared.scheduled hpaired hwf.nodup_order
  obtain ⟨needed, hsublist, hsources, hcomplete, hstatements⟩ : ∃ needed : List NodeId,
      needed.Sublist c.executionList ∧ needed ⊆ c.graph.sources n ∧
      (∀ m ∈ c.graph.sources n, (c.withCode table).generatedCode m = true → m ∈ needed) ∧
      (c.withCode table).inlinePureNodes.statementsOf n =
        needed.flatMap (c.withCode table).statementsOf ++ (c.withCode table).statementsOf n :=
    hinline n hn himpure
  have hneeded : needed.flatMap (c.withCode table).statementsOf =
      needed.flatMap (c.codeOfNode · env) :=
    List.flatMap_congr fun m hm ↦ hone (hsublist.subset hm)
  refine ⟨needed.flatMap (c.codeOfNode · env) ++
    (c.marksOf n env node.kind ++ c.operationsOf n node.kind), node.kind, hkind, ?_,
    fun s ↦ isStraight_of_mem_visited fun m hm ↦ Graph.isPure_of_mem_sources (hsources hm), ?_⟩
  · rw [hstatements, hneeded, hone hn]
    simp only [codeOfNode, hkind, List.append_assoc]
  · have hseen : needed.flatMap (fun m ↦ (c.codeOfNode m env).flatMap o.sees) =
        (c.executionList.filter (· ∈ c.graph.sources n)).flatMap
          fun m ↦ (c.operations m).flatMap o.sees :=
      sees_needed hdistinct hsilent hsublist hsources fun m hm hlisted hgen ↦
        hcomplete m hm (by rwa [generatedCode, hone hlisted])
    have hown : c.operations n = c.operationsOf n node.kind := by
      rw [operations, hkind]
      rfl
    rw [visit, hprepared.scheduled, List.flatMap_append, List.flatMap_assoc, hseen,
      List.flatMap_append, flatMap_sees_marksOf hsilent, List.nil_append, List.flatMap_assoc,
      List.flatMap_append, List.flatMap_singleton, hown]

/-- The passes make of a function code that performs the walk along its graph. -/
theorem performs (hprepared : c.Prepared cls) (henv : env.HandlesAll)
    (hfunction : c.isEventGraph = false) (hwf : c.graph.WellFormed) (hpaired : c.graph.ReadsPaired)
    (hsilent : ∀ s : Statement, s.isOperation = false → o.sees s = [])
    (hcode : ∀ m, (c.withCode table).statementsOf m =
      (c.executionList.filter (· = m)).flatMap (c.codeOfNode · env))
    (hcompilable : ∀ n ∈ c.executionList, c.Compilable n env) :
    c.Performs (c.withCode table).inlinePureNodes.sortForFallThrough o := by
  obtain ⟨table', list, hframe⟩ := (c.withCode table).inlinePureNodes_eq
  obtain ⟨hlist, -⟩ := inlinePureNodes_spec (c := c.withCode table)
    hprepared.scheduled hpaired hwf.nodup_order
  have hmem (n : NodeId) : n ∈ (c.withCode table).inlinePureNodes.sortForFallThrough.executionList ↔
      n ∈ c.executionList ∧ c.graph.isPure n = false := by
    rw [mem_sortForFallThrough, hlist, List.mem_filter]
    simp [withCode]
  refine ⟨by rw [hframe]; rfl, hfunction, ?_, fun n ↦ ?_, fun n hn ↦ ?_, hsilent, fun n hn ↦ ?_⟩
  · rw [hframe]
    exact (if_neg (by rw [hfunction]; decide) :
      (if c.isEventGraph then [Statement.endOfThread, .ret] else [.ret]) = [.ret])
  · rw [hmem, hprepared.mem_executionList]
  · obtain ⟨hn, himpure⟩ := (hmem n).1 hn
    exact code_inlinePureNodes hprepared hwf hpaired hsilent hcode hn himpure
  · intro kind hkind
    obtain ⟨hn, -⟩ := (hmem n).1 hn
    obtain ⟨hhandles, hbranch⟩ := hcompilable n hn kind hkind
    exact ⟨(henv kind).symm.trans hhandles, (hprepared.placed hfunction n hn kind hkind).2, hbranch⟩

theorem Performs.jumpsToPins {d : FunctionContext} (h : c.Performs d o) : d.JumpsToPins := by
  intro n hn s hs
  obtain ⟨code, kind, -, hstatements, hstraight, -⟩ := h.code n hn
  rw [hstatements] at hs
  rcases List.mem_append.1 hs with hs | hs
  · exact Statement.jumpsToPins_of_isStraight (hstraight s hs)
  · exact c.jumpsToPins_of_mem_exitOf n hs

/-- The script of a finished function runs like the walk from its entry. -/
theorem sameRuns_walk {c₂ c₃ d : FunctionContext} {entry : NodeId} (hprepared : c.Prepared cls)
    (henv : env.HandlesAll) (hfunction : c.isEventGraph = false)
    (hstub : c.flags.interfaceStub = false) (hwf : c.graph.WellFormed) (hlinked : c.graph.Linked)
    (hexec : c.graph.ExecJoinsImpure) (hcompiled : c.CompiledFrom env c₂)
    (hfinished : c₂.FinishedFrom c₃) (hentry : c.entryPoint = some entry)
    (hmem : entry ∈ c.graph.order) (himpure : c.graph.isPure entry = false)
    (hstatements : d.statements = c₃.statements) (oracle : List ScriptOp → Operand → Bool) :
    SameRuns (c.walk (d.operationObserver oracle)) entry
      (Script.machine oracle (d.statements.map (d.lower (d.statements.length - 1)))) 0 := by
  cases hcompiled with
  | stub h =>
    rw [hstub] at h
    cases h
  | code table _ hcode hcompilable =>
    have hperforms := performs hprepared henv hfunction hwf (Graph.readsPaired hwf hlinked hexec)
      (fun _ hs ↦ d.sees_operationObserver oracle hs) hcode hcompilable
    obtain ⟨table', list, hframe⟩ := (c.withCode table).inlinePureNodes_eq
    cases hfinished with
    | stub flags h =>
      rw [hframe] at h
      cases hstub.symm.trans h
    | code flags _ =>
      generalize hc₂ : (c.withCode table).inlinePureNodes = c₂ at *
      have hentry₂ : c₂.entryPoint = some entry := by rw [hframe]; exact hentry
      have hlist : entry ∈ c₂.sortForFallThrough.executionList :=
        (hperforms.mem entry).2 ⟨hmem, himpure⟩
      have hwalk := (hperforms.simulation hwf hlinked).sameRuns ⟨hlist, rfl⟩
      have hresolved := (sameRuns_plainMachine (d.operationObserver oracle)
        c₂.nodup_sortForFallThrough hperforms.jumpsToPins entry).mapFinal endedWell
      rw [startOf_sortForFallThrough (d := c₂.sortForFallThrough.dropAllRedundant) hentry₂
        (mem_sortForFallThrough.1 hlist)] at hresolved
      have hmachine := d.machine_lower oracle d.statements
      rw [hmachine, hstatements]
      exact hwalk.trans hresolved

end Passes

end FunctionContext

/-!
## Runs of compiled functions

The script that a full compile makes of a function performs the walk along the graph
as it was prepared, whatever an oracle decides.
-/

/-! ### Where a walk begins -/

namespace Graph

/-- An entry is a node that runs. -/
theorem WellFormed.of_mem_entries {g : Graph} {entry : NodeId} (h : g.WellFormed)
    (hentry : entry ∈ g.nodesWhere (·.isEntry)) : entry ∈ g.order ∧ g.isPure entry = false := by
  rw [h.nodesWhere_eq, List.mem_filter] at hentry
  obtain ⟨kind, hkind, htag⟩ := (Option.any_eq_true _ _).1 hentry.2
  refine ⟨hentry.1, ?_⟩
  rw [isPure_of_kind? hkind]
  cases kind with
  | functionEntry data => rfl
  | _ => cases htag

end Graph

namespace FunctionContext

/-- The graph of a function is well-formed and linked and has one entry, where it begins. -/
def Rooted (c : FunctionContext) : Prop :=
  c.isEventGraph = false → c.graph.WellFormed ∧ c.graph.Linked ∧
    ∃ entry, c.entryPoint = some entry ∧ c.graph.nodesWhere (·.isEntry) = [entry]

end FunctionContext

namespace FunctionState

variable {env : CompileEnv} {s : FunctionState}

/-- A function that is prepared without an error is rooted. -/
theorem rooted_precompile (hformed : s.ctx.Formed)
    (hlog : (s.precompile env).log.numErrors ≤ s.log.numErrors) :
    (s.precompile env).ctx.Rooted := by
  intro hfunction
  have hwf : s.graph.WellFormed := by
    refine hformed ?_
    rw [FunctionContext.isEventGraph, ← (s.precompile_keeps env).1.flags]
    exact hfunction
  obtain ⟨entry, f, t, h⟩ := exists_creates hlog
  have htrims := trims_simplifyGraph env hwf h.findEntry h.simplified
  rw [← h.graph_precompile] at htrims
  exact ⟨htrims.wellFormed, htrims.linked, entry, h.entryPoint_precompile,
    htrims.nodesWhere_eq hwf List.mem_cons_self (findEntry_eq_ok h.findEntry)⟩

end FunctionState

namespace Blueprint

open FunctionContext

variable {b : Blueprint} {options : CompileOptions} {suffix : Bool}

/-- The functions after the passes are those that were prepared. -/
theorem functionNames_passed (b : Blueprint) (options : CompileOptions) (suffix : Bool) :
    (b.passed options suffix).contexts.map (·.functionName) =
      (b.precompiled options suffix).contexts.map (·.functionName) := by
  obtain ⟨-, -, hcompile⟩ := Compilation.runPass_keeps (fun _ ↦ true)
    (Compilation.keeps_compile (b.environment options)) (b.precompiled options suffix)
  obtain ⟨-, -, hpost⟩ := Compilation.runPass_keeps (fun _ ↦ true) Compilation.keeps_postcompile
    ((b.precompiled options suffix).runPass (fun _ ↦ true) (·.compile (b.environment options)))
  exact hpost.trans hcompile

/-- Without an error, the script of a function performs the walk along the graph that preparation
left. -/
theorem sameRuns_of_compile (hwf : b.WellFormed) (hfull : options.compileType = .full)
    (hlog : (b.compile options suffix).log.numErrors = 0) {c : FunctionContext}
    (hc : c ∈ (b.precompiled options suffix).contexts) (hfunction : c.isEventGraph = false)
    (hstub : c.flags.interfaceStub = false) (hexec : c.graph.ExecJoinsImpure) :
    ∃ d ∈ (b.compile options suffix).contexts, ∃ f entry,
      d.functionName = c.functionName ∧ (c.stub = none → d.terms = c.terms) ∧
      (b.compile options suffix).cls.findOwnFunction? c.functionName = some f ∧
      c.graph.nodesWhere (·.isEntry) = [entry] ∧
      ∀ oracle, SameRuns (c.walk (d.operationObserver oracle)) entry
        (Script.machine oracle f.script) 0 := by
  obtain ⟨hfinished, hapart⟩ := finished_of_compile hfull hlog Formed Rooted
    (fun s _ ↦ FunctionState.rooted_precompile)
    fun d hd ↦ b.formed_of_mem_addFunctions hwf options suffix hd
  obtain ⟨d, hd, hname⟩ : ∃ d ∈ (b.passed options suffix).contexts,
      d.functionName = c.functionName := by
    have hmem := List.mem_map_of_mem (f := FunctionContext.functionName) hc
    rwa [← functionNames_passed, List.mem_map] at hmem
  obtain ⟨c₁, c₂, hready, hcompiled, hcode⟩ := hfinished d hd
  obtain ⟨hrooted, hc₁⟩ := hready.origin
  obtain ⟨table, list, hframe⟩ := hcompiled.frame
  obtain ⟨table', list', code, labels, flags, hframe'⟩ := hcode.frame
  -- The names of the functions are different, so that it was made of this one.
  have hnodup : ((b.precompiled options suffix).contexts.map (·.functionName)).Nodup := by
    rw [← functionNames_passed]
    exact List.pairwise_map.2 (hapart.imp (·.functionName))
  have hsame : d.functionName = c₁.functionName := by
    rw [hframe', hframe]
    rfl
  obtain rfl := List.inj_on_of_nodup_map hnodup hc₁ hc (hsame.symm.trans hname)
  obtain ⟨hgraph, hlinked, entry, hentry, hentries⟩ := hrooted hfunction
  obtain ⟨hmem, himpure⟩ := hgraph.of_mem_entries (hentries ▸ List.mem_singleton_self entry)
  have hd' : Compilation.patchStub (b.passed options suffix).eventLabels d ∈
      (b.compile options suffix).contexts := by
    rw [contexts_compile hfull]
    exact List.mem_map_of_mem hd
  obtain ⟨hstatements, -⟩ :=
    Compilation.statements_patchStub d (b.passed options suffix).eventLabels
  have hfunctionName := (Compilation.sameStorage_patchStub (b.passed options suffix).eventLabels
    (hfinished d hd).keeps.2.1).functionName
  obtain ⟨-, f, hf, hscript⟩ := script_of_compile hfull hlog hd'
  rw [hfunctionName, hname] at hf
  refine ⟨_, hd', f, entry, hfunctionName.trans hname, fun hordinary ↦ ?_, hf, hentries,
    fun oracle ↦ ?_⟩
  · have hstubless : d.stub = none := by
      rw [hframe', hframe]
      exact hordinary
    rw [Compilation.patchStub, hstubless, hframe', hframe]
    rfl
  · rw [hscript]
    exact sameRuns_walk hready.toPrepared handlesAll_environment hfunction hstub hgraph hlinked
      hexec hcompiled hcode hentry hmem himpure hstatements oracle

/-! #### Waiting -/

/-- A function that calls until something is ready. -/
def waiting : Blueprint :=
  let (entry, g) := (Graph.empty "Wait").spawn (.functionEntry {})
  let (branch, g) := g.spawn .branch
  let (ready, g) := g.spawn (.callFunction (.library "IsReady" "Lib" true))
  let (_, g) := g.allocPin ready .output { name := PinName.returnValue, ty := .boolean }
  let (tick, g) := g.spawn (.callFunction (.library "Tick" "Lib" false))
  let (result, g) := g.spawn .functionResult
  let g := g.wired entry PinName.thenOut branch PinName.execute
  let g := g.wired ready PinName.returnValue branch PinName.condition
  let g := g.wired branch PinName.elseOut tick PinName.execute
  let g := g.wired tick PinName.thenOut branch PinName.execute
  let g := g.wired branch PinName.thenOut result PinName.execute
  { Blueprint.new "Waiting" (Class.new "Actor" none) with functionGraphs := [g] }

theorem sameRuns_of_compile_waiting : waiting.WellFormed ∧
    CompileOptions.full.compileType = .full ∧ (waiting.compile .full true).log.numErrors = 0 ∧
    ∃ c ∈ (waiting.precompiled .full true).contexts, c.functionName = "Wait" ∧
      c.isEventGraph = false ∧ c.flags.interfaceStub = false ∧ c.graph.ExecJoinsImpure ∧
      ∃ d ∈ (waiting.compile .full true).contexts, ∃ f entry,
        d.functionName = c.functionName ∧ (c.stub = none → d.terms = c.terms) ∧
        (waiting.compile .full true).cls.findOwnFunction? c.functionName = some f ∧
        c.graph.nodesWhere (·.isEntry) = [entry] ∧
        ∀ oracle, SameRuns (c.walk (d.operationObserver oracle)) entry
          (Script.machine oracle f.script) 0 := by
  have hwf : waiting.WellFormed := by
    have hgraphs : ∀ g ∈ waiting.allGraphs, g.WellFormed := by decide +kernel
    exact hgraphs
  have hfull : CompileOptions.full.compileType = .full := rfl
  have hlog : (waiting.compile .full true).log.numErrors = 0 := by decide +kernel
  obtain ⟨c, hc, hname, hfunction, hstub, hexec⟩ :
      ∃ c ∈ (waiting.precompiled .full true).contexts, c.functionName = "Wait" ∧
        c.isEventGraph = false ∧ c.flags.interfaceStub = false ∧ c.graph.ExecJoinsImpure := by
    decide +kernel
  exact ⟨hwf, hfull, hlog, c, hc, hname, hfunction, hstub, hexec,
    sameRuns_of_compile hwf hfull hlog hc hfunction hstub hexec⟩

/-! #### Nodes that a graph does not list -/

/-- A function whose graph has a call that its order leaves out. -/
def unlisted : Blueprint :=
  let (entry, g) := (Graph.empty "Step").spawn (.functionEntry {})
  let (tick, g) := g.spawn (.callFunction (.library "Tick" "Lib" false))
  let g := g.wired entry PinName.thenOut tick PinName.execute
  { Blueprint.new "Skip" (Class.new "Actor" none) with
    functionGraphs := [{ g with order := [entry] }] }

/-- Only the nodes that a graph lists get code, but its links lead on to the others as well. -/
theorem not_sameRuns_of_compile : ¬∀ (b : Blueprint) (options : CompileOptions) (suffix : Bool),
    options.compileType = .full → (b.compile options suffix).log.numErrors = 0 →
      ∀ c ∈ (b.precompiled options suffix).contexts, c.isEventGraph = false →
        c.flags.interfaceStub = false → c.graph.ExecJoinsImpure →
          ∃ d ∈ (b.compile options suffix).contexts, ∃ f entry,
            d.functionName = c.functionName ∧ (c.stub = none → d.terms = c.terms) ∧
            (b.compile options suffix).cls.findOwnFunction? c.functionName = some f ∧
            c.graph.nodesWhere (·.isEntry) = [entry] ∧
            ∀ oracle, SameRuns (c.walk (d.operationObserver oracle)) entry
              (Script.machine oracle f.script) 0 := by
  intro h
  let oracle : List ScriptOp → Operand → Bool := fun _ _ ↦ false
  obtain ⟨c, hc, hname, hfunction, hstub, hexec, hentries, hwalks⟩ :
      ∃ c ∈ (unlisted.precompiled .full true).contexts, c.functionName = "Step" ∧
        c.isEventGraph = false ∧ c.flags.interfaceStub = false ∧ c.graph.ExecJoinsImpure ∧
        c.graph.nodesWhere (·.isEntry) = [⟨0⟩] ∧
        ∀ d ∈ (unlisted.compile .full true).contexts,
          ((c.walk (d.operationObserver oracle)).after 2 ([], .inl ⟨0⟩)).1.length = 1 ∧
            ((c.walk (d.operationObserver oracle)).after 2 ([], .inl ⟨0⟩)).2 = .inr true := by
    decide +kernel
  have hruns : ∀ f ∈ (unlisted.compile .full true).cls.findOwnFunction? "Step",
      ((Script.machine oracle f.script).after 2 ([], .inl 0)).1.isEmpty = true ∧
        ((Script.machine oracle f.script).after 2 ([], .inl 0)).2 = .inr true := by
    decide +kernel
  have hlog : (unlisted.compile .full true).log.numErrors = 0 := by decide +kernel
  obtain ⟨d, hd, f, entry, -, -, hf, hentry, hsame⟩ :=
    h unlisted .full true rfl hlog c hc hfunction hstub hexec
  rw [hname] at hf
  obtain rfl : (⟨0⟩ : NodeId) = entry := List.singleton_inj.1 (hentries.symm.trans hentry)
  -- the script ends without an operation, the walk after one
  obtain ⟨hnone, hstops⟩ := hruns f hf
  obtain ⟨hone, hwalk⟩ := hwalks d hd
  have hscript : (Script.machine oracle f.script).StopsWith 0 [] true :=
    ⟨2, Prod.ext (List.isEmpty_iff.1 hnone) hstops⟩
  have hended : (c.walk (d.operationObserver oracle)).StopsWith ⟨0⟩ [] true :=
    ((hsame oracle).stops [] true).2 hscript
  obtain ⟨hevents, -⟩ := hended.unique ⟨2, Prod.ext rfl hwalk⟩
  exact absurd ((congrArg List.length hevents).trans hone) (by decide)

end Blueprint

end VisualScript
