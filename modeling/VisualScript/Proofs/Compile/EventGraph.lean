import VisualScript.Proofs.Code.Inlining
import VisualScript.Proofs.Compile.Lineage
import VisualScript.Proofs.Compile.Listing
import VisualScript.Proofs.Compile.Simplification
import VisualScript.Proofs.Compile.Walking
import VisualScript.Proofs.Jumps.Resolution

/-!
# The compiled event graph

The code of the event graph begins with a jump to where it is told to enter.  The code of every
event stands at its label, and its parameters lie on the class under the names of their nets.
-/

namespace VisualScript

open FunctionContext

/-- A node that has outputs only reads from no other node. -/
theorem Graph.notMem_readers_of_outputs {g : Graph} (hwf : g.WellFormed) (hlinked : g.Linked)
    {n : NodeId} (houtputs : ∀ p ∈ g.pinsOf n, g.directionOf? p = some .output) (m : NodeId) :
    n ∉ g.readers m := by
  intro hn
  obtain ⟨p, hp, hnode⟩ := List.mem_flatMap.1 hn
  obtain ⟨-, pin, hpin, hdirection, -⟩ := Graph.mem_filteredPins.1 hp
  obtain ⟨q, hq, howner⟩ := Graph.mem_linkedNodes.1 hnode
  obtain ⟨pin₀, hpin₀, hlink⟩ := Graph.mem_linksOf.1 hq
  cases hpin.symm.trans hpin₀
  obtain ⟨pin', hpin', -, -, hne⟩ := hlinked p q pin hpin hlink
  have hside := houtputs q ((hwf.mem_pinsOf n q).2 howner)
  rw [Graph.directionOf?, hpin'] at hside
  exact hne ((Option.some.inj hside).trans hdirection.symm)

/-! ## Code of single nodes -/

namespace FunctionContext

variable {env : CompileEnv} {c d : FunctionContext} {n : NodeId}

/-- A node that is not pure keeps its code when the function is compiled, and gets none in front
of it if it reads from no other node. -/
theorem CompiledFrom.code_of_impure {cls : Class} (h : c.CompiledFrom env d)
    (hprepared : c.Prepared cls) (hwf : c.graph.WellFormed)
    (hstub : c.flags.interfaceStub = false) {kind : NodeKind}
    (hkind : c.graph.kind? n = some kind) (himpure : kind.isPure = false) :
    n ∈ d.executionList ∧ c.codeOfNode n env <:+ d.statementsOf n ∧
      ((∀ m, n ∉ c.graph.readers m) → d.statementsOf n = c.codeOfNode n env) := by
  cases h with
  | stub h =>
    rw [hstub] at h
    cases h
  | code table _ hcode _ =>
    have hn := hprepared.mem_executionList.2 (hwf.mem_order_of_kind? hkind)
    have hone : (c.withCode table).statementsOf n = c.codeOfNode n env := statementsOf_of_count
      (Inline.nodup_executionList hprepared.scheduled hwf.nodup_order) hcode hn
    have himpure' : (c.withCode table).graph.isPure n = false :=
      (Graph.isPure_of_kind? hkind).trans himpure
    rw [← hone]
    refine ⟨?_, suffix_inlinePureNodes (c.withCode table) n, fun hreads ↦
      statementsOf_inlinePureNodes_of_notMem (c.withCode table) fun m _ ↦ hreads m⟩
    rw [executionList_inlinePureNodes, List.mem_filter, himpure']
    exact ⟨hn, rfl⟩

/-- The code of a node stands at the label of the node, that of the entry in front of all other.
Only jumps are dropped from it, and no computed ones. -/
theorem FinishedFrom.exists_block (h : c.FinishedFrom d) (hstub : c.flags.interfaceStub = false)
    (hn : n ∈ c.executionList) : ∃ before rest,
      d.statements = before ++ (d.block n ++ rest) ∧ d.nodeLabels.lookup n = some before.length ∧
      (c.entryPoint = some n → before = []) ∧
      (∀ s ∈ c.statementsOf n, s.isStraight = true → s ∈ d.block n) ∧
      ∀ t, c.statementsOf n = [.computedGoto t] → d.block n = [.computedGoto t] := by
  cases h with
  | stub flags h =>
    rw [hstub] at h
    cases h
  | code flags _ =>
    have hn' := mem_sortForFallThrough.2 hn
    obtain ⟨before, rest, hstatements, hlength, hlabel⟩ :=
      c.sortForFallThrough.exists_block c.nodup_sortForFallThrough hn'
    refine ⟨before, rest, hstatements, hlabel, fun hentry ↦ ?_, fun s hs hstraight ↦ ?_,
      fun t hcode ↦ ?_⟩
    · rw [startOf_sortForFallThrough hentry hn] at hlength
      exact List.length_eq_zero_iff.1 hlength
    · have hkept : s ∈ c.sortForFallThrough.dropAllRedundant.statementsOf n :=
        mem_statementsOf_dropped c.sortForFallThrough c.nodup_sortForFallThrough hn' hs
          hstraight
      exact mem_block_of_isStraight hkept hstraight
    · have hkept : c.sortForFallThrough.resolveJumps.statementsOf n = [.computedGoto t] :=
        statementsOf_dropped_of_computedGoto c.sortForFallThrough c.nodup_sortForFallThrough hn'
          hcode
      show c.sortForFallThrough.resolveJumps.block n = [.computedGoto t]
      rw [block, hkept]
      rfl

end FunctionContext

/-! ## The prepared event graph -/

/-- The event graph after its preparation: it begins at its entry, and events are as they were. -/
structure FunctionContext.PreparedEvents (g : Graph) (entry : NodeId) (c : FunctionContext) :
    Prop where
  wellFormed : c.graph.WellFormed
  linked : c.graph.Linked
  entryPoint : c.entryPoint = some entry
  headed : c.graph.Headed entry
  keeps : ∀ e data, g.kind? e = some (.event data) → Graph.KeepsNode e g c.graph

namespace Compilation.EventGraphOf

variable {env : CompileEnv} {g : Graph} {entry : NodeId} {u : FunctionContext} {cls : Class}
  {s : FunctionState} {c₂ c₃ : FunctionContext} (hu : EventGraphOf env g u)
  (hlineage : Lineage env cls u s c₂ c₃)
include hu hlineage

theorem prepared (hwf : g.WellFormed) (hheaded : g.Headed entry) :
    (s.precompile env).ctx.PreparedEvents g entry := by
  obtain rfl := hlineage.listed
  obtain rfl := hu.graph
  obtain ⟨entry', hfind, hentry, hgraph, hquiet⟩ := FunctionState.graph_precompile hlineage.quiet
  obtain ⟨name, hkind⟩ := hheaded.kind?
  -- the graph has one entry, which is that of the consolidated graph
  obtain rfl : entry = entry' := by
    have hmem : entry ∈ s.graph.nodesWhere (·.isEntry) := by
      rw [hwf.nodesWhere_eq, List.mem_filter, Graph.kindIs, hkind]
      exact ⟨hwf.mem_order_of_kind? hkind, rfl⟩
    rwa [FunctionState.findEntry_eq_ok hfind, List.mem_singleton] at hmem
  have htrims := FunctionState.trims_simplifyGraph env hwf hfind hquiet
  have haround (events : List NodeId)
      (hevents : ∀ e ∈ events, ∃ data, s.graph.kind? e = some (.event data)) :
      Graph.Around (entry :: events) s.graph (s.simplifyGraph env entry).graph := by
    refine Graph.Around.simplifyGraph ⟨hwf, ?_, fun n _ ↦ .refl n _⟩ env ?_ List.mem_cons_self
      hheaded.noContext
    · refine List.forall_mem_cons.2 ⟨⟨_, hkind, rfl⟩, fun e he ↦ ?_⟩
      obtain ⟨data, hevent⟩ := hevents e he
      exact ⟨_, hevent, rfl⟩
    · refine List.cons_subset.2 ⟨List.mem_cons_self, fun e he ↦ List.mem_cons_of_mem _ ?_⟩
      obtain ⟨data, hevent⟩ := hevents e he
      rw [hwf.nodesWhere_eq, List.mem_filter, Graph.kindIs, hevent]
      exact ⟨hwf.mem_order_of_kind? hevent, rfl⟩
  have hkeepsEntry := (haround [] (List.forall_mem_nil _)).keeps entry List.mem_cons_self
  refine ⟨hgraph ▸ htrims.wellFormed, hgraph ▸ htrims.linked, hentry,
    hgraph ▸ hheaded.keep hkeepsEntry, fun e data hevent ↦ hgraph ▸ ?_⟩
  exact (haround [e] (List.forall_mem_singleton.2 ⟨data, hevent⟩)).keeps e
    (List.mem_cons_of_mem _ List.mem_cons_self)

/-- The function is no stub of an interface, and is the event graph still. -/
theorem flags_precompile : (s.precompile env).ctx.flags = u.flags := by
  obtain rfl := hlineage.listed
  exact (s.precompile_keeps env).1.flags

/-! ## Storage -/

/-- A data output of an event is stored on the class under the name of its net. -/
theorem stores (henv : env.HandlesAll) (hwf : g.WellFormed) (hheaded : g.Headed entry)
    {names : NetNameMap} (hnames : names.Extends s.classNetNames) {e : NodeId} {data : EventData}
    (hkind : g.kind? e = some (.event data)) {p : PinId}
    (hp : p ∈ g.filteredPins e .output false) {name : String} (hname : names.get? p = some name) :
    ∃ t term, c₃.net? p = some t ∧ c₃.term? t = some term ∧ term.kind = .eventGraphLocal ∧
      term.name = name := by
  have hprepared := hu.prepared hlineage hwf hheaded
  obtain rfl := hlineage.listed
  have hkeeps := hprepared.keeps e data hkind
  have hevent := hkeeps.kind?.trans hkind
  rw [← hkeeps.filteredPins] at hp
  obtain ⟨hpins, pin, hpin, -⟩ := Graph.mem_filteredPins.1 hp
  have hlist := hlineage.prepared.mem_executionList.2
    (hprepared.wellFormed.mem_order_of_kind? hevent)
  obtain ⟨s', hgraph, hflags, hext, hleads⟩ := FunctionState.exists_leads_precompile
    hlineage.quiet hprepared.wellFormed hlist hevent (henv _)
  have hwf' := hprepared.wellFormed
  have hgraph' : s'.ctx.isEventGraph = true :=
    (congrArg ContextFlags.eventGraph hflags).trans hu.isEventGraph
  have hregistered : ∃ source, (Event.register s' e).ctx.Leads p
      (.new .eventGraphLocal name pin.ty source) := by
    rw [← hgraph] at hwf' hp hpin
    exact ⟨_, FunctionState.leads_registerEvent hwf' hgraph' hp hpin
      (hext.kept _ _ (hnames.kept _ _ hname))⟩
  obtain ⟨source, hregistered⟩ := hregistered
  obtain ⟨t, term, hnet, hterm, hagrees⟩ := hleads p hpins _ hregistered
  exact ⟨t, term, (hlineage.net? p).trans hnet, (hlineage.term? t).trans hterm, hagrees.kind,
    hagrees.name⟩

/-- The entry has its parameter in the frame. -/
theorem point (henv : env.HandlesAll) (hwf : g.WellFormed) (hheaded : g.Headed entry) :
    ∃ p t term, (s.precompile env).ctx.graph.findPin? entry PinName.entryPoint (some .output) =
        some p ∧ (s.precompile env).ctx.net? p = some t ∧
      (s.precompile env).ctx.term? t = some term ∧ term.kind = .parameter ∧
      term.name = PinName.entryPoint := by
  have hprepared := hu.prepared hlineage hwf hheaded
  have hwf' := hprepared.wellFormed
  obtain ⟨name, hkind⟩ := hprepared.headed.kind?
  obtain ⟨p, hfind, hp⟩ := hprepared.headed.entryPoint
  obtain ⟨hpins, pin, hpin, -⟩ := Graph.mem_filteredPins.1 hp
  have hname : pin.name = PinName.entryPoint := by
    have hmatch := List.find?_some hfind
    simp only [Graph.pinMatches, hpin, Option.any_some, Bool.and_eq_true, beq_iff_eq] at hmatch
    exact hmatch.1
  have hlist := hlineage.prepared.mem_executionList.2 (hwf'.mem_order_of_kind? hkind)
  obtain ⟨s', hgraph, -, -, hleads⟩ := FunctionState.exists_leads_precompile hlineage.quiet hwf'
    hlist hkind (henv _)
  have hregistered : ∃ source, (FunctionEntry.register s' entry).ctx.Leads p
      (.new .parameter pin.name pin.ty source) := by
    rw [← hgraph] at hwf' hp hpin
    exact ⟨_, FunctionState.leads_registerEntry hwf' hp hpin⟩
  obtain ⟨source, hregistered⟩ := hregistered
  obtain ⟨t, term, hnet, hterm, hagrees⟩ := hleads p hpins _ hregistered
  exact ⟨p, t, term, hfind, hnet, hterm, hagrees.kind, hagrees.name.trans hname⟩

/-! ## Code -/

/-- The entry comes to only jump to where its parameter says. -/
theorem entry_compiled (henv : env.HandlesAll) (hwf : g.WellFormed) (hheaded : g.Headed entry) :
    c₂.entryPoint = some entry ∧ entry ∈ c₂.executionList ∧
      ∃ t term, (s.precompile env).ctx.term? t = some term ∧ term.kind = .parameter ∧
        term.name = PinName.entryPoint ∧ c₂.statementsOf entry = [.computedGoto t] := by
  have hprepared := hu.prepared hlineage hwf hheaded
  have hflags := hu.flags_precompile hlineage
  have hevents : (s.precompile env).ctx.isEventGraph = true :=
    (congrArg ContextFlags.eventGraph hflags).trans hu.isEventGraph
  obtain ⟨p, t, term, hfind, hnet, hterm, hparameter, hname⟩ := hu.point hlineage henv hwf hheaded
  obtain ⟨name, hkind⟩ := hprepared.headed.kind?
  have hreads := Graph.notMem_readers_of_outputs hprepared.wellFormed hprepared.linked
    hprepared.headed.outputs
  obtain ⟨hmem, -, hcode⟩ := hlineage.compiled.code_of_impure hlineage.prepared
    hprepared.wellFormed (hflags ▸ hu.interfaceStub) hkind rfl
  have hmarks : (s.precompile env).ctx.marksOf entry env
      (.functionEntry { customName := some name }) = [] := by
    rw [marksOf, hevents]
    rfl
  have hexit : (s.precompile env).ctx.exitOf entry
      (.functionEntry { customName := some name }) = [.computedGoto t] := by
    rw [exitOf, hevents, if_pos rfl, hfind, Option.bind_some, hnet]
    rfl
  obtain ⟨table, list, hframe⟩ := hlineage.compiled.frame
  refine ⟨by rw [hframe]; exact hprepared.entryPoint, hmem, t, term, hterm, hparameter, hname, ?_⟩
  rw [hcode hreads, codeOfNode, hkind]
  dsimp only
  rw [hmarks, hexit]
  rfl

/-- The code of an event is marked. -/
theorem event_compiled (hwf : g.WellFormed) (hheaded : g.Headed entry) {e : NodeId}
    {data : EventData} (hkind : g.kind? e = some (.event data)) :
    e ∈ c₂.executionList ∧ .debugSite e ∈ c₂.statementsOf e := by
  have hprepared := hu.prepared hlineage hwf hheaded
  have hflags := hu.flags_precompile hlineage
  have hevents : (s.precompile env).ctx.isEventGraph = true :=
    (congrArg ContextFlags.eventGraph hflags).trans hu.isEventGraph
  have hdebug : (s.precompile env).ctx.flags.createDebugData = true :=
    (congrArg ContextFlags.createDebugData hflags).trans hu.createDebugData
  have hkind' := (hprepared.keeps e data hkind).kind?.trans hkind
  obtain ⟨hmem, hsuffix, -⟩ := hlineage.compiled.code_of_impure hlineage.prepared
    hprepared.wellFormed (hflags ▸ hu.interfaceStub) hkind' rfl
  refine ⟨hmem, hsuffix.subset ?_⟩
  rw [codeOfNode, hkind']
  refine List.mem_append_left _ ?_
  rw [marksOf, if_neg (by rw [hevents]; exact Bool.false_ne_true), hdebug]
  exact List.mem_append_right _ List.mem_cons_self

/-- The code of the event graph begins with a jump to where its parameter says. -/
theorem jumps (henv : env.HandlesAll) (hwf : g.WellFormed) (hheaded : g.Headed entry) :
    ∃ t term, c₃.term? t = some term ∧ term.kind = .parameter ∧ term.name = PinName.entryPoint ∧
      c₃.statements.head? = some (.computedGoto t) := by
  obtain ⟨hentry, hmem, t, term, hterm, hkind, hname, hcode⟩ :=
    hu.entry_compiled hlineage henv hwf hheaded
  obtain ⟨before, rest, hstatements, -, hfirst, -, hblock⟩ :=
    hlineage.finished.exists_block (hlineage.interfaceStub hu.interfaceStub).2 hmem
  refine ⟨t, term, (hlineage.term? t).trans hterm, hkind, hname, ?_⟩
  rw [hstatements, hfirst hentry, hblock t hcode]
  rfl

/-- The code of an event stands at the label of the event, and is marked. -/
theorem exists_block (hwf : g.WellFormed) (hheaded : g.Headed entry) {e : NodeId}
    {data : EventData} (hkind : g.kind? e = some (.event data)) :
    ∃ before rest, c₃.statements = before ++ (c₃.block e ++ rest) ∧
      c₃.nodeLabels.lookup e = some before.length ∧ .debugSite e ∈ c₃.block e := by
  obtain ⟨hmem, hmark⟩ := hu.event_compiled hlineage hwf hheaded hkind
  obtain ⟨before, rest, hstatements, hlabel, -, hkept, -⟩ :=
    hlineage.finished.exists_block (hlineage.interfaceStub hu.interfaceStub).2 hmem
  exact ⟨before, rest, hstatements, hlabel, hkept _ hmark rfl⟩

end Compilation.EventGraphOf

end VisualScript
