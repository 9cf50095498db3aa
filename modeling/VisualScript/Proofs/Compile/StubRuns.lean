import VisualScript.Proofs.Json.Numbers
import VisualScript.Proofs.Code.Walk
import VisualScript.Proofs.Compile.Lineage
import VisualScript.Proofs.Compile.Listing
import VisualScript.Proofs.Compile.Simplification
import VisualScript.Proofs.Compile.Walking
import VisualScript.Proofs.Run.Script

/-!
# Runs of stubs

The function of an event stores the parameters on the class and then calls the event
graph with the index at which it is told to enter.
-/

namespace VisualScript

open EventStub FunctionContext

/-- The data outputs of the entry are the parameters. -/
theorem EventStub.Wired.dataOutputs_entry {data : EventData} {ubergraph : String} {g : Graph}
    {ws : List Handover} (h : Wired data ubergraph g ws)
    (hdata : ∀ w ∈ ws, w.param.ty.isExec = false) :
    g.dataOutputs entryId = ws.map (·.param.name) := by
  rw [Graph.dataOutputs, h.filteredPins_entry hdata, List.filterMap_map,
    ← List.filterMap_eq_map]
  refine List.filterMap_congr fun w hw ↦ ?_
  rw [Function.comp_apply, (h.pin?_of_mem hw).1]
  rfl

/-! ## Prepared stubs -/

namespace FunctionContext

/-- A stub after its preparation: parameters lie in the frame, members are found, and where to
enter is a literal. -/
structure PreparedStub (data : EventData) (ubergraph : String) (ws : List Handover)
    (c : FunctionContext) : Prop where
  wired : Wired data ubergraph c.graph ws
  wellFormed : c.graph.WellFormed
  linked : c.graph.Linked
  entryPoint : c.entryPoint = some entryId
  params : ∀ w ∈ ws, ∃ t term, c.net? w.output = some t ∧ c.term? t = some term ∧
    term.kind = .parameter ∧ term.name = w.param.name
  members : ∀ w ∈ ws, ∃ t term, c.variableTerm? w.storage = some t ∧ c.term? t = some term ∧
    term.kind = .memberReference ∧ term.name = w.storage
  point : ∃ t term, c.net? ⟨4⟩ = some t ∧ c.term? t = some term ∧ term.kind = .literal ∧
    term.ty = .int ∧ term.defaultObject = none ∧ term.defaultValue = "0"
  signature : c.namesOf .parameter ++ c.namesOf .result = ws.map (·.param.name)

/-- A settled variable that is no local variable has a terminal as a member. -/
theorem Resolves.member {c : FunctionContext} {cls : Class} {var : VariableReference}
    (h : c.Resolves cls var) (henlisted : c.Enlisted) (hlocals : c.userLocals = []) :
    ∃ t term, c.variableTerm? (VariableAccess.storageName var) = some t ∧ c.term? t = some term ∧
      term.kind = .memberReference ∧ term.name = VariableAccess.storageName var := by
  obtain ⟨t, ht⟩ :=
    Option.isSome_iff_exists.1 ((FunctionState.variableTerm?_isSome henlisted).2 h.term)
  have hfound := ht
  unfold FunctionContext.variableTerm? at hfound
  rw [hlocals, List.nil_append, findNamed?] at hfound
  obtain ⟨term, hterm, hkind⟩ :=
    (henlisted.mem_listOf .memberReference).1 (List.mem_of_find?_eq_some hfound)
  refine ⟨t, term, ht, hterm, hkind, ?_⟩
  have hname := List.find?_some hfound
  rw [hterm] at hname
  exact eq_of_beq hname

end FunctionContext

section Prepared

variable {env : CompileEnv} {g : Graph} {event : NodeId} {data : EventData} {names : NetNameMap}
  {ws : List Handover} {d : FunctionContext} {s : FunctionState} {c₂ c₃ : FunctionContext}
  {cls : Class}

namespace Compilation.StubOf

variable (hstub : Compilation.StubOf env g event data names ws d) (h : Lineage env cls d s c₂ c₃)
include hstub h

/-- The entry of a stub is its only one. -/
theorem findEntry_eq : s.findEntry = .ok entryId := by
  obtain rfl := h.listed
  obtain ⟨entry, hfind, -⟩ := FunctionState.graph_precompile h.quiet
  obtain ⟨next, before, hframed⟩ := hstub.wired.framed
  have hmem : entryId ∈ s.ctx.graph.nodesWhere (·.isEntry) := by
    rw [hstub.wellFormed.nodesWhere_eq, List.mem_filter, Graph.kindIs, hframed.entryKind]
    exact ⟨hstub.wired.mem_order.2 (ends_mem_path ws).1, rfl⟩
  rw [FunctionState.findEntry_eq_ok hfind, List.mem_singleton] at hmem
  rw [hfind, hmem]

/-- The graph of a stub is prepared as it is. -/
theorem graph_precompile : (s.precompile env).ctx.graph = d.graph ∧
    (s.precompile env).ctx.entryPoint = some entryId := by
  have hentry := hstub.findEntry_eq h
  obtain rfl := h.listed
  obtain ⟨entry, hfind, hpoint, hgraph, -⟩ := FunctionState.graph_precompile h.quiet
  obtain rfl := Except.ok.inj (hfind.symm.trans hentry)
  exact ⟨hgraph.trans (FunctionState.graph_simplifyGraph_of_wired hstub.wired env), hpoint⟩

theorem wired_precompile :
    Wired data env.schema.ubergraphFunctionName (s.precompile env).ctx.graph ws :=
  (hstub.graph_precompile h).1 ▸ hstub.wired

theorem wellFormed_precompile : (s.precompile env).ctx.graph.WellFormed :=
  (hstub.graph_precompile h).1 ▸ hstub.wellFormed

theorem linked_precompile : (s.precompile env).ctx.graph.Linked := by
  have hheader := (s.precompile_keeps env).1
  obtain rfl := h.listed
  exact (FunctionState.rooted_precompile (fun _ ↦ hstub.wellFormed) h.quiet
    ((congrArg ContextFlags.eventGraph hheader.flags).trans hstub.isEventGraph)).2.1

theorem mem_executionList {n : NodeId} (hn : n ∈ path ws) :
    n ∈ (s.precompile env).ctx.executionList :=
  h.prepared.mem_executionList.2
    ((hstub.wired_precompile h).mem_order.2 hn)

/-- Parameters lie in the frame. -/
theorem parameter (henv : env.HandlesAll) {w : Handover} (hw : w ∈ ws) :
    ∃ t term, (s.precompile env).ctx.net? w.output = some t ∧
      (s.precompile env).ctx.term? t = some term ∧ term.kind = .parameter ∧
      term.name = w.param.name := by
  have hwf := hstub.wellFormed_precompile h
  have hwired := hstub.wired_precompile h
  obtain ⟨next, before, hframed⟩ := hwired.framed
  have hpin := (hwired.pin?_of_mem hw).1
  have houtput : w.output ∈ (s.precompile env).ctx.graph.filteredPins entryId .output false := by
    rw [hwired.filteredPins_entry hstub.isExec_param]
    exact List.mem_map_of_mem hw
  obtain ⟨s', hgraph, -, -, hleads⟩ := FunctionState.exists_leads_precompile h.quiet hwf
    (hstub.mem_executionList h (ends_mem_path ws).1) hframed.entryKind (henv _)
  obtain ⟨source, hregistered⟩ : ∃ source, (FunctionEntry.register s' entryId).ctx.Leads w.output
      (.new .parameter w.param.name w.param.ty source) := by
    rw [← hgraph] at hwf houtput hpin
    exact ⟨_, FunctionState.leads_registerEntry hwf houtput hpin⟩
  obtain ⟨t, term, hnet, hterm, hagrees⟩ := hleads _ (List.mem_filter.1 houtput).1 _ hregistered
  exact ⟨t, term, hnet, hterm, hagrees.kind, hagrees.name⟩

/-- The storage of a parameter is found as a member. -/
theorem member {w : Handover} (hw : w ∈ ws) :
    ∃ t term, (s.precompile env).ctx.variableTerm? w.storage = some t ∧
      (s.precompile env).ctx.term? t = some term ∧ term.kind = .memberReference ∧
      term.name = w.storage := by
  have hwired := hstub.wired_precompile h
  have hentry := hstub.findEntry_eq h
  obtain ⟨w', ws', hws⟩ := List.exists_cons_of_ne_nil (List.ne_nil_of_mem hw)
  obtain ⟨next, before, hassigned⟩ := hwired.assigned (List.ne_nil_of_mem hw)
  have hlist := hstub.mem_executionList h (n := assignId) (by simp [hws, path])
  have hassigns : .selfMember w.storage w.param.ty ∈
      assignedVariables (s.precompile env).ctx.graph assignId := by
    rw [assignedVariables, hassigned.kind?]
    refine List.mem_filterMap.2 ⟨w.input, ?_, ?_⟩
    · rw [hwired.filteredPins_assign hstub.isExec_param (List.ne_nil_of_mem hw)]
      exact List.mem_map_of_mem hw
    · rw [(hwired.pin?_of_mem hw).2]
      rfl
  obtain rfl := h.listed
  refine (h.prepared.settled assignId hlist _ hassigns).member h.prepared.enlisted ?_
  refine FunctionState.userLocals_precompile h.quiet hstub.userLocals fun entry hfind ↦ ?_
  obtain rfl := Except.ok.inj (hfind.symm.trans hentry)
  obtain ⟨next, before, hframed⟩ := hstub.wired.framed
  rw [FunctionState.graph_simplifyGraph_of_wired hstub.wired env, FunctionState.entryData,
    hframed.entryKind]

/-- Where to enter is a literal. -/
theorem point (henv : env.HandlesAll) :
    ∃ t term, (s.precompile env).ctx.net? ⟨4⟩ = some t ∧
      (s.precompile env).ctx.term? t = some term ∧ term.kind = .literal ∧ term.ty = .int ∧
      term.defaultObject = none ∧ term.defaultValue = "0" := by
  have hwf := hstub.wellFormed_precompile h
  obtain ⟨next, before, hframed⟩ := (hstub.wired_precompile h).framed
  have hpin := hframed.pin?_point
  have hpoint : (⟨4⟩ : PinId) ∈ (s.precompile env).ctx.graph.pinsOf callId := by
    rw [hframed.call.pinsOf]
    simp [callPins, freePins]
  obtain ⟨s', hgraph, -, -, hleads⟩ := FunctionState.exists_leads_precompile h.quiet hwf
    (hstub.mem_executionList h (ends_mem_path ws).2) hframed.callKind (henv _)
  obtain ⟨source, hregistered⟩ : ∃ source, (s'.registerPins callId).ctx.Leads ⟨4⟩
      { Terminal.new .literal "0" .int source with defaultValue := "0" } := by
    rw [← hgraph] at hwf hpoint hpin
    exact ⟨_, FunctionState.leads_registerPins hwf hpoint hpin rfl rfl rfl⟩
  obtain ⟨t, term, hnet, hterm, hagrees⟩ := hleads _ hpoint _ hregistered
  exact ⟨t, term, hnet, hterm, hagrees.kind, hagrees.ty, hagrees.defaultObject,
    hagrees.defaultValue⟩

/-- The parameters are the signature. -/
theorem namesOf_precompile (henv : env.HandlesAll) :
    (s.precompile env).ctx.namesOf .parameter ++ (s.precompile env).ctx.namesOf .result =
      ws.map (·.param.name) := by
  have hwf := hstub.wellFormed_precompile h
  have hwired := hstub.wired_precompile h
  obtain ⟨next, before, hframed⟩ := hwired.framed
  have hmakes : ∀ n ∈ (s.precompile env).ctx.executionList, ∀ node,
      (s.precompile env).ctx.graph.kind? n = some node →
        .result ∉ node.makes ∧ (n ≠ entryId → .parameter ∉ node.makes) := by
    intro n hn node hnode
    rcases hwired.kind?_of_mem (hwf.mem_order_of_kind? hnode) with rfl | rfl | ⟨-, -, hkind⟩
    · cases hnode.symm.trans hframed.entryKind
      exact ⟨by simp [NodeKind.makes], fun hne ↦ absurd rfl hne⟩
    · cases hnode.symm.trans hframed.callKind
      exact ⟨by simp [NodeKind.makes], fun _ ↦ by simp [NodeKind.makes]⟩
    · cases hnode.symm.trans hkind
      exact ⟨by simp [NodeKind.makes], fun _ ↦ by simp [NodeKind.makes]⟩
  have hnone (kind : TermKind) : s.ctx.namesOf kind = [] := by
    rw [FunctionContext.namesOf, h.listed, hstub.terms]
    rfl
  rw [FunctionState.namesOf_parameter_precompile h.quiet hwf
    (hstub.mem_executionList h (ends_mem_path ws).1) hframed.entryKind (henv _)
    fun n hn node hnode ↦ (hmakes n hn node hnode).2,
    FunctionState.namesOf_result_precompile h.quiet fun n hn node hnode ↦
      (hmakes n hn node hnode).1, hnone, hnone, List.append_nil, List.nil_append]
  exact hwired.dataOutputs_entry hstub.isExec_param

theorem prepared (henv : env.HandlesAll) :
    PreparedStub data env.schema.ubergraphFunctionName ws (s.precompile env).ctx where
  wired := hstub.wired_precompile h
  wellFormed := hstub.wellFormed_precompile h
  linked := hstub.linked_precompile h
  entryPoint := (hstub.graph_precompile h).2
  params _ := hstub.parameter h henv
  members _ := hstub.member h
  point := hstub.point h henv
  signature := hstub.namesOf_precompile h henv

end Compilation.StubOf

end Prepared

/-! ## What a stub performs -/

/-- Stores a parameter on the class. -/
def EventStub.Handover.store (w : Handover) : ScriptOp :=
  .assign (.inst w.storage) (.frame w.param.name)

namespace FunctionContext.PreparedStub

variable {data : EventData} {ubergraph : String} {ws : List Handover} {c d : FunctionContext}
  (h : PreparedStub data ubergraph ws c)
include h

/-- No node of a stub is pure, and all go on through their `then` pins. -/
theorem impure {n : NodeId} (hn : n ∈ c.graph.order) :
    c.graph.isPure n = false ∧ c.LeavesByThen n := by
  obtain ⟨next, before, hframed⟩ := h.wired.framed
  have hkind : ∃ kind : NodeKind, c.graph.kind? n = some kind ∧ kind.isPure = false ∧
      kind ≠ .functionResult ∧ kind ≠ .branch := by
    rcases h.wired.kind?_of_mem hn with rfl | rfl | ⟨-, -, hkind⟩
    · exact ⟨_, hframed.entryKind, rfl, NodeKind.noConfusion, NodeKind.noConfusion⟩
    · exact ⟨_, hframed.callKind, rfl, NodeKind.noConfusion, NodeKind.noConfusion⟩
    · exact ⟨_, hkind, rfl, NodeKind.noConfusion, NodeKind.noConfusion⟩
  obtain ⟨kind, hkind, hpure, hresult, hbranch⟩ := hkind
  refine ⟨(Graph.isPure_of_kind? hkind).trans hpure, fun heq ↦ hresult ?_, fun heq ↦ hbranch ?_⟩
  · exact Option.some.inj (hkind.symm.trans heq)
  · exact Option.some.inj (hkind.symm.trans heq)

theorem execJoinsImpure : c.graph.ExecJoinsImpure := by
  have himpure (n : NodeId) : c.graph.isPure n = false := by
    by_cases hn : n ∈ c.graph.order
    · exact (h.impure hn).1
    · rw [h.wellFormed.mem_order, Option.not_isSome_iff_eq_none] at hn
      rw [Graph.isPure, hn]
      rfl
  exact fun _ _ pin pin' _ _ _ _ ↦ ⟨himpure pin.owner, himpure pin'.owner⟩

/-- The walk along a stub performs the operations of its nodes. -/
theorem stopsWith_walk {ε : Type} (o : Observer ε) : (c.walk o).StopsWith entryId
    ((path ws).flatMap fun n ↦ (c.operations n).flatMap o.sees) true := by
  obtain ⟨next, before, hframed⟩ := h.wired.framed
  obtain ⟨hthen, hlinks⟩ := hframed.last
  have hchain := h.wired.chain
  have hmem (n : NodeId) (hn : n ∈ path ws) :
      c.graph.isPure n = false ∧ c.LeavesByThen n :=
    h.impure (h.wired.mem_order.2 hn)
  have hlast : (c.graph.findPin? callId PinName.thenOut (some .output)).bind c.graph.follow =
      none := by
    rw [hthen, Option.bind_some, Graph.follow, hlinks]
    rfl
  have hvisits : (fun n ↦ (c.operations n).flatMap o.sees) = fun n ↦ (c.visit n).flatMap o.sees := by
    funext n
    rw [visit_eq_operations fun m hm ↦ (h.impure hm).1]
  rw [hvisits]
  cases ws with
  | nil => exact FunctionContext.stopsWith_walk hchain hmem hlast
  | cons w ws => exact FunctionContext.stopsWith_walk hchain hmem hlast

theorem operations_entry : c.operations entryId = [] := by
  obtain ⟨next, before, hframed⟩ := h.wired.framed
  rw [operations, hframed.entryKind]
  rfl

theorem operations_call {t : TermId} (ht : c.net? ⟨4⟩ = some t) :
    c.operations callId = [.callFunction ubergraph none [t] none] := by
  obtain ⟨next, before, hframed⟩ := h.wired.framed
  obtain ⟨hself, hlinks⟩ := hframed.target
  have htarget : c.callTarget? callId = none := by
    rw [callTarget?, hself, Option.bind_some, hlinks]
    rfl
  have hinput : c.inputTerm? ⟨4⟩ = some t := by
    rw [inputTerm?, hframed.pin?_point]
    exact ht
  rw [operations, hframed.callKind, Option.map_some, Option.getD_some, operationsOf, callStatement,
    htarget, hframed.inputs, hframed.outputs, List.filterMap_cons_some hinput]
  rfl

/-- The value of a parameter is assigned to its member. -/
theorem assignmentOf_input (hd : ∀ t term, c.term? t = some term → term.kind ≠ .literal →
      d.term? t = some term) {w : Handover} (hw : w ∈ ws) :
    ∃ lhs rhs, c.assignmentOf (c.assigned? none w.input) w.input = some (.assignment lhs rhs) ∧
      d.operand lhs = .inst w.storage ∧ d.operand rhs = .frame w.param.name := by
  obtain ⟨-, hpin⟩ := h.wired.pin?_of_mem hw
  obtain ⟨rhs, param, hnet, hparam, hparamKind, hparamName⟩ := h.params w hw
  obtain ⟨lhs, member, hvariable, hmember, hmemberKind, hmemberName⟩ := h.members w hw
  have hinput : c.inputTerm? w.input = some rhs := by
    rw [inputTerm?, hpin]
    exact hnet
  have hassigned : c.assigned? none w.input = some lhs := by
    rw [assigned?, pinName, hpin]
    exact hvariable
  refine ⟨lhs, rhs, ?_, ?_, ?_⟩
  · rw [hassigned, assignmentOf, hinput]
    rfl
  · rw [FunctionContext.operand, hd lhs member hmember (by simp [hmemberKind]), Option.map_some,
      Option.getD_some, Terminal.operand, hmemberKind, hmemberName]
  · rw [FunctionContext.operand, hd rhs param hparam (by simp [hparamKind]), Option.map_some,
      Option.getD_some, Terminal.operand, hparamKind, hparamName]

theorem operations_assign (hws : ws ≠ []) (hdata : ∀ w ∈ ws, w.param.ty.isExec = false) :
    c.operations assignId = ws.filterMap fun w ↦
      c.assignmentOf (c.assigned? none w.input) w.input := by
  obtain ⟨next, before, hassigned⟩ := h.wired.assigned hws
  rw [operations, hassigned.kind?, Option.map_some, Option.getD_some, operationsOf,
    h.wired.filteredPins_assign hdata hws, List.filterMap_map]
  rfl

/-- A stub stores its parameters and calls the event graph. -/
theorem performs (hdata : ∀ w ∈ ws, w.param.ty.isExec = false)
    (hd : ∀ t term, c.term? t = some term → term.kind ≠ .literal → d.term? t = some term)
    {t : TermId} {value : Value} (ht : c.net? ⟨4⟩ = some t) (hvalue : d.operand t = .literal value)
    (oracle : List ScriptOp → Operand → Bool) :
    ((path ws).flatMap fun n ↦ (c.operations n).flatMap (d.operationObserver oracle).sees) =
      ws.map (·.store) ++ [.callFunction ubergraph none [.literal value] none] := by
  have hcall : (c.operations callId).flatMap (d.operationObserver oracle).sees =
      [.callFunction ubergraph none [.literal value] none] := by
    rw [h.operations_call ht, List.flatMap_singleton, ← hvalue]
    rfl
  by_cases hws : ws = []
  · subst hws
    rw [path, List.flatMap_cons, List.flatMap_singleton, h.operations_entry, hcall]
    rfl
  · have hpath : path ws = [entryId, assignId, callId] := by
      obtain ⟨w, rest, rfl⟩ := List.exists_cons_of_ne_nil hws
      rfl
    have hstores : (c.operations assignId).flatMap (d.operationObserver oracle).sees =
        ws.flatMap fun w ↦ [w.store] := by
      rw [h.operations_assign hws hdata, List.filterMap_eq_flatMap_toList, List.flatMap_assoc]
      refine List.flatMap_congr fun w hw ↦ ?_
      obtain ⟨lhs, rhs, hstatement, hlhs, hrhs⟩ := h.assignmentOf_input hd hw
      rw [hstatement, Handover.store, ← hlhs, ← hrhs]
      rfl
    rw [hpath, List.flatMap_cons, List.flatMap_cons, List.flatMap_singleton, h.operations_entry,
      hstores, hcall, List.map_eq_flatMap]
    rfl

end FunctionContext.PreparedStub

/-! ## Entering the event graph -/

theorem FunctionContext.SameStorage.term?_of_some {c d : FunctionContext} (h : c.SameStorage d)
    {t : TermId} {term : Terminal} (ht : c.term? t = some term) (hkind : term.kind ≠ .literal) :
    d.term? t = some term := by
  rcases h.terms t with hsame | ⟨old, -, hold, -, hliteral, -⟩
  · rw [hsame, ht]
  · cases ht.symm.trans hold
    exact absurd hliteral hkind

/-- A literal number is what its text says, or zero. -/
theorem Terminal.operand_of_int {term : Terminal} (hkind : term.kind = .literal)
    (hty : term.ty = .int) (hobject : term.defaultObject = none) :
    term.operand =
      .literal ((Value.parse? .int term.defaultValue).getD (Value.zero .int)) := by
  simp only [Terminal.operand, hkind, Terminal.literalValue, hobject, hty]

/-- The call of a stub is told the index. -/
theorem Compilation.term?_enterAt {c : FunctionContext} {call : NodeId} {p : PinId} {t : TermId}
    (hp : c.graph.findPin? call PinName.entryPoint (some .input) = some p) (hnet : c.net? p = some t)
    (k : Nat) (u : TermId) : (enterAt c call k).term? u =
      if t = u then
        (c.term? u).map fun term ↦
          { term with name := toString k, defaultValue := toString k }
      else c.term? u := by
  have hnet' : FunctionContext.net? { c with graph := c.graph.modifyPin p fun pin ↦
      { pin with defaultValue := toString k } } p = some t := hnet
  unfold enterAt
  rw [hp]
  dsimp only
  rw [hnet']
  dsimp only
  rw [term?_modifyTerm]
  rfl

/-- The call of a stub passes the index as a literal. -/
theorem Compilation.operand_enterAt {c : FunctionContext} {call : NodeId} {p : PinId} {t : TermId}
    {term : Terminal} (hp : c.graph.findPin? call PinName.entryPoint (some .input) = some p)
    (hnet : c.net? p = some t) (hterm : c.term? t = some term) (hkind : term.kind = .literal)
    (hty : term.ty = .int) (hobject : term.defaultObject = none) (k : Nat) :
    (enterAt c call k).operand t = .ofIndex k := by
  rw [FunctionContext.operand, term?_enterAt hp hnet, if_pos rfl, hterm, Option.map_some,
    Option.map_some, Option.getD_some]
  exact Terminal.operand_of_int hkind hty hobject

section Runs

variable {env : CompileEnv} {g : Graph} {event : NodeId} {data : EventData} {names : NetNameMap}
  {ws : List Handover} {d : FunctionContext} {s : FunctionState} {c₂ c₃ : FunctionContext}
  {cls : Class}

/-- What a finished function is told changes no terminal but literals. -/
theorem FunctionContext.Lineage.sameStorage_patchStub (h : Lineage env cls d s c₂ c₃)
    (labels : List (NodeId × Nat)) : c₃.SameStorage (Compilation.patchStub labels c₃) := by
  refine Compilation.sameStorage_patchStub labels fun p t ht ↦ ?_
  rw [h.net?] at ht
  rw [h.graph, h.term?]
  exact h.prepared.nets p t ht

namespace Compilation.StubOf

variable (hstub : Compilation.StubOf env g event data names ws d) (h : Lineage env cls d s c₂ c₃)
  (henv : env.HandlesAll) {labels : List (NodeId × Nat)} {k : Nat}
  (hlabel : labels.lookup event = some k) (hk : k < 0x80000000)
include hstub h henv hlabel hk

/-- The call of a stub is told the label of the event. -/
theorem operand_point : ∃ t, (s.precompile env).ctx.net? ⟨4⟩ = some t ∧
    (Compilation.patchStub labels c₃).operand t = .literal (.int (Int32.ofNat k)) := by
  have hprepared := hstub.prepared h henv
  obtain ⟨next, before, hframed⟩ := hprepared.wired.framed
  obtain ⟨t, term, hnet, hterm, hkind, hty, hobject, -⟩ := hprepared.point
  have hentry : Compilation.patchStub labels c₃ = Compilation.enterAt c₃ callId k := by
    rw [Compilation.patchStub, h.header.stub, hstub.stub]
    dsimp only
    rw [hlabel]
  refine ⟨t, hnet, ?_⟩
  rw [hentry, Compilation.operand_enterAt (h.graph ▸ hframed.findPin?_point)
    ((h.net? _).trans hnet) ((h.term? t).trans hterm) hkind hty hobject, Operand.ofIndex,
    Value.parse?_toString hk, Option.getD_some]

/-- The script of a stub stores the parameters, calls the event graph with the label of the event
and returns. -/
theorem stopsWith (oracle : List ScriptOp → Operand → Bool) :
    (Script.machine oracle (c₃.statements.map ((Compilation.patchStub labels c₃).lower
      (c₃.statements.length - 1)))).StopsWith 0
        (ws.map (·.store) ++ [.callFunction env.schema.ubergraphFunctionName none
          [.literal (.int (Int32.ofNat k))] none]) true := by
  have hprepared := hstub.prepared h henv
  obtain ⟨t, hnet, hvalue⟩ := hstub.operand_point h henv hlabel hk
  have hwalk := hprepared.stopsWith_walk
    ((Compilation.patchStub labels c₃).operationObserver oracle)
  rw [hprepared.performs hstub.isExec_param (fun u term hu hne ↦
    (h.sameStorage_patchStub labels).term?_of_some ((h.term? u).trans hu) hne) hnet hvalue oracle]
    at hwalk
  have hentry : entryId ∈ (s.precompile env).ctx.graph.order :=
    hprepared.wired.mem_order.2 (ends_mem_path ws).1
  have hheader := (s.precompile_keeps env).1
  rw [h.listed] at hheader
  obtain ⟨hstatements, -⟩ := Compilation.statements_patchStub c₃ labels
  have hruns := sameRuns_walk h.prepared henv
    ((congrArg ContextFlags.eventGraph hheader.flags).trans hstub.isEventGraph)
    ((congrArg ContextFlags.interfaceStub hheader.flags).trans hstub.interfaceStub)
    hprepared.wellFormed hprepared.linked hprepared.execJoinsImpure h.compiled h.finished
    hprepared.entryPoint hentry (hprepared.impure hentry).1 hstatements oracle
  rw [hstatements] at hruns
  exact (hruns.stops _ _).1 hwalk

end Compilation.StubOf

end Runs

end VisualScript
