import VisualScript.Proofs.Compile.StubRuns
import VisualScript.Proofs.Jumps.Comments

/-!
# Scripts of stubs

The function of an event passes a literal on to the event graph and reads it nowhere else.
So what the stub is told shows in that call only.
-/

namespace VisualScript

open EventStub FunctionContext

/-! ## Statements that pass a terminal on -/

namespace Statement

/-- The statement calls `main` with the terminal, or neither calls a function nor looks at the
terminal. -/
def PassesOn (main : String) (t : TermId) : Statement → Prop
  | callFunction function target args result =>
    function = main ∧ target = none ∧ args = [t] ∧ result = none
  | assignment lhs rhs => lhs ≠ t ∧ rhs ≠ t
  | createArray array elements => array ≠ t ∧ t ∉ elements
  | gotoIfNot condition _ => condition ≠ t
  | computedGoto term => term ≠ t
  | _ => True

variable {main : String} {t : TermId} {s : Statement}

theorem PassesOn.mapTarget (h : s.PassesOn main t) (f : GotoTarget → GotoTarget) :
    (s.mapTarget f).PassesOn main t := by
  cases s <;> exact h

theorem passesOn_of_isMarker (h : s.isMarker = true) : s.PassesOn main t := by
  cases s with
  | comment | debugSite => trivial
  | _ => cases h

theorem passesOn_of_mem_tail {c : FunctionContext} (h : s ∈ c.tail) : s.PassesOn main t := by
  unfold FunctionContext.tail at h
  split at h
  · rcases List.mem_pair.1 h with rfl | rfl <;> trivial
  · rw [List.mem_singleton.1 h]
    trivial

/-- Where only the value of the terminal differs, only what `main` is told differs. -/
theorem PassesOn.lower {c d : FunctionContext} {k : Nat} (h : s.PassesOn main t)
    (hothers : ∀ u, u ≠ t → d.operand u = c.operand u) (ht : d.operand t = .ofIndex k)
    (returnIndex : Nat) : d.lower returnIndex s = (c.lower returnIndex s).enter main k := by
  cases s with
  | callFunction function target args result =>
    obtain ⟨rfl, rfl, rfl, rfl⟩ := h
    simp [FunctionContext.lower, ScriptOp.enter, ht]
  | assignment lhs rhs =>
    exact congrArg₂ ScriptOp.assign (hothers lhs h.1) (hothers rhs h.2)
  | createArray array elements =>
    refine congrArg₂ ScriptOp.setArray (hothers array h.1) (List.map_congr_left fun u hu ↦ ?_)
    exact hothers u fun heq ↦ h.2 (heq ▸ hu)
  | gotoIfNot condition target =>
    exact congrArg (ScriptOp.jumpIfNot · (lowerTarget returnIndex target)) (hothers condition h)
  | computedGoto term => exact congrArg ScriptOp.computedJump (hothers term h)
  | _ => rfl

end Statement

/-! ## Functions that pass a literal on -/

namespace FunctionContext

theorem AllCode.resolveJumps {P : Statement → Prop} {c : FunctionContext} (h : c.AllCode P)
    (htail : ∀ s ∈ c.tail, P s) (hmap : ∀ f s, P s → P (s.mapTarget f)) :
    ∀ s ∈ c.resolveJumps.statements, P s := by
  refine List.forall_mem_map.2 fun s hs ↦ hmap _ s ?_
  rcases List.mem_append.1 hs with hs | hs
  · obtain ⟨n, -, hs⟩ := List.mem_flatMap.1 hs
    exact h.dropRedundantJumps _ _ n s hs
  · rw [tail_dropRedundantJumps] at hs
    exact htail s hs

/-- The `call` of a function passes a literal number on to `main`, which is read nowhere else. -/
def Passes (main : String) (call : NodeId) (c : FunctionContext) : Prop :=
  ∃ p t term, c.graph.findPin? call PinName.entryPoint (some .input) = some p ∧
    c.net? p = some t ∧ c.term? t = some term ∧ term.kind = .literal ∧ term.ty = .int ∧
    term.defaultObject = none ∧ term.defaultValue = "0" ∧
    ∀ s ∈ c.statements, s.PassesOn main t

theorem Uncomments.passes {main : String} {call : NodeId} {c d : FunctionContext}
    (h : c.Uncomments d) (hc : c.Passes main call) : d.Passes main call := by
  obtain ⟨p, t, term, hp, hnet, hterm, hkind, hty, hobject, hvalue, hcode⟩ := hc
  have hcode' : ∀ s ∈ d.statements, s.PassesOn main t := by
    rw [h.code]
    exact List.forall_mem_map.2 fun s hs ↦ (hcode s (List.mem_filter.1 hs).1).mapTarget _
  obtain ⟨table, code, labels, rfl⟩ := h.frame
  exact ⟨p, t, term, hp, hnet, hterm, hkind, hty, hobject, hvalue, hcode'⟩

/-- What a stub is told, it passes on. -/
theorem Passes.script_patchStub {main : String} {link : StubLink} {c : FunctionContext}
    (h : c.Passes main link.ubergraphCall) (hlink : c.stub = some link)
    (labels : List (NodeId × Nat)) : (Compilation.patchStub labels c).script false =
      (c.script false).enter main ((labels.lookup link.sourceEvent).getD 0) := by
  obtain ⟨p, t, term, hp, hnet, hterm, hkind, hty, hobject, hvalue, hcode⟩ := h
  obtain ⟨hstatements, hfailed⟩ := Compilation.statements_patchStub c labels
  have hoperands : (∀ u, u ≠ t → (Compilation.patchStub labels c).operand u = c.operand u) ∧
      (Compilation.patchStub labels c).operand t =
        .ofIndex ((labels.lookup link.sourceEvent).getD 0) := by
    rw [Compilation.patchStub, hlink]
    dsimp only
    cases labels.lookup link.sourceEvent with
    | none =>
      refine ⟨fun _ _ ↦ rfl, ?_⟩
      dsimp only
      rw [FunctionContext.operand, hterm, Option.map_some, Option.getD_some,
        Terminal.operand_of_int hkind hty hobject, hvalue]
      rfl
    | some k =>
      refine ⟨fun u hu ↦ ?_, Compilation.operand_enterAt hp hnet hterm hkind hty hobject k⟩
      dsimp only
      rw [FunctionContext.operand, Compilation.term?_enterAt hp hnet, if_neg (Ne.symm hu)]
      rfl
  unfold FunctionContext.script
  rw [hstatements, hfailed]
  split
  · rfl
  · rw [Script.enter, List.map_map]
    exact List.map_congr_left fun s hs ↦ (hcode s hs).lower hoperands.1 hoperands.2 _

end FunctionContext

/-! ## Stubs -/

namespace FunctionContext.PreparedStub

variable {data : EventData} {main : String} {ws : List Handover} {c : FunctionContext}
  (h : PreparedStub data main ws c) {t : TermId} {term : Terminal} {s : Statement}
include h

/-- What the nodes of a stub perform. -/
theorem passesOn_operations (hdata : ∀ w ∈ ws, w.param.ty.isExec = false)
    (hnet : c.net? ⟨4⟩ = some t) (hterm : c.term? t = some term) (hliteral : term.kind = .literal)
    {n : NodeId} (hn : n ∈ c.graph.order) (hs : s ∈ c.operations n) : s.PassesOn main t := by
  rcases h.wired.kind?_of_mem hn with rfl | rfl | ⟨rfl, hws, -⟩
  · rw [h.operations_entry] at hs
    cases hs
  · rw [h.operations_call hnet, List.mem_singleton] at hs
    exact hs ▸ ⟨rfl, rfl, rfl, rfl⟩
  · rw [h.operations_assign hws hdata] at hs
    obtain ⟨w, hw, hs⟩ := List.mem_filterMap.1 hs
    obtain ⟨lhs, rhs, hassign, hlhs, hrhs⟩ := h.assignmentOf_input (d := c) (fun _ _ ht _ ↦ ht) hw
    obtain rfl := Option.some.inj (hassign.symm.trans hs)
    have ht : ∃ value, c.operand t = .literal value :=
      ⟨term.literalValue, by rw [FunctionContext.operand, hterm]; simp [Terminal.operand, hliteral]⟩
    obtain ⟨value, ht⟩ := ht
    refine ⟨fun heq ↦ ?_, fun heq ↦ ?_⟩
    · rw [heq, ht] at hlhs
      cases hlhs
    · rw [heq, ht] at hrhs
      cases hrhs

/-- How the nodes of a stub go on. -/
theorem passesOn_exitOf (hfunction : c.isEventGraph = false) {n : NodeId} {kind : NodeKind}
    (hkind : c.graph.kind? n = some kind) (hs : s ∈ c.exitOf n kind) : s.PassesOn main t := by
  have hthen : s = c.thenExit n := by
    obtain ⟨next, before, hframed⟩ := h.wired.framed
    rcases h.wired.kind?_of_mem (h.wellFormed.mem_order_of_kind? hkind) with rfl | rfl | ⟨-, -, hset⟩
    · cases hkind.symm.trans hframed.entryKind
      rwa [exitOf, hfunction, if_neg Bool.false_ne_true, List.mem_singleton] at hs
    · cases hkind.symm.trans hframed.callKind
      have hpure : (CallData.selfCall main).isPure = false := rfl
      rwa [exitOf, hpure, if_neg Bool.false_ne_true, List.mem_singleton] at hs
    · cases hkind.symm.trans hset
      rwa [exitOf, List.mem_singleton] at hs
  rw [hthen, thenExit]
  split
  · trivial
  · split <;> trivial

/-- The nodes of a stub pass the literal on. -/
theorem passesOn_codeOfNode (env : CompileEnv) (hfunction : c.isEventGraph = false)
    (hdata : ∀ w ∈ ws, w.param.ty.isExec = false) (hnet : c.net? ⟨4⟩ = some t)
    (hterm : c.term? t = some term) (hliteral : term.kind = .literal) (n : NodeId)
    (hs : s ∈ c.codeOfNode n env) : s.PassesOn main t := by
  unfold codeOfNode at hs
  cases hkind : c.graph.kind? n with
  | none =>
    rw [hkind] at hs
    cases hs
  | some kind =>
    rw [hkind] at hs
    rcases List.mem_append.1 hs with hs | hs
    · exact Statement.passesOn_of_isMarker (c.isMarker_of_mem_marksOf n hs)
    · rcases List.mem_append.1 hs with hs | hs
      · refine h.passesOn_operations hdata hnet hterm hliteral
          (h.wellFormed.mem_order_of_kind? hkind) (n := n) ?_
        rwa [operations, hkind]
      · exact h.passesOn_exitOf hfunction hkind hs

end FunctionContext.PreparedStub

namespace Compilation.StubOf

variable {env : CompileEnv} {g : Graph} {event : NodeId} {data : EventData} {names : NetNameMap}
  {ws : List Handover} {d : FunctionContext} {s : FunctionState} {c₂ c₃ : FunctionContext}
  {cls : Class}

/-- A stub passes on where the event graph is entered. -/
theorem passes (hstub : Compilation.StubOf env g event data names ws d)
    (h : Lineage env cls d s c₂ c₃) (henv : env.HandlesAll) :
    c₃.Passes env.schema.ubergraphFunctionName callId := by
  have hprepared := hstub.prepared h henv
  obtain ⟨hinterface, hinterface'⟩ := h.interfaceStub hstub.interfaceStub
  obtain ⟨next, before, hframed⟩ := hprepared.wired.framed
  obtain ⟨t, term, hnet, hterm, hkind, hty, hobject, hvalue⟩ := hprepared.point
  refine ⟨⟨4⟩, t, term, h.graph ▸ hframed.findPin?_point, (h.net? _).trans hnet,
    (h.term? t).trans hterm, hkind, hty, hobject, hvalue, ?_⟩
  have hfunction : (s.precompile env).ctx.isEventGraph = false := by
    have hflags := (s.precompile_keeps env).1.flags
    rw [h.listed] at hflags
    exact (congrArg ContextFlags.eventGraph hflags).trans hstub.isEventGraph
  have hcompiled : c₂.AllCode (·.PassesOn env.schema.ubergraphFunctionName t) := by
    cases h.compiled with
    | stub hstub => cases hinterface.symm.trans hstub
    | code table _ hcode =>
      refine AllCode.inlinePureNodes fun m u hu ↦ ?_
      rw [hcode] at hu
      obtain ⟨n, -, hu⟩ := List.mem_flatMap.1 hu
      exact hprepared.passesOn_codeOfNode env hfunction hstub.isExec_param hnet hterm hkind n hu
  cases h.finished with
  | stub flags hstub => cases hinterface'.symm.trans hstub
  | code flags =>
    exact AllCode.resolveJumps (c := c₂.sortForFallThrough) hcompiled
      (fun _ ↦ Statement.passesOn_of_mem_tail) fun f _ hs ↦ hs.mapTarget f

end Compilation.StubOf

/-! ## The whole compile -/

/-- Every function of an event passes on where the event graph is entered. -/
theorem Blueprint.passes_of_stub {b : Blueprint} {options : CompileOptions} {suffix : Bool}
    (hfull : options.compileType = .full) (hlog : (b.compile options suffix).log.numErrors = 0)
    {c : FunctionContext} (hc : c ∈ (b.passed options suffix).contexts) {link : StubLink}
    (hlink : c.stub = some link) :
    c.Passes (b.environment options).schema.ubergraphFunctionName link.ubergraphCall := by
  obtain ⟨d, hd, hheader⟩ := exists_listed hfull hlog hc
  obtain ⟨s, c₂, c₃, hc₃, -, hlineage⟩ := exists_lineage hfull hlog hd
  obtain rfl := List.inj_on_of_nodup_map (nodup_passed hfull hlog) hc hc₃
    (hheader.functionName.trans hlineage.header.functionName.symm)
  obtain ⟨g, data, names, ws, hstub⟩ :=
    forall_listed (Compilation.sound_stubOf (b.environment options) (b.shaped suffix).blueprint)
      d hd link (hheader.stub.symm.trans hlink)
  have hcall : link.ubergraphCall = callId := by
    have hsame := hstub.stub.symm.trans (hheader.stub.symm.trans hlink)
    exact (congrArg StubLink.ubergraphCall (Option.some.inj hsame)).symm
  rw [hcall]
  exact hstub.passes hlineage handlesAll_environment

end VisualScript
