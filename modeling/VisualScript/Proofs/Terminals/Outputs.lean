import VisualScript.Proofs.Compile.Preparation
import VisualScript.Proofs.Terminals.Nets

/-!
# Stored outputs

Nodes of most kinds give their data outputs storage when they register.  If no error is
reported, these outputs are led to terminals from then on.
-/

namespace VisualScript

/-- Whether nodes of the kind store their data outputs. -/
def NodeKind.storesOutputs : NodeKind → Bool
  | functionEntry _ | event _ | callFunction _ | variableGet _ | temporaryVariable _ | branch
  | makeArray _ _ | timeline _ => true
  | functionResult | variableSet _ | knot _ | comment _ | macroInstance _ | tunnel _ => false

theorem NodeKind.hasHandler_of_storesOutputs {kind : NodeKind} (h : kind.storesOutputs = true) :
    kind.tag.hasHandler = true := by
  cases kind <;> first | rfl | cases h

theorem FunctionContext.Leads.isSome_net? {c : FunctionContext} {p : PinId} {term : Terminal}
    (h : c.Leads p term) : (c.net? p).isSome = true := by
  obtain ⟨t, term', hnet, -⟩ := h
  rw [hnet]
  rfl

namespace FunctionState

open VariableAccess

section Steps

variable {kinds : TermKind → Prop} {code : Prop} {n : NodeId} {s s' : FunctionState} {p : PinId}

/-- A pin that is led to a terminal stays so, maybe to another one. -/
theorem NodeStep.isSome_net? (h : NodeStep kinds code n s s') (hs : (s.ctx.net? p).isSome = true) :
    (s'.ctx.net? p).isSome = true := by
  cases h with
  | push term =>
    rw [FunctionContext.net?_pushTerm]
    exact hs
  | @net q t pin term =>
    rw [setNet, FunctionContext.net?_setNet]
    split
    · rfl
    · exact hs
  | _ => exact hs

theorem GraphSteps.isSome_net? (h : GraphSteps kinds code s s')
    (hs : (s.ctx.net? p).isSome = true) : (s'.ctx.net? p).isSome = true :=
  h.keeps (P := fun t ↦ (t.ctx.net? p).isSome = true) hs NodeStep.isSome_net?

/-- A pin that is led to a terminal in its turn is so in the end, if no error is reported. -/
theorem isSome_net?_foldl {f : FunctionState → PinId → FunctionState} {l : List PinId}
    (hsteps : ∀ s', SameFunction s s' → ∀ q ∈ l, NodeSteps (fun _ ↦ True) False n s' (f s' q))
    (hat : ∀ s', SameFunction s s' → (f s' p).log.numErrors ≤ s'.log.numErrors →
      ((f s' p).ctx.net? p).isSome = true)
    (hlog : (l.foldl f s).log.numErrors ≤ s.log.numErrors) (hp : p ∈ l) :
    ((l.foldl f s).ctx.net? p).isSome = true := by
  induction l generalizing s with
  | nil => cases hp
  | cons q l ih =>
    have hfirst := hsteps s (.refl s) q List.mem_cons_self
    have hrest : NodeSteps (fun _ ↦ True) False n (f s q) (l.foldl f (f s q)) :=
      steps_foldl_sameFunction fun s' hs' r hr ↦
        hsteps s' (hfirst.sameFunction.trans hs') r (List.mem_cons_of_mem q hr)
    rcases List.mem_cons.1 hp with rfl | hmem
    · exact hrest.graphSteps.isSome_net?
        (hat s (.refl s) (Nat.le_trans hrest.graphSteps.errors.1 hlog))
    · exact ih (fun s' hs' r hr ↦ hsteps s' (hfirst.sameFunction.trans hs') r
          (List.mem_cons_of_mem q hr))
        (fun s' hs' ↦ hat s' (hfirst.sameFunction.trans hs'))
        (Nat.le_trans hlog hfirst.graphSteps.errors.1) hmem

/-! ## Single pins -/

theorem isSome_net?_addLocal {pin : Pin} (hpin : s.graph.pin? p = some pin) :
    ((s.addLocal p).2.ctx.net? p).isSome = true :=
  (leads_addLocal hpin).isSome_net?

theorem isSome_net?_registerPin {pin : Pin} (hpin : s.graph.pin? p = some pin)
    (hout : pin.direction = .output) (hexec : pin.isExec = false) :
    ((s.registerPin p).ctx.net? p).isSome = true := by
  have hmeta : pin.isMeta = false := by simp [Pin.isMeta, Pin.isSelf, hexec, hout]
  have hregister : s.registerPin p = (s.addLocal p).2 := by
    simp only [registerPin, hpin, hmeta, hout, Bool.false_eq_true, if_false]
  rw [hregister]
  exact isSome_net?_addLocal hpin

theorem isSome_net?_registerTemporary {pin : Pin} (hpin : s.graph.pin? p = some pin) :
    ((TemporaryVariable.registerTemporary s p).ctx.net? p).isSome = true := by
  have hlocal := isSome_net?_addLocal hpin
  unfold TemporaryVariable.registerTemporary
  generalize s.addLocal p = r at hlocal
  obtain ⟨t?, s'⟩ := r
  cases t? with
  | none => exact hlocal
  | some t => exact hlocal

theorem isSome_net?_registerTrack {timeline : String} {pin : Pin}
    (hpin : s.graph.pin? p = some pin)
    (hlog : (TimelineNode.registerTrack timeline s p).log.numErrors ≤ s.log.numErrors) :
    ((TimelineNode.registerTrack timeline s p).ctx.net? p).isSome = true := by
  simp only [TimelineNode.registerTrack, hpin] at hlog ⊢
  split at hlog
  · exact absurd hlog (Nat.not_succ_le_self _)
  · next hfound =>
    rw [if_neg hfound, FunctionContext.net?_setNet, if_pos rfl]
    rfl

/-! ## Nodes -/

/-- A variable that is resolved lends its terminal to the outputs. -/
theorem isSome_net?_registerGet {var : VariableReference}
    (hlog : (VariableGet.register s n var).log.numErrors ≤ s.log.numErrors)
    (hp : p ∈ s.graph.filteredPins n .output false) :
    ((VariableGet.register s n var).ctx.net? p).isSome = true := by
  have hgraph : (resolve s n var true).2.graph = s.graph := by
    unfold resolve
    split
    · rfl
    · show (s.ctx.variableTerm (storageName var) var.ty _).2.graph = s.ctx.graph
      unfold FunctionContext.variableTerm
      split
      · rfl
      · exact s.ctx.graph_pushTerm _
  have hquiet : (resolve s n var true).1 = none →
      s.log.numErrors < (resolve s n var true).2.log.numErrors := by
    unfold resolve
    split
    · exact fun _ ↦ Nat.lt_succ_self _
    · exact fun hnone ↦ by cases hnone
  unfold VariableGet.register at hlog ⊢
  generalize resolve s n var true = r at hgraph hquiet hlog
  obtain ⟨t?, s'⟩ := r
  cases t? with
  | none => exact absurd (hquiet rfl) (Nat.not_lt.2 hlog)
  | some t =>
    have hp' : p ∈ s'.graph.filteredPins n .output false := by
      rw [show s'.graph = s.graph from hgraph]
      exact hp
    have hmono (l : List PinId) (s : FunctionState) (h : p ∈ l ∨ (s.ctx.net? p).isSome = true) :
        ((l.foldl (fun s q ↦ s.setNet q t) s).ctx.net? p).isSome = true := by
      induction l generalizing s with
      | nil => exact h.resolve_left List.not_mem_nil
      | cons q l ih =>
        refine ih _ ?_
        show p ∈ l ∨ ((s.ctx.setNet q t).net? p).isSome = true
        rw [FunctionContext.net?_setNet]
        by_cases hq : p = q
        · rw [if_pos hq]
          exact .inr rfl
        · rw [if_neg hq]
          exact h.imp_left fun hmem ↦ (List.mem_cons.1 hmem).resolve_left hq
    exact hmono _ s' (.inl hp')

/-- A node of a kind that stores its data outputs leads them to terminals when it registers. -/
theorem isSome_net?_register {kind : NodeKind} (hstores : kind.storesOutputs = true)
    (hlog : (kind.register s n).log.numErrors ≤ s.log.numErrors)
    (hp : p ∈ s.graph.filteredPins n .output false) :
    ((kind.register s n).ctx.net? p).isSome = true := by
  obtain ⟨hmem, pin, hpin, hout, hexec⟩ := Graph.mem_filteredPins.1 hp
  have hpin' {s' : FunctionState} (hs' : SameFunction s s') : s'.graph.pin? p = some pin := by
    rw [hs'.graph]
    exact hpin
  have hpins (hlog : (s.registerPins n).log.numErrors ≤ s.log.numErrors) :
      ((s.registerPins n).ctx.net? p).isSome = true :=
    isSome_net?_foldl (n := n)
      (fun s' hs' q hq ↦ steps_registerPin ⟨trivial, trivial⟩ trivial (hs'.graph ▸ hq))
      (fun s' hs' _ ↦ isSome_net?_registerPin (hpin' hs') hout hexec) hlog hmem
  cases kind with
  | functionEntry data =>
    exact isSome_net?_foldl (n := n)
      (fun s' hs' q hq ↦ steps_registerParameter trivial (hs'.graph ▸ hq))
      (fun s' hs' _ ↦ (leads_registerParameter (hpin' hs')).isSome_net?) hlog hp
  | event data =>
    simp only [NodeKind.register, Event.register] at hlog ⊢
    split at hlog
    · next hgraph =>
      rw [if_pos hgraph]
      exact isSome_net?_foldl (n := n)
        (fun s' hs' q hq ↦ steps_addLocal_of_mem ⟨trivial, trivial⟩ (hs'.graph ▸ hq))
        (fun s' hs' _ ↦ isSome_net?_addLocal (hpin' hs')) hlog hp
    · exact absurd hlog (Nat.not_succ_le_self _)
  | variableGet var => exact isSome_net?_registerGet hlog hp
  | temporaryVariable ty =>
    exact isSome_net?_foldl (n := n)
      (fun s' hs' q hq ↦ steps_registerTemporary ⟨trivial, trivial⟩ (hs'.graph ▸ hq))
      (fun s' hs' _ ↦ isSome_net?_registerTemporary (hpin' hs')) hlog hp
  | timeline name =>
    simp only [NodeKind.register, TimelineNode.register] at hlog ⊢
    split at hlog
    · next hgraph =>
      rw [if_pos hgraph]
      exact isSome_net?_foldl (n := n)
        (fun s' hs' q hq ↦ steps_registerTrack trivial (hs'.graph ▸ hq))
        (fun s' hs' ↦ isSome_net?_registerTrack (hpin' hs')) hlog hp
    · exact absurd hlog (Nat.not_succ_le_self _)
  | callFunction call => exact hpins hlog
  | branch => exact hpins hlog
  | makeArray element count => exact hpins hlog
  | _ => cases hstores

end Steps

/-! ## Whole functions -/

variable {env : CompileEnv} {s : FunctionState} {n : NodeId} {kind : NodeKind} {p : PinId}

/-- Nodes that register without an error have stored their outputs. -/
theorem isSome_net?_registerNodes (hlog : (s.registerNodes env).log.numErrors ≤ s.log.numErrors)
    (hn : n ∈ s.ctx.executionList) (hkind : s.graph.kind? n = some kind)
    (hhandles : env.handles kind = true) (hstores : kind.storesOutputs = true)
    (hp : p ∈ s.graph.filteredPins n .output false) :
    ((s.registerNodes env).ctx.net? p).isSome = true := by
  obtain ⟨before, after, hlist⟩ := List.append_of_mem hn
  rw [registerNodes_eq, hlist, List.foldl_append, List.foldl_cons] at hlog ⊢
  have hfirst : GraphSteps (· ≠ .userLocal) False s (before.foldl (registerNode env) s) :=
    graphSteps_foldl before fun s n ↦ graphSteps_registerNode env s n
  generalize before.foldl (registerNode env) s = s' at hlog hfirst ⊢
  have hrest : GraphSteps (· ≠ .userLocal) False (registerNode env s' n)
      (after.foldl (registerNode env) (registerNode env s' n)) :=
    graphSteps_foldl after fun s n ↦ graphSteps_registerNode env s n
  refine hrest.isSome_net? ?_
  have hquiet := Nat.le_trans hrest.errors.1 (Nat.le_trans hlog hfirst.errors.1)
  rw [← hfirst.sameFunction.graph] at hkind hp
  simp only [registerNode, hkind, hhandles, if_true] at hquiet ⊢
  exact isSome_net?_register hstores hquiet hp

/-- The data outputs of a scheduled node are stored in a prepared function, if its kind stores
them. -/
theorem isSome_net?_precompile (hlog : (s.precompile env).log.numErrors ≤ s.log.numErrors)
    (hn : n ∈ (s.precompile env).ctx.executionList)
    (hkind : (s.precompile env).ctx.graph.kind? n = some kind) (hhandles : env.handles kind = true)
    (hstores : kind.storesOutputs = true)
    (hp : p ∈ (s.precompile env).ctx.graph.filteredPins n .output false) :
    ((s.precompile env).ctx.net? p).isSome = true := by
  obtain ⟨entry, f, t, h⟩ := exists_creates hlog
  have hnodes := (graphSteps_registerNodes env (t.declared entry)).sameFunction
  rw [h.ctx, layOut_eq, (sameShape_createProperties (t.registered env entry)).eq] at hn hkind hp ⊢
  exact isSome_net?_registerNodes (laidQuietly h.quiet).nodes (hnodes.executionList ▸ hn)
    (hnodes.graph ▸ hkind) hhandles hstores (hnodes.graph ▸ hp)

end FunctionState

end VisualScript
