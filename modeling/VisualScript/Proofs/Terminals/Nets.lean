import VisualScript.Proofs.Terminals.Registration

/-!
# Where nets lead

A node leads its own pins to terminals when it registers.  No other node leads
them elsewhere, so at the end they lead where their node left them.
-/

namespace VisualScript

open Relation

namespace FunctionContext

/-- The pin is led to a terminal that agrees with this one. -/
def Leads (c : FunctionContext) (p : PinId) (term : Terminal) : Prop :=
  ∃ t term', c.net? p = some t ∧ c.term? t = some term' ∧ term.Agrees term'

variable {c : FunctionContext} {p q : PinId} {term : Terminal}

theorem Leads.pushNet (h : c.Leads p term) (new : Terminal) (hne : p ≠ q) :
    ((c.pushTerm new).2.setNet q (c.pushTerm new).1).Leads p term := by
  obtain ⟨t, term', hnet, hterm, hagrees⟩ := h
  refine ⟨t, term', ?_, term?_pushTerm_of_some hterm new, hagrees⟩
  rw [net?_setNet, if_neg hne, net?_pushTerm, hnet]

theorem leads_pushNet (c : FunctionContext) (new : Terminal) :
    ((c.pushTerm new).2.setNet q (c.pushTerm new).1).Leads q new := by
  refine ⟨⟨c.terms.length⟩, new, ?_, (c.term?_pushTerm new _).trans (if_pos rfl), .refl new⟩
  rw [net?_setNet, if_pos rfl]
  rfl

end FunctionContext

namespace FunctionState

variable {kinds : TermKind → Prop} {code : Prop} {n : NodeId} {s s' : FunctionState} {p q : PinId}
  {term : Terminal}

/-! ## What steps keep -/

/-- A node leads pins of its own only. -/
theorem NodeStep.leads (h : NodeStep kinds code n s s') (hp : p ∉ s.graph.pinsOf n)
    (hs : s.ctx.Leads p term) : s'.ctx.Leads p term := by
  obtain ⟨t, term', hnet, hterm, hagrees⟩ := hs
  cases h with
  | push new =>
    refine ⟨t, term', ?_, FunctionContext.term?_pushTerm_of_some hterm new, hagrees⟩
    rw [FunctionContext.net?_pushTerm, hnet]
  | @net q u pin new hmem =>
    refine ⟨t, term', ?_, hterm, hagrees⟩
    have hne : p ≠ q := by
      rintro rfl
      exact hp hmem
    exact (FunctionContext.net?_setNet _ _ _ _).trans ((if_neg hne).trans hnet)
  | touch u f hf =>
    by_cases heq : u = t
    · exact ⟨t, f term', hnet, by simp [heq, hterm], hagrees.trans (hf term').1⟩
    · exact ⟨t, term', hnet, by simp [heq, hterm], hagrees⟩
  | _ => exact ⟨t, term', hnet, hterm, hagrees⟩

theorem NodeSteps.leads (h : NodeSteps kinds code n s s') (hp : p ∉ s.graph.pinsOf n)
    (hs : s.ctx.Leads p term) : s'.ctx.Leads p term := by
  induction h with
  | refl => exact hs
  | tail hsteps hstep ih =>
    refine hstep.leads ?_ ih
    rwa [(NodeSteps.sameFunction hsteps).graph]

theorem GraphSteps.names (h : GraphSteps kinds code s s') :
    s.classNetNames.Extends s'.classNetNames :=
  h.keeps (P := fun t ↦ s.classNetNames.Extends t.classNetNames) (.refl _) fun hstep ht ↦ by
    cases hstep with
    | names onClass inFrame hnames => exact ht.trans hnames
    | _ => exact ht

/-- No node declares a local variable. -/
theorem GraphSteps.userLocals (h : GraphSteps (· ≠ .userLocal) code s s') :
    s'.ctx.userLocals = s.ctx.userLocals :=
  h.keeps (P := fun t ↦ t.ctx.userLocals = s.ctx.userLocals) rfl fun hstep ht ↦ by
    cases hstep with
    | push term hkind =>
      refine Eq.trans ?_ ht
      exact (FunctionContext.listOf_pushTerm _ term .userLocal).trans (if_neg hkind)
    | _ => exact ht

/-! ## Single pins -/

section Pins

theorem addLocal_eq {pin : Pin} (hpin : s.graph.pin? p = some pin) :
    ∃ term, term = Terminal.new (if s.ctx.isEventGraph then .eventGraphLocal else .frameLocal)
        (s.netName p).1 pin.ty (some (s.graph.pinToken p)) ∧
      (s.addLocal p).2 = { (s.netName p).2 with
        ctx := ((s.netName p).2.ctx.pushTerm term).2.setNet p
          ((s.netName p).2.ctx.pushTerm term).1 } := by
  refine ⟨_, rfl, ?_⟩
  have hname : (s.netName p).2.ctx.graph = s.graph ∧
      (s.netName p).2.ctx.isEventGraph = s.ctx.isEventGraph := by
    unfold netName
    split <;> exact ⟨rfl, rfl⟩
  have hlocal : (s.addLocal p).2 = { (s.netName p).2 with
      ctx := ((s.netName p).2.ctx.addLocalForPin p (s.netName p).1).2 } := rfl
  rw [hlocal, FunctionContext.addLocalForPin, hname.1, hname.2, hpin]
  rfl

theorem leads_netName : (s.netName p).2.ctx.Leads q term ↔ s.ctx.Leads q term := by
  unfold netName
  split <;> exact Iff.rfl

/-- A stored output is led to its storage, and no other pin is. -/
theorem leads_addLocal {pin : Pin} (hpin : s.graph.pin? p = some pin) :
    (s.addLocal p).2.ctx.Leads p (.new (if s.ctx.isEventGraph then .eventGraphLocal else .frameLocal)
      (s.netName p).1 pin.ty (some (s.graph.pinToken p))) := by
  obtain ⟨term, rfl, heq⟩ := addLocal_eq hpin
  rw [heq]
  exact FunctionContext.leads_pushNet _ _

theorem leads_addLocal_of_ne (hne : q ≠ p) (h : s.ctx.Leads q term) :
    (s.addLocal p).2.ctx.Leads q term := by
  cases hpin : s.graph.pin? p with
  | none =>
    have hsame : (s.addLocal p).2.ctx = (s.netName p).2.ctx := by
      have hgraph : (s.netName p).2.ctx.graph = s.graph := by
        unfold netName
        split <;> rfl
      simp only [addLocal, FunctionContext.addLocalForPin, hgraph, hpin]
    rw [hsame]
    exact leads_netName.2 h
  | some pin =>
    obtain ⟨new, -, heq⟩ := addLocal_eq hpin
    rw [heq]
    exact (leads_netName.2 h).pushNet new hne

theorem leads_registerParameter {pin : Pin} (hpin : s.graph.pin? p = some pin) :
    (FunctionEntry.registerParameter s p).ctx.Leads p
      (.new .parameter pin.name pin.ty (some (s.graph.pinToken p))) := by
  simp only [FunctionEntry.registerParameter, hpin]
  exact FunctionContext.leads_pushNet _ _

theorem leads_registerParameter_of_ne (hne : q ≠ p) (h : s.ctx.Leads q term) :
    (FunctionEntry.registerParameter s p).ctx.Leads q term := by
  unfold FunctionEntry.registerParameter
  split
  · exact h
  · exact h.pushNet _ hne

theorem leads_addLiteral {pin : Pin} (hpin : s.graph.pin? p = some pin) :
    (s.addLiteral p).ctx.Leads p { Terminal.new .literal pin.defaultValue pin.ty
      (some (s.graph.pinToken p)) with
        defaultValue := pin.defaultValue
        defaultObject := pin.defaultObject } := by
  simp only [addLiteral, FunctionContext.addLiteral, hpin]
  exact FunctionContext.leads_pushNet _ _

theorem leads_addLiteral_of_ne (hne : q ≠ p) (h : s.ctx.Leads q term) :
    (s.addLiteral p).ctx.Leads q term := by
  unfold addLiteral FunctionContext.addLiteral
  split
  · exact h
  · exact h.pushNet _ hne

theorem leads_registerPin_of_ne (hne : q ≠ p) (h : s.ctx.Leads q term) :
    (s.registerPin p).ctx.Leads q term := by
  unfold registerPin
  split
  · exact h
  · split
    · exact h
    · split
      · exact leads_addLocal_of_ne hne h
      · split
        · exact h
        · exact leads_addLiteral_of_ne hne h

end Pins

/-! ## Nodes -/

/-- A pin that has its turn among different ones keeps what it is led to. -/
theorem leads_foldl {f : FunctionState → PinId → FunctionState} {P : FunctionState → Prop}
    {l : List PinId} (hnodup : l.Nodup) (hp : p ∈ l)
    (hstep : ∀ s, P s → ∀ q ∈ l, P (f s q)) (hat : ∀ s, P s → (f s p).ctx.Leads p term)
    (hother : ∀ s, ∀ q ∈ l, p ≠ q → s.ctx.Leads p term → (f s q).ctx.Leads p term) (hs : P s) :
    (l.foldl f s).ctx.Leads p term := by
  have hafter (l : List PinId) (s : FunctionState) (h : s.ctx.Leads p term)
      (hother : ∀ s, ∀ q ∈ l, s.ctx.Leads p term → (f s q).ctx.Leads p term) :
      (l.foldl f s).ctx.Leads p term := by
    induction l generalizing s with
    | nil => exact h
    | cons q l ih =>
      exact ih _ (hother s q List.mem_cons_self h) fun s r hr ↦ hother s r (List.mem_cons_of_mem q hr)
  induction l generalizing s with
  | nil => cases hp
  | cons q l ih =>
    obtain ⟨hq, hrest⟩ := List.nodup_cons.1 hnodup
    by_cases heq : p = q
    · subst heq
      refine hafter l _ (hat s hs) fun s r hr ↦ hother s r (List.mem_cons_of_mem p hr) ?_
      rintro rfl
      exact hq hr
    · refine ih hrest ((List.mem_cons.1 hp).resolve_left heq) (fun s hs r hr ↦ ?_)
        (fun s r hr ↦ hother s r (List.mem_cons_of_mem q hr)) (hstep s hs q List.mem_cons_self)
      exact hstep s hs r (List.mem_cons_of_mem q hr)

section Nodes

variable (hwf : s.graph.WellFormed)
include hwf

theorem nodup_filteredPins (n : NodeId) (direction : Direction) (exec : Bool) :
    (s.graph.filteredPins n direction exec).Nodup :=
  (hwf.nodup_pinsOf n).filter _

/-- The data outputs of an entry are parameters. -/
theorem leads_registerEntry (hp : p ∈ s.graph.filteredPins n .output false) {pin : Pin}
    (hpin : s.graph.pin? p = some pin) : (FunctionEntry.register s n).ctx.Leads p
      (.new .parameter pin.name pin.ty (some (s.graph.pinToken p))) := by
  refine leads_foldl (P := (SameFunction s ·)) (nodup_filteredPins hwf n _ _) hp
    (fun s' hs' q hq ↦ ?_) (fun s' hs' ↦ ?_) (fun s' q _ ↦ leads_registerParameter_of_ne) (.refl s)
  · have hsteps : RegisterSteps n s' (FunctionEntry.registerParameter s' q) := by
      refine steps_registerParameter (by decide) ?_
      rwa [hs'.graph]
    exact hs'.trans hsteps.sameFunction
  · rw [← hs'.graph] at hpin ⊢
    exact leads_registerParameter hpin

/-- The data outputs of an event are stored on the class under the names that they have. -/
theorem leads_registerEvent (hgraph : s.ctx.isEventGraph = true)
    (hp : p ∈ s.graph.filteredPins n .output false) {pin : Pin}
    (hpin : s.graph.pin? p = some pin) {name : String} (hname : s.classNetNames.get? p = some name) :
    (Event.register s n).ctx.Leads p
      (.new .eventGraphLocal name pin.ty (some (s.graph.pinToken p))) := by
  unfold Event.register
  rw [if_pos hgraph]
  refine leads_foldl (P := fun s' ↦ SameFunction s s' ∧ s.classNetNames.Extends s'.classNetNames)
    (nodup_filteredPins hwf n _ _) hp (fun s' hs' q hq ↦ ?_) (fun s' hs' ↦ ?_)
    (fun s' q _ ↦ leads_addLocal_of_ne) ⟨.refl s, .refl _⟩
  · have hsteps : RegisterSteps n s' (s'.addLocal q).2 := by
      refine steps_addLocal_of_mem ⟨by decide, by decide⟩ ?_
      rwa [hs'.1.graph]
    exact ⟨hs'.1.trans hsteps.sameFunction, hs'.2.trans hsteps.graphSteps.names⟩
  · have hgraph' : s'.ctx.isEventGraph = true := by
      rw [FunctionContext.isEventGraph, hs'.1.flags]
      exact hgraph
    have hstored : (s'.netName p).1 = name := by
      unfold netName
      rw [if_pos hgraph']
      exact NetNameMap.nameOf_of_get? (hs'.2.kept p name hname)
    rw [← hs'.1.graph] at hpin ⊢
    have hleads := leads_addLocal hpin
    rwa [if_pos hgraph', hstored] at hleads

/-- An input without links is a literal, on a node that registers all its pins. -/
theorem leads_registerPins (hp : p ∈ s.graph.pinsOf n) {pin : Pin}
    (hpin : s.graph.pin? p = some pin) (hmeta : pin.isMeta = false) (hside : pin.direction = .input)
    (hlinks : pin.isLinked = false) : (s.registerPins n).ctx.Leads p
      { Terminal.new .literal pin.defaultValue pin.ty (some (s.graph.pinToken p)) with
        defaultValue := pin.defaultValue
        defaultObject := pin.defaultObject } := by
  refine leads_foldl (P := (SameFunction s ·)) (hwf.nodup_pinsOf n) hp
    (fun s' hs' q hq ↦ ?_) (fun s' hs' ↦ ?_) (fun s' q _ ↦ leads_registerPin_of_ne) (.refl s)
  · have hsteps : RegisterSteps n s' (s'.registerPin q) := by
      refine steps_registerPin ⟨by decide, by decide⟩ (by decide) ?_
      rwa [hs'.graph]
    exact hs'.trans hsteps.sameFunction
  · rw [← hs'.graph] at hpin ⊢
    have hregister : s'.registerPin p = s'.addLiteral p := by
      simp only [registerPin, hpin, hmeta, hside, hlinks, Bool.false_eq_true, if_false]
    rw [hregister]
    exact leads_addLiteral hpin

end Nodes

/-! ## All nodes -/

/-- A node that can be compiled registers in its turn, and nobody leads its pins elsewhere. -/
theorem exists_registered {env : CompileEnv} {kind : NodeKind} (hwf : s.graph.WellFormed)
    (hnodup : s.ctx.executionList.Nodup) (hn : n ∈ s.ctx.executionList)
    (hkind : s.graph.kind? n = some kind) (hhandles : env.handles kind = true) :
    ∃ s', GraphSteps (· ≠ .userLocal) False s s' ∧
      ∀ p ∈ s.graph.pinsOf n, ∀ term, (kind.register s' n).ctx.Leads p term →
        (s.registerNodes env).ctx.Leads p term := by
  obtain ⟨before, after, hlist⟩ := List.append_of_mem hn
  have hfirst : GraphSteps (· ≠ .userLocal) False s (before.foldl (registerNode env) s) :=
    graphSteps_foldl before fun s n ↦ graphSteps_registerNode env s n
  refine ⟨before.foldl (registerNode env) s, hfirst, fun p hp term hleads ↦ ?_⟩
  have hafter : n ∉ after := by
    rw [hlist] at hnodup
    exact (List.nodup_cons.1 (List.nodup_append.1 hnodup).2.1).1
  have hregister : registerNode env (before.foldl (registerNode env) s) n =
      kind.register (before.foldl (registerNode env) s) n := by
    have hkind' : (before.foldl (registerNode env) s).graph.kind? n = some kind := by
      rw [hfirst.sameFunction.graph]
      exact hkind
    simp only [registerNode, hkind', hhandles, if_true]
  have hsame : SameFunction s (kind.register (before.foldl (registerNode env) s) n) := by
    rw [← hregister]
    exact hfirst.sameFunction.trans (graphSteps_registerNode env _ n).sameFunction
  rw [registerNodes_eq, hlist, List.foldl_append, List.foldl_cons, hregister]
  generalize kind.register (before.foldl (registerNode env) s) n = s'' at hleads hsame
  clear hlist hregister
  induction after generalizing s'' with
  | nil => exact hleads
  | cons m after ih =>
    obtain ⟨hne, hrest⟩ := List.ne_and_not_mem_of_not_mem_cons hafter
    have hsteps := graphSteps_registerNode env s'' m
    refine ih hrest _ ?_ (hsame.trans hsteps.sameFunction)
    unfold registerNode
    split
    · next kind' hkind' =>
      split
      · refine NodeSteps.leads (steps_register hkind') ?_ hleads
        rw [hsame.graph, hwf.mem_pinsOf, (hwf.mem_pinsOf n p).1 hp]
        exact fun heq ↦ hne (Option.some.inj heq)
      · exact hleads
    · exact hleads

end FunctionState

end VisualScript
