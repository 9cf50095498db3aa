import VisualScript.Proofs.Terminals.Registration

/-!
# Variables that were resolved

A variable that an assignment names is resolved when the node registers.  If no
error was reported, its terminal is there from then on.
-/

namespace VisualScript

open VariableAccess

namespace FunctionContext

/-- The variable was resolved: it has a terminal, and there was a reason to make one. -/
structure Resolves (c : FunctionContext) (cls : Class) (var : VariableReference) : Prop where
  term : c.HasTerm .userLocal (storageName var) ∨ c.HasTerm .memberReference (storageName var)
  found : var.owner.isSome ∨ c.HasTerm .userLocal var.name ∨ (cls.findProperty? var.name).isSome

/-- The variables that a node assigns to. -/
def assignedVariables (g : Graph) (n : NodeId) : List VariableReference :=
  match g.kind? n with
  | some (.variableSet (some var)) => [var]
  | some (.variableSet none) => (g.filteredPins n .input false).filterMap fun p ↦
      (g.pin? p).map fun pin ↦ .selfMember pin.name pin.ty
  | _ => []

/-- Every variable that the node assigns to was resolved. -/
def Settled (c : FunctionContext) (cls : Class) (n : NodeId) : Prop :=
  ∀ var ∈ assignedVariables c.graph n, c.Resolves cls var

theorem Settled.congr {c d : FunctionContext} {cls : Class} {n : NodeId} (h : c.Settled cls n)
    (hterms : d.terms = c.terms) (hgraph : d.graph = c.graph) : d.Settled cls n := by
  intro var hvar
  rw [hgraph] at hvar
  obtain ⟨hterm, hfound⟩ := h var hvar
  simp only [HasTerm, term?] at hterm hfound
  exact ⟨by simpa only [HasTerm, term?, hterms] using hterm,
    by simpa only [HasTerm, term?, hterms] using hfound⟩

end FunctionContext

namespace FunctionState

section Steps

variable {kinds : TermKind → Prop} {code : Prop} {n : NodeId} {s s' : FunctionState}

/-- A terminal that was made stays. -/
theorem NodeStep.hasTerm (h : NodeStep kinds code n s s') {kind : TermKind} {name : String}
    (hs : s.ctx.HasTerm kind name) : s'.ctx.HasTerm kind name := by
  obtain ⟨t, term, hterm, hkind, hname⟩ := hs
  cases h with
  | push new => exact FunctionContext.HasTerm.pushTerm ⟨t, term, hterm, hkind, hname⟩ new
  | touch u f hf =>
    by_cases heq : u = t
    · refine ⟨t, f term, by simp [heq, hterm], ?_, ?_⟩
      · rw [(hf term).1.kind, hkind]
      · rw [(hf term).1.name, hname]
    · exact ⟨t, term, by simp [heq, hterm], hkind, hname⟩
  | _ => exact ⟨t, term, hterm, hkind, hname⟩

theorem NodeStep.resolves (h : NodeStep kinds code n s s') {var : VariableReference}
    (hs : s.ctx.Resolves s.cls var) : s'.ctx.Resolves s'.cls var := by
  have hcls := h.sameFunction.cls
  exact ⟨hs.term.imp h.hasTerm h.hasTerm, hs.found.imp_right (Or.imp h.hasTerm (hcls ▸ id))⟩

theorem GraphSteps.resolves (h : GraphSteps kinds code s s') {var : VariableReference}
    (hs : s.ctx.Resolves s.cls var) : s'.ctx.Resolves s'.cls var :=
  h.keeps (P := fun t ↦ t.ctx.Resolves t.cls var) hs fun hstep ht ↦ hstep.resolves ht

theorem GraphSteps.settled (h : GraphSteps kinds code s s') {m : NodeId}
    (hs : s.ctx.Settled s.cls m) : s'.ctx.Settled s'.cls m := by
  intro var hvar
  have hgraph : s'.ctx.graph = s.ctx.graph := h.sameFunction.graph
  rw [hgraph] at hvar
  exact h.resolves (hs var hvar)

/-! ## Resolving -/

theorem hasTerm_userLocal (hs : s.ctx.Enlisted) {name : String} :
    isUserLocal s.ctx name = true ↔ s.ctx.HasTerm .userLocal name :=
  hs.findNamed?_isSome .userLocal

/-- The terminal of a variable is a local variable or a member of its name. -/
theorem hasTerm_variableTerm (hs : s.ctx.Enlisted) (name : String) (ty : PinType)
    (source : Option SourceToken) :
    (s.ctx.variableTerm name ty source).2.HasTerm .userLocal name ∨
      (s.ctx.variableTerm name ty source).2.HasTerm .memberReference name := by
  unfold FunctionContext.variableTerm
  split
  · next t ht =>
    have hmem := List.mem_of_find?_eq_some ht
    have hnamed := List.find?_some ht
    obtain ⟨term, hterm, hname⟩ := (Option.any_eq_true _ _).1 hnamed
    have hname' : term.name = name := by simpa using hname
    rcases List.mem_append.1 hmem with hmem | hmem
    · obtain ⟨term', hterm', hkind⟩ := (hs.mem_listOf .userLocal).1 hmem
      rw [hterm] at hterm'
      cases hterm'
      exact .inl ⟨t, term, hterm, hkind, hname'⟩
    · obtain ⟨term', hterm', hkind⟩ := (hs.mem_listOf .memberReference).1 hmem
      rw [hterm] at hterm'
      cases hterm'
      exact .inr ⟨t, term, hterm, hkind, hname'⟩
  · exact .inr ⟨_, _, (s.ctx.term?_pushTerm _ _).trans (if_pos rfl), rfl, rfl⟩

theorem hasTerm_of_variableTerm {kind : TermKind} {name : String} (h : s.ctx.HasTerm kind name)
    (name' : String) (ty : PinType) (source : Option SourceToken) :
    (s.ctx.variableTerm name' ty source).2.HasTerm kind name := by
  unfold FunctionContext.variableTerm
  split
  · exact h
  · exact h.pushTerm _

/-- A variable is resolved if no error is reported. -/
theorem resolves_resolve (hs : s.ctx.Enlisted) {m : NodeId} {var : VariableReference}
    (hlog : (resolve s m var true).2.log.numErrors ≤ s.log.numErrors) :
    (resolve s m var true).2.ctx.Resolves (resolve s m var true).2.cls var := by
  unfold resolve at hlog ⊢
  split
  · next hmissing =>
    rw [if_pos hmissing] at hlog
    simp only [if_true, FunctionState.error, MessageLog.numErrors_error] at hlog
    omega
  · next hfound =>
    refine ⟨hasTerm_variableTerm hs _ _ _, ?_⟩
    cases howner : var.owner with
    | some owner => exact .inl rfl
    | none =>
      right
      cases hlocal : isUserLocal s.ctx var.name with
      | true => exact .inl (hasTerm_of_variableTerm ((hasTerm_userLocal hs).1 hlocal) _ _ _)
      | false =>
        right
        simpa [howner, hlocal, Option.isSome_iff_ne_none] using hfound

/-- Members that are resolved one after another all are, if no error is reported. -/
theorem resolves_resolveMembers (hs : s.Registered) {ps : List PinId}
    {pairs : List (TermId × PinId)}
    (hlog : (ps.foldl (VariableSet.resolveMember n true) (pairs, s)).2.log.numErrors ≤
      s.log.numErrors) :
    ∀ p ∈ ps, ∀ pin, s.graph.pin? p = some pin →
      (ps.foldl (VariableSet.resolveMember n true) (pairs, s)).2.ctx.Resolves
        (ps.foldl (VariableSet.resolveMember n true) (pairs, s)).2.cls
          (.selfMember pin.name pin.ty) := by
  induction ps generalizing s pairs with
  | nil => exact fun p hp ↦ by cases hp
  | cons q ps ih =>
    rw [List.foldl_cons] at hlog ⊢
    intro p hp pin hpin
    cases hq : s.graph.pin? q with
    | none =>
      have hsame : VariableSet.resolveMember n true (pairs, s) q = (pairs, s) := by
        simp only [VariableSet.resolveMember, hq]
      rw [hsame] at hlog ⊢
      rcases List.mem_cons.1 hp with rfl | hp
      · rw [hq] at hpin
        cases hpin
      · exact ih hs hlog p hp pin hpin
    | some pin' =>
      rw [resolveMember_eq hq] at hlog ⊢
      have hfirst : RegisterSteps n s (resolve s n (.selfMember pin'.name pin'.ty) true).2 :=
        steps_resolve (by decide) n true fun owner howner ↦ by cases howner
      have hrest : GraphSteps (· ≠ .userLocal) False
          (resolve s n (.selfMember pin'.name pin'.ty) true).2 (ps.foldl
            (VariableSet.resolveMember n true)
            (pairs ++ ((resolve s n (.selfMember pin'.name pin'.ty) true).1.map (·, q)).toList,
              (resolve s n (.selfMember pin'.name pin'.ty) true).2)).2 :=
        NodeSteps.graphSteps (steps_resolveMembers (by decide) true ps _)
      rcases List.mem_cons.1 hp with rfl | hp
      · cases hq.symm.trans hpin
        exact hrest.resolves (resolves_resolve hs.enlisted (Nat.le_trans hrest.errors.1 hlog))
      · refine ih (hfirst.graphSteps.registered hs)
          (Nat.le_trans hlog hfirst.graphSteps.errors.1) p hp pin ?_
        rwa [hfirst.sameFunction.graph]

/-- A node that registers without an error has resolved its variables. -/
theorem settled_register {kind : NodeKind} (hs : s.Registered)
    (hkind : s.graph.kind? n = some kind)
    (hlog : (kind.register s n).log.numErrors ≤ s.log.numErrors) :
    (kind.register s n).ctx.Settled (kind.register s n).cls n := by
  intro var hvar
  have hgraph : (kind.register s n).ctx.graph = s.graph := (steps_register hkind).sameFunction.graph
  rw [hgraph, FunctionContext.assignedVariables, hkind] at hvar
  cases kind with
  | variableSet var' =>
    have hvalues : GraphSteps (· ≠ .userLocal) False (VariableSet.assignments s n var' true).2
        (VariableSet.register s n var') :=
      (steps_registerValues (by decide) (by decide) hkind).graphSteps
    have hlog' := Nat.le_trans hvalues.errors.1 hlog
    refine hvalues.resolves ?_
    cases var' with
    | none =>
      obtain ⟨p, hp, heq⟩ := List.mem_filterMap.1 hvar
      obtain ⟨pin, hpin, rfl⟩ := Option.map_eq_some_iff.1 heq
      exact resolves_resolveMembers hs hlog' p hp pin hpin
    | some var' =>
      rw [List.mem_singleton.1 hvar]
      rw [assignments_some] at hlog' ⊢
      exact resolves_resolve hs.enlisted hlog'
  | _ => cases hvar

end Steps

theorem settled_registerNode {env : CompileEnv} (henv : ∀ var, env.handles (.variableSet var))
    {s : FunctionState} (hs : s.Registered) (n : NodeId)
    (hlog : (registerNode env s n).log.numErrors ≤ s.log.numErrors) :
    (registerNode env s n).ctx.Settled (registerNode env s n).cls n := by
  have hgraph : (registerNode env s n).ctx.graph = s.ctx.graph :=
    (graphSteps_registerNode env s n).sameFunction.graph
  cases hkind : s.graph.kind? n with
  | none =>
    intro var hvar
    simp [hgraph, FunctionContext.assignedVariables, hkind] at hvar
  | some kind =>
    cases kind with
    | variableSet var =>
      simp only [registerNode, hkind, henv, if_true] at hlog ⊢
      exact settled_register hs hkind hlog
    | _ =>
      intro var hvar
      simp [hgraph, FunctionContext.assignedVariables, hkind] at hvar

/-- Nodes that register without an error have resolved their variables. -/
theorem settled_registerNodes {env : CompileEnv} (henv : ∀ var, env.handles (.variableSet var))
    {s : FunctionState} (hs : s.Registered)
    (hlog : (s.registerNodes env).log.numErrors ≤ s.log.numErrors) :
    ∀ n ∈ s.ctx.executionList, (s.registerNodes env).ctx.Settled (s.registerNodes env).cls n := by
  rw [registerNodes_eq] at hlog ⊢
  generalize s.ctx.executionList = list at hlog ⊢
  induction list generalizing s with
  | nil => exact fun n hn ↦ by cases hn
  | cons m list ih =>
    rw [List.foldl_cons] at hlog ⊢
    have hfirst := graphSteps_registerNode env s m
    have hrest : GraphSteps (· ≠ .userLocal) False (registerNode env s m)
        (list.foldl (registerNode env) (registerNode env s m)) :=
      graphSteps_foldl list fun s n ↦ graphSteps_registerNode env s n
    intro n hn
    rcases List.mem_cons.1 hn with rfl | hn
    · exact hrest.settled (settled_registerNode henv hs n (Nat.le_trans hrest.errors.1 hlog))
    · exact ih (hfirst.registered hs) (Nat.le_trans hlog hfirst.errors.1) n hn

/-! ## Places of nodes -/

/-- Events and timelines that can be compiled stand in the event graph. -/
def Placed (env : CompileEnv) (c : FunctionContext) (n : NodeId) : Prop :=
  c.isEventGraph = false → ∀ kind, c.graph.kind? n = some kind → env.handles kind = true →
    kind.tag ≠ .event ∧ kind.tag ≠ .timeline

theorem placed_registerNode {env : CompileEnv} {s : FunctionState} {n : NodeId}
    (hlog : (registerNode env s n).log.numErrors ≤ s.log.numErrors) : Placed env s.ctx n := by
  intro hfunction kind hkind hhandles
  have hregister : registerNode env s n = kind.register s n := by
    simp only [registerNode, graph, hkind, hhandles, if_true]
  rw [hregister] at hlog
  constructor
  · intro htag
    cases kind with
    | event data =>
      simp only [NodeKind.register, Event.register, hfunction, Bool.false_eq_true, if_false] at hlog
      exact absurd hlog (Nat.not_succ_le_self _)
    | _ => cases htag
  · intro htag
    cases kind with
    | timeline name =>
      simp only [NodeKind.register, TimelineNode.register, hfunction, Bool.false_eq_true,
        if_false] at hlog
      exact absurd hlog (Nat.not_succ_le_self _)
    | _ => cases htag

theorem placed_registerNodes {env : CompileEnv} {s : FunctionState}
    (hlog : (s.registerNodes env).log.numErrors ≤ s.log.numErrors) :
    ∀ n ∈ s.ctx.executionList, Placed env s.ctx n := by
  intro n hn
  obtain ⟨before, after, hlist⟩ := List.append_of_mem hn
  rw [registerNodes_eq, hlist, List.foldl_append, List.foldl_cons] at hlog
  have hfirst : GraphSteps (· ≠ .userLocal) False s (before.foldl (registerNode env) s) :=
    graphSteps_foldl before fun s n ↦ graphSteps_registerNode env s n
  generalize before.foldl (registerNode env) s = s' at hlog hfirst
  have hrest : GraphSteps (· ≠ .userLocal) False (registerNode env s' n)
      (after.foldl (registerNode env) (registerNode env s' n)) :=
    graphSteps_foldl after fun s n ↦ graphSteps_registerNode env s n
  have hplaced := placed_registerNode (s := s') (n := n)
    (Nat.le_trans hrest.errors.1 (Nat.le_trans hlog hfirst.errors.1))
  have hflags := hfirst.sameFunction.flags
  have hgraph := hfirst.sameFunction.graph
  intro hfunction
  rw [Placed, FunctionContext.isEventGraph, hflags, ← graph, hgraph] at hplaced
  exact hplaced hfunction

end FunctionState

end VisualScript
