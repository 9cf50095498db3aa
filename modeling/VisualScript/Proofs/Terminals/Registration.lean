import VisualScript.Compile.Precompile
import VisualScript.Proofs.Graph.Books
import VisualScript.Proofs.Terminals.Steps

/-!
# Registering nodes

Every kind of node registers by steps of its own.
-/

namespace VisualScript

/-- The kinds of the terminals that a node of the kind makes when it registers. -/
def NodeKind.makes : NodeKind → List TermKind
  | functionEntry _ => [.parameter]
  | functionResult => [.result, .literal]
  | event _ | temporaryVariable _ => [.frameLocal, .eventGraphLocal]
  | variableGet _ | timeline _ => [.memberReference]
  | variableSet _ => [.memberReference, .literal]
  | callFunction _ | branch | makeArray _ _ => [.frameLocal, .eventGraphLocal, .literal]
  | knot _ | comment _ | macroInstance _ | tunnel _ => []

/-- Local variables are declared by the entry, before any node registers. -/
theorem NodeKind.ne_userLocal_of_mem_makes {kind : NodeKind} {term : TermKind}
    (h : term ∈ kind.makes) : term ≠ .userLocal := by
  rintro rfl
  cases kind <;> simp [makes] at h

namespace FunctionState

open Relation

section Steps

variable {kinds : TermKind → Prop} {code : Prop} {n : NodeId} {s : FunctionState}

/-- A fold keeps stepping if each of its turns does in the states that it may meet. -/
theorem steps_foldl {α : Type} {f : FunctionState → α → FunctionState} {l : List α}
    {P : FunctionState → Prop}
    (hstep : ∀ s, P s → ∀ a ∈ l, NodeSteps kinds code n s (f s a) ∧ P (f s a)) (hs : P s) :
    NodeSteps kinds code n s (l.foldl f s) := by
  induction l generalizing s with
  | nil => exact .refl
  | cons a l ih =>
    obtain ⟨hsteps, hP⟩ := hstep s hs a List.mem_cons_self
    exact hsteps.trans (ih (fun t ht b hb ↦ hstep t ht b (List.mem_cons_of_mem _ hb)) hP)

/-- The turns may rely on the function being the same. -/
theorem steps_foldl_sameFunction {α : Type} {f : FunctionState → α → FunctionState}
    {l : List α}
    (hstep : ∀ s', SameFunction s s' → ∀ a ∈ l, NodeSteps kinds code n s' (f s' a)) :
    NodeSteps kinds code n s (l.foldl f s) := by
  refine steps_foldl (P := SameFunction s) (fun s' hs' a ha ↦ ?_) (.refl s)
  have hsteps := hstep s' hs' a ha
  exact ⟨hsteps, hs'.trans hsteps.sameFunction⟩

theorem steps_error (text : String) (tokens : List SourceToken) :
    NodeSteps kinds code n s (s.error text tokens) :=
  .single (.error text tokens)

/-! ## Terminals of pins -/

/-- A pin of the node is led to a new terminal. -/
theorem steps_pushNet {p : PinId} {pin : Pin} {term : Terminal} (hkinds : kinds term.kind)
    (hadmits : s.Admits term) (hp : p ∈ s.graph.pinsOf n) (hpin : s.graph.pin? p = some pin)
    (hliteral : pin.direction = .input → term.kind = .literal) :
    NodeSteps kinds code n s
      { s with ctx := (s.ctx.pushTerm term).2.setNet p (s.ctx.pushTerm term).1 } := by
  refine .tail (.single (.push term hkinds hadmits)) 
    (NodeStep.net ?_ (?_ : _ = some pin) (?_ : _ = some term) hliteral)
  · simpa only [graph, FunctionContext.graph_pushTerm] using hp
  · simpa only [graph, FunctionContext.graph_pushTerm] using hpin
  · exact (s.ctx.term?_pushTerm term _).trans (if_pos rfl)

theorem admits_new {kind : TermKind} (hkind : kind ≠ .memberReference) (name : String)
    (ty : PinType) {source : Option SourceToken}
    (hsource : ∀ name, source.map (·.object) ≠ some (.property name))
    (hstored : kind = .eventGraphLocal →
      s.ctx.isEventGraph = true ∧ ∃ p, s.classNetNames.get? p = some name) :
    s.Admits (.new kind name ty source) :=
  ⟨rfl, hsource, hstored, fun h ↦ absurd h hkind⟩

theorem steps_addLocal (hkinds : kinds .frameLocal ∧ kinds .eventGraphLocal) {p : PinId}
    {pin : Pin} (hp : p ∈ s.graph.pinsOf n) (hpin : s.graph.pin? p = some pin)
    (hout : pin.direction = .output) : NodeSteps kinds code n s (s.addLocal p).2 := by
  have hnames : NodeStep kinds code n s (s.netName p).2 := by
    unfold netName
    split
    · exact .names _ _ (NetNameMap.extends_nameOf _ _ _)
    · exact .names _ _ (.refl _)
  have hsame := hnames.sameFunction
  have hstored : (s.netName p).2.ctx.isEventGraph = true →
      ∃ q, (s.netName p).2.classNetNames.get? q = some (s.netName p).1 := by
    unfold netName
    split
    · exact fun _ ↦ ⟨p, NetNameMap.get?_nameOf _ _ _⟩
    · next hnot => exact fun h ↦ absurd h hnot
  refine .trans (.single hnames) ?_
  have hlocal : (s.addLocal p).2 = { (s.netName p).2 with
      ctx := ((s.netName p).2.ctx.addLocalForPin p (s.netName p).1).2 } := rfl
  rw [hlocal]
  generalize (s.netName p).1 = name at hstored ⊢
  generalize (s.netName p).2 = t at hsame hstored ⊢
  rw [← hsame.graph] at hp hpin
  simp only [FunctionContext.addLocalForPin, hpin]
  have hin : pin.direction = .input → False := by simp [hout]
  split
  · next hgraph =>
    exact steps_pushNet hkinds.2 (admits_new (by decide) _ _ nofun fun _ ↦ ⟨hgraph, hstored hgraph⟩)
      hp hpin (fun h ↦ (hin h).elim)
  · exact steps_pushNet hkinds.1 (admits_new (by decide) _ _ nofun nofun) hp hpin
      (fun h ↦ (hin h).elim)

theorem steps_addLiteral (hkinds : kinds .literal) {p : PinId}
    (hp : p ∈ s.graph.pinsOf n) : NodeSteps kinds code n s (s.addLiteral p) := by
  cases hpin : s.graph.pin? p with
  | none =>
    have hsame : s.addLiteral p = s := by
      simp only [FunctionState.addLiteral, FunctionContext.addLiteral, hpin]
    rw [hsame]
  | some pin =>
    simp only [FunctionState.addLiteral, FunctionContext.addLiteral, hpin]
    exact steps_pushNet hkinds ⟨rfl, nofun, nofun, nofun⟩ hp hpin fun _ ↦ rfl

theorem steps_registerPin (hlocal : kinds .frameLocal ∧ kinds .eventGraphLocal)
    (hliteral : kinds .literal) {p : PinId} (hp : p ∈ s.graph.pinsOf n) :
    NodeSteps kinds code n s (s.registerPin p) := by
  unfold FunctionState.registerPin
  split
  · exact .refl
  · next pin hpin =>
    split
    · exact .refl
    · split
      · next hout =>
        exact steps_addLocal hlocal hp hpin hout
      · split
        · exact .refl
        · exact steps_addLiteral hliteral hp

theorem steps_registerPins (hlocal : kinds .frameLocal ∧ kinds .eventGraphLocal)
    (hliteral : kinds .literal) : NodeSteps kinds code n s (s.registerPins n) :=
  steps_foldl_sameFunction fun _ hs _ hp ↦ steps_registerPin hlocal hliteral (hs.graph ▸ hp)

/-! ## Variables -/

/-- The terminal of a variable is there, whether it was made now or before. -/
theorem exists_variableTerm (c : FunctionContext) (name : String) (ty : PinType)
    (source : Option SourceToken) :
    ∃ term, (c.variableTerm name ty source).2.term? (c.variableTerm name ty source).1 =
      some term := by
  unfold FunctionContext.variableTerm
  split
  · next t ht =>
    have hnamed := List.find?_some ht
    obtain ⟨term, hterm, -⟩ := (Option.any_eq_true _ _).1 hnamed
    exact ⟨term, hterm⟩
  · exact ⟨_, (c.term?_pushTerm _ _).trans (if_pos rfl)⟩

theorem steps_variableTerm (hkinds : kinds .memberReference) (name : String) (ty : PinType)
    {source : Option SourceToken}
    (hsource : ∀ name, source.map (·.object) ≠ some (.property name))
    (hmember : (s.cls.findProperty? name).isSome ∨ s.graph.NamesExplicitly name ∨
      (s.ctx.findNamed? name s.ctx.userLocals).isSome) :
    NodeSteps kinds code n s { s with ctx := (s.ctx.variableTerm name ty source).2 } := by
  unfold FunctionContext.variableTerm
  split
  · exact .refl
  · next hnone =>
    refine .single (.push _ hkinds ⟨rfl, hsource, nofun, fun _ ↦ ?_⟩)
    rw [← or_assoc] at hmember
    refine hmember.resolve_right fun hlocal ↦ ?_
    -- A local variable of that name would have been found.
    rw [FunctionContext.findNamed?, List.find?_append, Option.or_eq_none_iff] at hnone
    rw [FunctionContext.findNamed?, hnone.1] at hlocal
    cases hlocal

open VariableAccess

theorem steps_resolve (hkinds : kinds .memberReference) (m : NodeId) {var : VariableReference}
    (report : Bool)
    (hvar : ∀ owner, var.owner = some owner → s.graph.NamesExplicitly (owner ++ "." ++ var.name)) :
    NodeSteps kinds code n s (resolve s m var report).2 := by
  unfold resolve
  split
  · split
    · exact steps_error _ _
    · exact .refl
  · next hfound =>
    refine steps_variableTerm hkinds _ _ nofun ?_
    cases howner : var.owner with
    | some owner =>
      have hname : storageName var = owner ++ "." ++ var.name := by simp [storageName, howner]
      rw [hname]
      exact .inr (.inl (hvar owner howner))
    | none =>
      have hname : storageName var = var.name := by simp [storageName, howner]
      simp only [howner, Option.isNone_none, Bool.true_and, Bool.and_eq_true,
        Bool.not_eq_true', Option.isNone_iff_eq_none, not_and, isUserLocal] at hfound
      rw [hname]
      cases hlocal : (s.ctx.findNamed? var.name s.ctx.userLocals).isSome with
      | true => exact .inr (.inr rfl)
      | false => exact .inl (Option.isSome_iff_ne_none.2 (hfound hlocal))

theorem exists_term?_of_resolve {m : NodeId} {var : VariableReference} {report : Bool}
    {t : TermId} (h : (resolve s m var report).1 = some t) :
    ∃ term, (resolve s m var report).2.ctx.term? t = some term := by
  unfold resolve at h ⊢
  split
  · next hmissing => simp [hmissing] at h
  · next hfound =>
    rw [if_neg hfound] at h
    cases h
    exact exists_variableTerm s.ctx _ _ _

/-- Leads outputs of the node to a terminal that is there. -/
theorem steps_setNets {t : TermId} {term : Terminal} (ht : s.ctx.term? t = some term) :
    NodeSteps kinds code n s
      ((s.graph.filteredPins n .output false).foldl (fun s p ↦ s.setNet p t) s) := by
  refine steps_foldl (P := fun s' ↦ s'.graph = s.graph ∧ s'.ctx.term? t = some term)
    (fun s' hs' p hp ↦ ?_) ⟨rfl, ht⟩
  obtain ⟨hmem, pin, hpin, hout, -⟩ := Graph.mem_filteredPins.1 hp
  refine ⟨.single (.net (hs'.1 ▸ hmem) (hs'.1 ▸ hpin : _ = some pin) hs'.2 fun hin ↦ ?_), hs'⟩
  rw [hout] at hin
  cases hin

/-! ## The kinds -/

theorem steps_registerGet (hmember : kinds .memberReference) {var : VariableReference}
    (hkind : s.graph.kind? n = some (.variableGet var)) :
    NodeSteps kinds code n s (VariableGet.register s n var) := by
  have hsteps : NodeSteps kinds code n s (resolve s n var true).2 :=
    steps_resolve hmember n true fun owner howner ↦ ⟨n, var, owner, .inl hkind, howner, rfl⟩
  have hterm (t : TermId) : (resolve s n var true).1 = some t →
      ∃ term, (resolve s n var true).2.ctx.term? t = some term := exists_term?_of_resolve
  unfold VariableGet.register
  generalize resolve s n var true = r at hsteps hterm
  obtain ⟨t?, s'⟩ := r
  cases t? with
  | none => exact hsteps
  | some t =>
    obtain ⟨term, hterm⟩ := hterm t rfl
    exact hsteps.trans (steps_setNets hterm)

theorem resolveMember_eq {p : PinId} {pin : Pin} (hpin : s.graph.pin? p = some pin)
    (report : Bool) (pairs : List (TermId × PinId)) :
    VariableSet.resolveMember n report (pairs, s) p =
      (pairs ++ ((resolve s n (.selfMember pin.name pin.ty) report).1.map (·, p)).toList,
        (resolve s n (.selfMember pin.name pin.ty) report).2) := by
  simp only [VariableSet.resolveMember, hpin]
  obtain ⟨t?, s'⟩ := resolve s n (.selfMember pin.name pin.ty) report
  cases t? <;> simp

theorem assignments_some (s : FunctionState) (n : NodeId) (var : VariableReference)
    (report : Bool) :
    VariableSet.assignments s n (some var) report =
      (((resolve s n var report).1.map fun t ↦
          (s.graph.filteredPins n .input false).map (t, ·)).getD [],
        (resolve s n var report).2) := by
  simp only [VariableSet.assignments]
  obtain ⟨t?, s'⟩ := resolve s n var report
  cases t? <;> rfl

/-- The members that an assignment writes are resolved one after another. -/
theorem steps_resolveMembers (hkinds : kinds .memberReference) (report : Bool) (ps : List PinId)
    (pairs : List (TermId × PinId)) :
    NodeSteps kinds code n s (ps.foldl (VariableSet.resolveMember n report) (pairs, s)).2 := by
  induction ps generalizing s pairs with
  | nil => exact .refl
  | cons p ps ih =>
    rw [List.foldl_cons]
    cases hpin : s.graph.pin? p with
    | none =>
      have hsame : VariableSet.resolveMember n report (pairs, s) p = (pairs, s) := by
        simp only [VariableSet.resolveMember, hpin]
      rw [hsame]
      exact ih pairs
    | some pin =>
      have hsteps : NodeSteps kinds code n s
          (resolve s n (.selfMember pin.name pin.ty) report).2 :=
        steps_resolve hkinds n report fun owner howner ↦ by cases howner
      rw [resolveMember_eq hpin]
      exact hsteps.trans (ih _)

theorem steps_assignments (hkinds : kinds .memberReference) {var : Option VariableReference}
    (hkind : s.graph.kind? n = some (.variableSet var)) (report : Bool) :
    NodeSteps kinds code n s (VariableSet.assignments s n var report).2 := by
  cases var with
  | none => exact steps_resolveMembers hkinds report _ []
  | some var =>
    rw [assignments_some]
    exact steps_resolve hkinds n report fun owner howner ↦
      ⟨n, var, owner, .inr hkind, howner, rfl⟩

theorem mem_pins_of_resolveMembers {report : Bool} {ps : List PinId}
    {pairs : List (TermId × PinId)} {a : TermId × PinId}
    (h : a ∈ (ps.foldl (VariableSet.resolveMember n report) (pairs, s)).1) :
    a ∈ pairs ∨ a.2 ∈ ps := by
  induction ps generalizing s pairs with
  | nil => exact .inl h
  | cons p ps ih =>
    rw [List.foldl_cons] at h
    cases hpin : s.graph.pin? p with
    | none =>
      simp only [VariableSet.resolveMember, hpin] at h
      exact (ih h).imp_right (List.mem_cons_of_mem p)
    | some pin =>
      rw [resolveMember_eq hpin] at h
      rcases ih h with hmem | hmem
      · rcases List.mem_append.1 hmem with hmem | hmem
        · exact .inl hmem
        · obtain ⟨t, -, rfl⟩ := Option.map_eq_some_iff.1 (Option.mem_toList.1 hmem)
          exact .inr List.mem_cons_self
      · exact .inr (List.mem_cons_of_mem p hmem)

/-- Values come in through data inputs of the node. -/
theorem mem_filteredPins_of_assignments {var : Option VariableReference} {report : Bool}
    {a : TermId × PinId} (h : a ∈ (VariableSet.assignments s n var report).1) :
    a.2 ∈ s.graph.filteredPins n .input false := by
  cases var with
  | none => exact (mem_pins_of_resolveMembers h).resolve_left (by simp)
  | some var =>
    rw [assignments_some] at h
    cases ht : (resolve s n var report).1 with
    | none => simp [ht] at h
    | some t =>
      simp only [ht, Option.map_some, Option.getD_some] at h
      obtain ⟨p, hp, rfl⟩ := List.mem_map.1 h
      exact hp

/-- After its variables are resolved, an assignment registers the values. -/
theorem steps_registerValues (hmember : kinds .memberReference) (hliteral : kinds .literal)
    {var : Option VariableReference} (hkind : s.graph.kind? n = some (.variableSet var)) :
    NodeSteps kinds code n (VariableSet.assignments s n var true).2
      (VariableSet.register s n var) := by
  have hsteps : NodeSteps kinds code n s (VariableSet.assignments s n var true).2 :=
    steps_assignments hmember hkind true
  have hpins (a : TermId × PinId) : a ∈ (VariableSet.assignments s n var true).1 →
      a.2 ∈ s.graph.filteredPins n .input false := mem_filteredPins_of_assignments
  unfold VariableSet.register
  generalize VariableSet.assignments s n var true = r at hsteps hpins
  obtain ⟨pairs, s'⟩ := r
  refine steps_foldl_sameFunction fun s'' hs'' a ha ↦ ?_
  have hp := (Graph.mem_filteredPins.1 (hpins a ha)).1
  rw [← hsteps.sameFunction.graph, ← hs''.graph] at hp
  split
  · exact steps_addLiteral hliteral hp
  · exact .refl

theorem steps_registerSet (hmember : kinds .memberReference) (hliteral : kinds .literal)
    {var : Option VariableReference} (hkind : s.graph.kind? n = some (.variableSet var)) :
    NodeSteps kinds code n s (VariableSet.register s n var) :=
  (steps_assignments hmember hkind true).trans (steps_registerValues hmember hliteral hkind)

theorem steps_registerTrack (hmember : kinds .memberReference) {timeline : String} {p : PinId}
    (hp : p ∈ s.graph.filteredPins n .output false) :
    NodeSteps kinds code n s (TimelineNode.registerTrack timeline s p) := by
  obtain ⟨hmem, pin, hpin, hout, -⟩ := Graph.mem_filteredPins.1 hp
  have hliteral (kind : TermKind) : pin.direction = .input → kind = .literal := fun hin ↦ by
    rw [hout] at hin
    cases hin
  simp only [TimelineNode.registerTrack, hpin]
  split
  · exact steps_error _ _
  · next hfound =>
    have htrack : (s.cls.findProperty? (TimelineNode.memberName timeline pin.name)).isSome := by
      simpa [Option.isSome_iff_ne_none] using hfound
    have hsteps : NodeSteps kinds code n s { s with ctx := (s.ctx.variableTerm
        (TimelineNode.memberName timeline pin.name) pin.ty (some (s.graph.pinToken p))).2 } :=
      steps_variableTerm hmember _ _ nofun (.inl htrack)
    obtain ⟨term, hterm⟩ := exists_variableTerm s.ctx
      (TimelineNode.memberName timeline pin.name) pin.ty (some (s.graph.pinToken p))
    have hgraph := hsteps.sameFunction.graph
    refine hsteps.tail (.net ?_ ?_ hterm (hliteral term.kind))
    · rwa [hgraph]
    · rwa [hgraph]

theorem steps_registerTimeline (hmember : kinds .memberReference) (timeline : String) :
    NodeSteps kinds code n s (TimelineNode.register s n timeline) := by
  unfold TimelineNode.register
  split
  · exact steps_foldl_sameFunction fun s' hs' p hp ↦
      steps_registerTrack hmember (hs'.graph ▸ hp)
  · exact .single (.stop _ _)

/-- An output of a kind of node that stores all its outputs. -/
theorem steps_addLocal_of_mem (hlocal : kinds .frameLocal ∧ kinds .eventGraphLocal) {p : PinId}
    (hp : p ∈ s.graph.filteredPins n .output false) :
    NodeSteps kinds code n s (s.addLocal p).2 := by
  obtain ⟨hmem, pin, hpin, hout, -⟩ := Graph.mem_filteredPins.1 hp
  exact steps_addLocal hlocal hmem hpin hout

theorem steps_registerTemporary (hlocal : kinds .frameLocal ∧ kinds .eventGraphLocal) {p : PinId}
    (hp : p ∈ s.graph.filteredPins n .output false) :
    NodeSteps kinds code n s (TemporaryVariable.registerTemporary s p) := by
  have hsteps : NodeSteps kinds code n s (s.addLocal p).2 := steps_addLocal_of_mem hlocal hp
  unfold TemporaryVariable.registerTemporary
  generalize s.addLocal p = r at hsteps
  obtain ⟨t?, s'⟩ := r
  cases t? with
  | none => exact hsteps
  | some t =>
    refine hsteps.tail (.touch t _ fun term ↦ ?_)
    split
    · exact ⟨⟨rfl, rfl, rfl, rfl, rfl⟩, rfl, rfl⟩
    · exact ⟨.refl term, rfl, rfl⟩

theorem steps_registerParameter (hparameter : kinds .parameter) {p : PinId}
    (hp : p ∈ s.graph.filteredPins n .output false) :
    NodeSteps kinds code n s (FunctionEntry.registerParameter s p) := by
  obtain ⟨hmem, pin, hpin, hout, -⟩ := Graph.mem_filteredPins.1 hp
  simp only [FunctionEntry.registerParameter, hpin]
  refine steps_pushNet hparameter (admits_new (by decide) _ _ nofun nofun) hmem hpin fun hin ↦ ?_
  rw [hout] at hin
  cases hin

theorem steps_registerResult (hkinds : kinds .result) (hliteral : kinds .literal) {p : PinId}
    (hp : p ∈ s.graph.filteredPins n .input false) :
    NodeSteps kinds code n s (FunctionResult.registerResult s p) := by
  obtain ⟨hmem, pin, hpin, -, -⟩ := Graph.mem_filteredPins.1 hp
  have hresult : NodeSteps kinds code n s (if (s.ctx.findResult? pin.name).isSome then s
      else { s with ctx := (s.ctx.addTerm .result pin.name pin.ty (some (s.graph.pinToken p))).2 }) := by
    split
    · exact .refl
    · exact .single (.push _ hkinds (admits_new (by decide) _ _ nofun nofun))
  simp only [FunctionResult.registerResult, hpin]
  have hgraph := hresult.sameFunction.graph
  generalize (if (s.ctx.findResult? pin.name).isSome then s
    else { s with ctx := (s.ctx.addTerm .result pin.name pin.ty (some (s.graph.pinToken p))).2 })
    = s' at hresult hgraph ⊢
  split
  · exact hresult
  · exact hresult.trans (steps_addLiteral hliteral (hgraph ▸ hmem))

/-- Whatever its kind, a node registers by steps of its own. -/
theorem steps_register {kind : NodeKind} (hkind : s.graph.kind? n = some kind) :
    NodeSteps (· ∈ kind.makes) False n s (kind.register s n) := by
  cases kind with
  | functionEntry data =>
    exact steps_foldl_sameFunction fun s' hs' p hp ↦
      steps_registerParameter (.head _) (hs'.graph ▸ hp)
  | functionResult =>
    exact steps_foldl_sameFunction fun s' hs' p hp ↦
      steps_registerResult (.head _) (.tail _ (.head _)) (hs'.graph ▸ hp)
  | event data =>
    simp only [NodeKind.register, Event.register]
    split
    · exact steps_foldl_sameFunction fun s' hs' p hp ↦
        steps_addLocal_of_mem ⟨.head _, .tail _ (.head _)⟩ (hs'.graph ▸ hp)
    · exact .single (.stop _ _)
  | variableGet var => exact steps_registerGet (.head _) hkind
  | variableSet var => exact steps_registerSet (.head _) (.tail _ (.head _)) hkind
  | temporaryVariable ty =>
    exact steps_foldl_sameFunction fun s' hs' p hp ↦
      steps_registerTemporary ⟨.head _, .tail _ (.head _)⟩ (hs'.graph ▸ hp)
  | timeline name => exact steps_registerTimeline (.head _) name
  | callFunction call =>
    exact steps_registerPins ⟨.head _, .tail _ (.head _)⟩ (.tail _ (.tail _ (.head _)))
  | branch => exact steps_registerPins ⟨.head _, .tail _ (.head _)⟩ (.tail _ (.tail _ (.head _)))
  | makeArray element count =>
    exact steps_registerPins ⟨.head _, .tail _ (.head _)⟩ (.tail _ (.tail _ (.head _)))
  | knot ty | comment text | macroInstance data | tunnel entry => exact .refl

end Steps

/-! ## Whole functions -/

theorem graphSteps_foldl {kinds : TermKind → Prop} {code : Prop} {s : FunctionState} {α : Type}
    {f : FunctionState → α → FunctionState} (l : List α)
    (hstep : ∀ s a, GraphSteps kinds code s (f s a)) : GraphSteps kinds code s (l.foldl f s) := by
  induction l generalizing s with
  | nil => exact .refl
  | cons a l ih => exact (hstep s a).trans ih

/-- A scheduled node registers if it can be compiled. -/
def registerNode (env : CompileEnv) (s : FunctionState) (n : NodeId) : FunctionState :=
  match s.graph.kind? n with
  | some kind => if env.handles kind then kind.register s n else s
  | none => s

theorem registerNodes_eq (env : CompileEnv) (s : FunctionState) :
    s.registerNodes env = s.ctx.executionList.foldl (registerNode env) s := rfl

theorem graphSteps_registerNode (env : CompileEnv) (s : FunctionState) (n : NodeId) :
    GraphSteps (· ≠ .userLocal) False s (registerNode env s n) := by
  unfold registerNode
  split
  · next kind hkind =>
    split
    · exact (steps_register hkind).graphSteps.mono fun _ ↦ NodeKind.ne_userLocal_of_mem_makes
    · exact .refl
  · exact .refl

theorem graphSteps_registerNodes (env : CompileEnv) (s : FunctionState) :
    GraphSteps (· ≠ .userLocal) False s (s.registerNodes env) :=
  graphSteps_foldl _ fun s n ↦ graphSteps_registerNode env s n

theorem steps_addUserLocal (entry : NodeId) (s : FunctionState) (v : LocalVariable) :
    NodeSteps (· = .userLocal) False entry s (addUserLocal entry s v) := by
  let term : Terminal := .new .userLocal v.name v.ty (some (s.graph.nodeToken entry))
  have hadmits : s.Admits term := admits_new (by decide) _ _ nofun nofun
  have hpush : addUserLocal entry s v =
      { s with ctx := (s.ctx.pushTerm { term with defaultValue := v.defaultValue }).2 } :=
    congrArg (fun ctx ↦ { s with ctx := ctx }) (s.ctx.modifyTerm_pushTerm term rfl)
  rw [hpush]
  exact .single (.push _ rfl ⟨hadmits.unassociated, hadmits.sourced, hadmits.stored, hadmits.member⟩)

theorem graphSteps_addUserLocals (entry : NodeId) (locals : List LocalVariable)
    (s : FunctionState) :
    GraphSteps (· = .userLocal) False s (locals.foldl (addUserLocal entry) s) :=
  graphSteps_foldl locals fun s v ↦ (steps_addUserLocal entry s v).graphSteps

/-- Terminals are made by steps: those of local variables first, then those of the nodes. -/
theorem graphSteps_register (env : CompileEnv) (entry : NodeId) (locals : List LocalVariable)
    (s : FunctionState) :
    GraphSteps (fun _ ↦ True) False s ((locals.foldl (addUserLocal entry) s).registerNodes env) :=
  (graphSteps_addUserLocals entry locals s).mono (fun _ _ ↦ trivial) |>.trans
    ((graphSteps_registerNodes env _).mono fun _ _ ↦ trivial)

end FunctionState

end VisualScript
