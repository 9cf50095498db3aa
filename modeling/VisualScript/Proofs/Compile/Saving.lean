import VisualScript.Proofs.Code.Twins
import VisualScript.Proofs.Compile.Comments
import VisualScript.Proofs.Compile.Functions
import VisualScript.Proofs.Class.Finishing
import VisualScript.Proofs.Compile.Skeleton
import VisualScript.Proofs.Compile.Targets

/-!
# Classes with the products of expansions kept

When the products of expansions are kept, pages and expansions are framed, and frames stay in the
graphs that are compiled.  Each pass is run on functions side by side, one with frames and one
without: `Reframed` as they are listed, `Matches` while they are prepared and compiled, `SameCoded`
when their code is settled.

Frames have no code, but they are nodes, and a node behind a frame has another number than without
it.  Numbers of nodes name the properties that events and calls are stored in, so that the classes
are the same when the numbers that show are (`Blueprint.cls_compile_saving`).
-/

namespace VisualScript

open FunctionState (SameHeader)

/-! ## Preparing -/

namespace Graph

variable {g : Graph} {n : NodeId}

/-- What clings and is no root has pins. -/
theorem pinsOf_ne_nil_of_clings (hwf : g.WellFormed) {roots : List NodeId} (h : g.Clings roots n)
    (hroot : n ∉ roots) : g.pinsOf n ≠ [] := by
  have hlinked {p : PinId} (hn : n ∈ g.linkedNodes p) : g.pinsOf n ≠ [] := by
    obtain ⟨q, -, howner⟩ := mem_linkedNodes.1 hn
    exact List.ne_nil_of_mem ((hwf.mem_pinsOf n q).2 howner)
  obtain ⟨r, hruns, hwalk⟩ := h
  cases hwalk with
  | refl =>
    obtain ⟨start, hstart, -, hwalk⟩ := hruns
    cases hwalk with
    | refl => exact absurd hstart hroot
    | tail _ hlast =>
      obtain ⟨p, -, hn⟩ := List.mem_flatMap.1 hlast
      exact hlinked hn
  | tail _ hlast =>
    rcases hlast.1 with ⟨p, -, hn⟩ | ⟨p, hp, -⟩
    · exact hlinked hn
    · exact List.ne_nil_of_mem hp

end Graph

namespace FunctionContext

variable {ρ : NodeId → NodeId} {c d : FunctionContext} {entry : NodeId}

theorem Framed.core (h : Framed ρ c d) : d.core = c.core := by
  rw [h.frame]
  rfl

theorem mem_numbers (hwf : c.graph.WellFormed) {n : NodeId} {x : Node}
    (hx : c.graph.node? n = some x) (hcomment : (x.kind.isComment && x.pins.isEmpty) = false)
    (hentry : (c.isEventGraph && x.kind.isEntry) = false) : n ∈ c.numbers := by
  refine List.mem_filter.2 ⟨(hwf.mem_order n).2 (by rw [hx]; rfl), ?_⟩
  rw [shows, hx, Option.any_some, hcomment, hentry]
  rfl

/-- Functions whose graphs are pruned are twins. -/
theorem Framed.pruned (h : Framed ρ c d) (hnumbers : d.numbers = c.numbers)
    (hwf : c.graph.WellFormed) (hwf' : d.graph.WellFormed) (hfresh : c.Fresh)
    (roots : List NodeId) (hentry : entry ∈ roots)
    (hroots : ∀ n ∈ roots, c.graph.kindIs n (·.isComment) = false) :
    Twin ρ (c.graph.Loose roots) (c.graph.Shared roots)
      { c with entryPoint := some entry, graph := (c.graph.pruneIsolated roots false).2 }
      { d with
        entryPoint := some (ρ entry)
        graph := (d.graph.pruneIsolated (roots.map ρ) true).2 } where
  graph := h.graph.pruneIsolated hwf hwf' roots
  core := h.core
  entry := rfl
  entry_tight n hn hloose := by
    obtain rfl := Option.some.inj hn
    exact Bool.false_ne_true ((hroots _ hentry).symm.trans hloose.1)
  code n _ := by
    have hcode : d.nodeStatements = c.nodeStatements := by rw [h.frame]
    change d.nodeStatements.lookup (ρ n) = c.nodeStatements.lookup n
    rw [hcode, hfresh.nodeStatements]
    rfl
  marks m _ s hs := by
    have hcode : d.nodeStatements = c.nodeStatements := by rw [h.frame]
    change s ∈ (d.nodeStatements.lookup m).getD [] at hs
    rw [hcode, hfresh.nodeStatements] at hs
    cases hs
  targets n s hs := by
    change s ∈ (c.nodeStatements.lookup n).getD [] at hs
    rw [hfresh.nodeStatements] at hs
    cases hs
  fixed n kind hkind hshows := by
    change (c.graph.pruneIsolated roots false).2.kind? n = some kind at hkind
    obtain ⟨x, hx, rfl⟩ := Option.map_eq_some_iff.1 hkind
    rw [Graph.node?_pruneIsolated hwf] at hx
    split at hx
    · next hkept =>
      refine h.eq_of_numbers hnumbers (mem_numbers hwf hx ?_ hshows)
      have hclings : c.graph.Clings roots n :=
        ((Graph.kept_iff_clings roots).1 hkept).resolve_right fun h ↦ Bool.noConfusion h.1
      by_cases hcomment : x.kind.isComment = true
      · have hroot : n ∉ roots := fun hn ↦ by
          have hkind := hroots n hn
          rw [Graph.kindIs, Graph.kind?, hx] at hkind
          exact Bool.false_ne_true (hkind.symm.trans hcomment)
        have hpins := Graph.pinsOf_ne_nil_of_clings hwf hclings hroot
        rw [Graph.pinsOf, hx, Option.map_some, Option.getD_some] at hpins
        simp [hpins]
      · simp [hcomment]
    · cases hx

/-- The event is entered through a stub, or the call is the one that enters the event graph. -/
def Anchors (events : List NodeId) (c : FunctionContext) (n : NodeId) : Prop :=
  (c.isEventGraph = true ∧ n ∈ events) ∨ ∃ link, c.stub = some link ∧ n = link.ubergraphCall

/-- Two functions as they are listed.  The second has frames in its graph, and the same numbers show
in both. -/
structure Reframed (events : List NodeId) (ρ : NodeId → NodeId) (c d : FunctionContext) : Prop
    extends Framed ρ c d where
  numbers : d.numbers = c.numbers
  wellFormed : c.graph.WellFormed
  wellFormed' : d.graph.WellFormed
  fresh : c.Fresh
  anchored : ∀ n, c.Anchors events n →
    ∃ kind, c.graph.kind? n = some kind ∧ kind.isComment = false ∧ kind.isEntry = false

end FunctionContext

namespace FunctionState

variable {ρ : NodeId → NodeId} {s t : FunctionState} {entry : NodeId}

theorem roots_eq {g h : Graph} (hf : Graph.Framed ρ g h) (entry : NodeId) :
    roots h (ρ entry) = (roots g entry).map ρ := by
  unfold roots
  rw [hf.nodesWhere_eq fun _ ↦ rfl, List.map_cons]

theorem roots_not_comment {g : Graph} (hwf : g.WellFormed)
    (hentry : g.kindIs entry (·.isEntry) = true) :
    ∀ n ∈ roots g entry, g.kindIs n (·.isComment) = false := by
  have hkind {n : NodeId} {p : NodeKind → Bool} (hn : g.kindIs n p = true)
      (hp : ∀ text, p (.comment text) = false) : g.kindIs n (·.isComment) = false := by
    obtain ⟨kind, hkind, hpkind⟩ := (Option.any_eq_true _ _).1 hn
    rw [Graph.kindIs, hkind, Option.any_some]
    by_contra hcomment
    obtain ⟨text, rfl⟩ := NodeKind.exists_of_isComment (Bool.eq_true_of_not_eq_false hcomment)
    exact Bool.false_ne_true ((hp text).symm.trans hpkind)
  rintro n hn
  rcases List.mem_cons.1 hn with rfl | hn
  · exact hkind hentry fun _ ↦ rfl
  · rw [hwf.nodesWhere_eq] at hn
    exact hkind (List.mem_filter.1 hn).2 fun _ ↦ rfl

/-- The entry is found in both graphs or in none. -/
theorem findEntry_both (hf : Graph.Framed ρ s.graph t.graph) :
    BothEnd (fun n m ↦ m = ρ n) s.findEntry t.findEntry := by
  unfold findEntry
  rw [hf.nodesWhere_eq fun _ ↦ rfl]
  generalize s.graph.nodesWhere (·.isEntry) = entries
  match entries with
  | [] => exact .error _ _
  | [entry] => exact .ok rfl
  | first :: second :: rest => exact .error _ _

theorem isEntry_of_findEntry (hwf : s.graph.WellFormed) (h : s.findEntry = .ok entry) :
    s.graph.kindIs entry (·.isEntry) = true := by
  have hentries : s.graph.nodesWhere (·.isEntry) = [entry] := by
    unfold findEntry at h
    split at h
    · next hone =>
      cases h
      exact hone
    · cases h
    · cases h
  rw [hwf.nodesWhere_eq] at hentries
  have hmem : entry ∈ s.graph.order.filter (s.graph.kindIs · (·.isEntry)) := by
    rw [hentries]
    exact List.mem_singleton_self entry
  exact (List.mem_filter.1 hmem).2

variable {events : List NodeId}

/-- Two states with functions as they are listed on the same class. -/
structure Reframed (events : List NodeId) (ρ : NodeId → NodeId) (s t : FunctionState) : Prop where
  ctx : FunctionContext.Reframed events ρ s.ctx t.ctx
  cls : t.cls = s.cls
  names : t.classNetNames = s.classNetNames

namespace Reframed

variable (h : Reframed events ρ s t) (env : CompileEnv)
include h

/-- Simplified functions are twins. -/
theorem simplifyGraph (hentry : s.graph.kindIs entry (·.isEntry) = true) :
    Twin ρ (s.graph.Loose (roots s.graph entry)) (s.graph.Shared (roots s.graph entry))
      (s.simplifyGraph (env.saving false) entry) (t.simplifyGraph (env.saving true) (ρ entry)) := by
  have hpruned := h.ctx.pruned h.ctx.numbers h.ctx.wellFormed h.ctx.wellFormed' h.ctx.fresh
    (roots s.graph entry) List.mem_cons_self (roots_not_comment h.ctx.wellFormed hentry)
  rw [← roots_eq h.ctx.graph] at hpruned
  have hstates (log log' : MessageLog) : Twin ρ (s.graph.Loose (roots s.graph entry))
      (s.graph.Shared (roots s.graph entry))
      { s with
        ctx.entryPoint := some entry
        ctx.graph := (s.graph.pruneIsolated (roots s.graph entry) false).2
        log }
      { t with
        ctx.entryPoint := some (ρ entry)
        ctx.graph := (t.graph.pruneIsolated (roots t.graph (ρ entry)) true).2
        log := log' } := ⟨hpruned, h.cls, h.names⟩
  unfold FunctionState.simplifyGraph
  exact ((hstates _ _).transformNodes env).dropUnusedWorldContext env
    (hpruned.entry_tight entry rfl)

end Reframed

end FunctionState

namespace FunctionContext

/-- Two functions on the way through the same passes.  They are twins in which some nodes keep their
numbers, or both have stopped before their graphs were touched. -/
inductive Matches (events : List NodeId)
    (P : (NodeId → NodeId) → (NodeId → Prop) → FunctionContext → FunctionContext → Prop)
    (c d : FunctionContext) : Prop
  | twin {ρ : NodeId → NodeId} {loose : NodeId → Prop} {shared : PinId → Prop} :
      Twin ρ loose shared c d → (∀ n, c.Anchors events n → ¬loose n ∧ ρ n = n) → P ρ loose c d →
        Matches events P c d
  | stopped : d.core = c.core → c.failed = true → c.entryPoint = none → d.entryPoint = none →
      Matches events P c d

/-- Both functions are scheduled, unless they could not be created. -/
def Scheduled (_ : NodeId → NodeId) (_ : NodeId → Prop) (c d : FunctionContext) : Prop :=
  c.failed = true ∨
    (c.executionList = c.graph.schedule.1 ∧ d.executionList = d.graph.schedule.1)

theorem Anchors.of_sameHeader {events : List NodeId} {c d : FunctionContext} {n : NodeId}
    (h : FunctionState.SameHeader c d) (hn : d.Anchors events n) : c.Anchors events n := by
  unfold Anchors isEventGraph at hn ⊢
  rwa [h.flags, h.stub] at hn

end FunctionContext

namespace FunctionState

variable {ρ : NodeId → NodeId} {s t : FunctionState}

/-- Two states with functions that match on the same class. -/
structure Matches (events : List NodeId)
    (P : (NodeId → NodeId) → (NodeId → Prop) → FunctionContext → FunctionContext → Prop)
    (s t : FunctionState) : Prop where
  ctx : s.ctx.Matches events P t.ctx
  cls : t.cls = s.cls
  names : t.classNetNames = s.classNetNames

theorem scheduled_layOut (env : CompileEnv) (s : FunctionState) (entry : NodeId) :
    (s.layOut env entry).ctx.executionList = (s.layOut env entry).ctx.graph.schedule.1 := by
  rw [executionList_layOut, graph_layOut, graph]

/-- A node that others go by is no frame, and keeps its number. -/
theorem Reframed.fixed_of_anchors {events : List NodeId} (h : Reframed events ρ s t)
    (env : CompileEnv) (entry : NodeId) {n : NodeId}
    (hn : (s.precompile (env.saving false)).ctx.Anchors events n) :
    ¬s.graph.Loose (roots s.graph entry) n ∧ ρ n = n := by
  have hheader := (s.precompile_keeps (env.saving false)).1
  obtain ⟨kind, hkind, hcomment, hisEntry⟩ := h.ctx.anchored n (hn.of_sameHeader hheader)
  obtain ⟨x, hx, rfl⟩ := Option.map_eq_some_iff.1 hkind
  refine ⟨fun hloose ↦ ?_, ?_⟩
  · have hkindIs := hloose.1
    rw [Graph.kindIs, hkind] at hkindIs
    exact Bool.false_ne_true (hcomment.symm.trans hkindIs)
  · refine h.ctx.eq_of_numbers h.ctx.numbers
      (FunctionContext.mem_numbers h.ctx.wellFormed hx ?_ ?_)
    · rw [hcomment, Bool.false_and]
    · rw [hisEntry, Bool.and_false]

/-- Functions with the same entry are prepared alike. -/
theorem Reframed.twin_precompile {events : List NodeId} (h : Reframed events ρ s t)
    (env : CompileEnv) {entry : NodeId} (hentry : s.findEntry = .ok entry)
    (hentry' : t.findEntry = .ok (ρ entry)) :
    Twin ρ (s.graph.Loose (roots s.graph entry)) (s.graph.Shared (roots s.graph entry))
        (s.precompile (env.saving false)) (t.precompile (env.saving true)) ∧
      FunctionContext.Scheduled ρ (s.graph.Loose (roots s.graph entry))
        (s.precompile (env.saving false)).ctx (t.precompile (env.saving true)).ctx := by
  have hisEntry := isEntry_of_findEntry h.ctx.wellFormed hentry
  have hloose : ¬s.graph.Loose (roots s.graph entry) entry := fun hloose ↦
    Bool.false_ne_true ((roots_not_comment h.ctx.wellFormed hisEntry entry
      List.mem_cons_self).symm.trans hloose.1)
  obtain ⟨overridden, s', t', hs, ht, hcreated⟩ :=
    Twin.outcome ((h.simplifyGraph env hisEntry).createFunction hloose)
  unfold FunctionState.precompile
  rw [hentry, hentry']
  dsimp only
  rw [hs, ht]
  cases overridden with
  | none => exact ⟨hcreated.fail, .inl rfl⟩
  | some overridden =>
    refine ⟨(hcreated.layOut env hloose).checkSignature (ρ entry) overridden, .inr ?_⟩
    obtain ⟨-, hctx, -⟩ :=
      numErrors_le_checkSignature (s'.layOut (env.saving false) entry) entry overridden
    obtain ⟨-, hctx', -⟩ :=
      numErrors_le_checkSignature (t'.layOut (env.saving true) (ρ entry)) (ρ entry) overridden
    dsimp only
    rw [hctx, hctx']
    exact ⟨scheduled_layOut _ _ _, scheduled_layOut _ _ _⟩

/-- Prepared functions match. -/
theorem Reframed.precompile {events : List NodeId} (h : Reframed events ρ s t) (env : CompileEnv) :
    Matches events FunctionContext.Scheduled (s.precompile (env.saving false))
      (t.precompile (env.saving true)) := by
  have hentries := findEntry_both h.ctx.graph
  cases hentry : s.findEntry with
  | error m =>
    rw [hentry] at hentries
    generalize hentry' : t.findEntry = y at hentries
    cases hentries with
    | error e e' =>
      unfold FunctionState.precompile
      rw [hentry, hentry']
      refine ⟨.stopped ?_ rfl h.ctx.fresh.entryPoint ?_, h.cls, h.names⟩
      · exact (congrArg (fun c : FunctionContext ↦ { c with failed := true }) h.ctx.toFramed.core :)
      · change t.ctx.entryPoint = none
        rw [h.ctx.frame]
        exact h.ctx.fresh.entryPoint
  | ok entry =>
    rw [hentry] at hentries
    generalize hentry' : t.findEntry = y at hentries
    cases hentries with
    | @ok _ m hm =>
      subst hm
      obtain ⟨htwin, hscheduled⟩ := h.twin_precompile env hentry hentry'
      exact ⟨.twin htwin.ctx (fun n ↦ h.fixed_of_anchors env entry) hscheduled, htwin.cls,
        htwin.names⟩

end FunctionState

/-! ## Compiling -/

namespace FunctionState

variable {ρ : NodeId → NodeId} {loose : NodeId → Prop} {shared : PinId → Prop}
  {s t : FunctionState}

/-- Emitting does not ask for products of expansions. -/
theorem emitNodes_saving (env : CompileEnv) (save : Bool) (l : List NodeId) (s : FunctionState) :
    emitNodes (env.saving save) l s = emitNodes env l s := by
  induction l generalizing s with
  | nil => rfl
  | cons n l ih =>
    simp only [emitNodes, ih]
    rfl

end FunctionState

namespace FunctionContext

/-- Both functions execute the same nodes, unless they have no code. -/
def SameOrder (ρ : NodeId → NodeId) (loose : NodeId → Prop) (c d : FunctionContext) : Prop :=
  c.failed = true ∨ c.flags.interfaceStub = true ∨
    (d.executionList = c.executionList.map ρ ∧ ∀ n ∈ c.executionList, ¬loose n)

end FunctionContext

namespace FunctionState

variable {events : List NodeId} {s t : FunctionState} {env : CompileEnv}

/-- Functions that match are compiled to the same code. -/
theorem Matches.compile (h : Matches events FunctionContext.Scheduled s t) (henv : env.HandlesAll) :
    Matches events FunctionContext.SameOrder (s.compile (env.saving false))
      (t.compile (env.saving true)) := by
  obtain ⟨hctx, hcls, hnames⟩ := h
  have hheader := (s.compile_keeps (env.saving false)).1
  cases hctx with
  | stopped hcore hfailed hentry hentry' =>
    have hfailed' : t.ctx.failed = true :=
      (congrArg FunctionContext.failed hcore).trans hfailed
    unfold FunctionState.compile
    rw [hfailed, hfailed', Bool.true_or, Bool.true_or, if_pos rfl, if_pos rfl]
    exact ⟨.stopped hcore hfailed hentry hentry', hcls, hnames⟩
  | @twin ρ loose shared htwin hanchors hscheduled =>
    have hanchors : ∀ n, (s.compile (env.saving false)).ctx.Anchors events n → ¬loose n ∧ ρ n = n :=
      fun n hn ↦ hanchors n (hn.of_sameHeader hheader)
    suffices Twin ρ loose shared (s.compile (env.saving false)) (t.compile (env.saving true)) ∧
        FunctionContext.SameOrder ρ loose (s.compile (env.saving false)).ctx
          (t.compile (env.saving true)).ctx from
      ⟨.twin this.1.ctx hanchors this.2, this.1.cls, this.1.names⟩
    clear hanchors hheader
    have hfailed : t.ctx.failed = s.ctx.failed := (congrArg FunctionContext.failed htwin.core :)
    unfold FunctionState.compile
    rw [hfailed, htwin.flags]
    split
    · next hidle =>
      refine ⟨⟨htwin, hcls, hnames⟩, ?_⟩
      rw [Bool.or_eq_true] at hidle
      exact hidle.imp_right .inl
    · next hidle =>
      have hstates : Twin ρ loose shared s t := ⟨htwin, hcls, hnames⟩
      obtain ⟨hlist, hlist'⟩ := hscheduled.resolve_left fun hfailed ↦ hidle (by rw [hfailed]; rfl)
      have hspread := htwin.graph.schedule
      rw [← hlist, ← hlist'] at hspread
      have htight : ∀ n ∈ s.ctx.executionList, ¬loose n := fun n hn ↦
        htwin.graph.tight n (Graph.mem_order_of_mem_schedule (hlist ▸ hn))
      have hemitted := hstates.emitNodes henv hspread htight
      have hsame := (graphSteps_emitNodes env s.ctx.executionList s).sameFunction
      have hsame' := (graphSteps_emitNodes env t.ctx.executionList t).sameFunction
      dsimp only
      rw [emitNodes_saving, emitNodes_saving]
      have hfailed : (emitNodes env t.ctx.executionList t).ctx.failed =
          (emitNodes env s.ctx.executionList s).ctx.failed :=
        (congrArg FunctionContext.failed hemitted.ctx.core :)
      rw [hfailed]
      split
      · next hfailed => exact ⟨hemitted, .inl hfailed⟩
      · obtain ⟨hinlined, hkept, htight⟩ := hemitted.ctx.inlinePureNodes
          (hsame.executionList.trans (hlist.trans (congrArg (·.schedule.1) hsame.graph.symm)))
          (hsame'.executionList.trans (hlist'.trans (congrArg (·.schedule.1) hsame'.graph.symm)))
        exact ⟨hemitted.setCtx hinlined, .inr (.inr ⟨hkept, htight⟩)⟩

end FunctionState

/-! ## Scripts -/

namespace FunctionContext

/-- A script has no numbers of nodes but those that the code names. -/
theorem script_core (c : FunctionContext) (skeletonOnly : Bool) :
    c.core.script skeletonOnly = c.script skeletonOnly := by
  have hoperand : c.core.operand = c.operand := by
    funext t
    rw [operand, operand, term?_core, Option.map_map]
    rfl
  have hlower : c.core.lower = c.lower := by
    funext returnIndex s
    cases s <;> simp only [lower, hoperand]
  unfold script
  rw [hlower]
  rfl

theorem sameHeader_of_core {c d : FunctionContext} (h : d.core = c.core) : SameHeader c d where
  functionName := (congrArg FunctionContext.functionName h :)
  flags := (congrArg FunctionContext.flags h :)
  delegateSignatureName := (congrArg FunctionContext.delegateSignatureName h :)
  stub := (congrArg FunctionContext.stub h :)

theorem core_enterAt {c d : FunctionContext} (h : d.core = c.core) {call : NodeId}
    (hpoint : d.graph.findPin? call PinName.entryPoint (some .input) =
      c.graph.findPin? call PinName.entryPoint (some .input)) (index : Nat) :
    (Compilation.enterAt d call index).core = (Compilation.enterAt c call index).core := by
  unfold Compilation.enterAt
  rw [hpoint]
  split
  · exact h
  · next p _ =>
    extract_lets text d' c'
    have hcore : d'.core = c'.core := h
    rw [show d'.net? p = c'.net? p from (congrArg (FunctionContext.net? · p) hcore :)]
    split
    · exact hcore
    · next t _ =>
      let tell (term : Terminal) : Terminal := { term with name := text, defaultValue := text }
      have htell (term : Terminal) : (tell term).bare = tell term.bare := rfl
      rw [modifyTerm_core d' t htell, modifyTerm_core c' t htell, hcore]

/-! ## Code -/

theorem settled_eq (c : FunctionContext) : ∃ table list code labels, c.settled =
    { c.withCode table with executionList := list, statements := code, nodeLabels := labels } := by
  unfold settled
  split
  · exact ⟨c.nodeStatements, c.executionList, _, _, rfl⟩
  · obtain ⟨table, code, labels, heq⟩ := c.sortForFallThrough.resolveJumps_eq
    exact ⟨table, c.sortForFallThrough.executionList, code, labels, heq⟩

/-- Two functions with the same code but for nodes.  Both enter the event graph at the same pin, and
the `events` of both begin at the same indices. -/
structure SameCoded (events : List NodeId) (c d : FunctionContext) : Prop where
  core : d.core = c.core
  point : c.failed = true ∨ ∀ link, c.stub = some link →
    d.graph.findPin? link.ubergraphCall PinName.entryPoint (some .input) =
      c.graph.findPin? link.ubergraphCall PinName.entryPoint (some .input)
  labels : c.isEventGraph = true → ∀ n ∈ events, d.nodeLabels.lookup n = c.nodeLabels.lookup n

theorem SameCoded.setNetFlags {events : List NodeId} {c d : FunctionContext}
    (h : SameCoded events c d) (flags : FunctionFlags) :
    SameCoded events { c with netFlags := flags } { d with netFlags := flags } :=
  { h with core := (congrArg (fun c : FunctionContext ↦ { c with netFlags := flags }) h.core :) }

/-- Stubs that are told the same index have the same script. -/
theorem SameCoded.script_patchStub {events : List NodeId} {c d : FunctionContext}
    (h : SameCoded events c d) {labels labels' : List (NodeId × Nat)}
    (hlabels : ∀ link, c.stub = some link →
      labels'.lookup link.sourceEvent = labels.lookup link.sourceEvent) (skeletonOnly : Bool) :
    (Compilation.patchStub labels' d).script skeletonOnly =
      (Compilation.patchStub labels c).script skeletonOnly := by
  have hfailed : d.failed = c.failed := (congrArg FunctionContext.failed h.core :)
  have hstub : d.stub = c.stub := (congrArg FunctionContext.stub h.core :)
  rcases h.point with hidle | hpoint
  · unfold script
    rw [(Compilation.statements_patchStub d labels').2,
      (Compilation.statements_patchStub c labels).2, hfailed, hidle]
    simp
  · rw [← script_core, ← script_core (Compilation.patchStub labels c)]
    congr 1
    unfold Compilation.patchStub
    rw [hstub]
    cases hlink : c.stub with
    | none => exact h.core
    | some link =>
      dsimp only
      rw [hlabels link hlink]
      cases labels.lookup link.sourceEvent with
      | none => exact h.core
      | some index => exact core_enterAt h.core (hpoint link hlink) index

variable {ρ : NodeId → NodeId} {loose : NodeId → Prop} {shared : PinId → Prop}
  {events : List NodeId} {c d : FunctionContext}
  {P : (NodeId → NodeId) → (NodeId → Prop) → FunctionContext → FunctionContext → Prop}

open FunctionState in
/-- The entries of twins say the same. -/
theorem Twin.describe_eq (h : Twin ρ loose shared c d) :
    describe d.graph d.entryPoint = describe c.graph c.entryPoint := by
  funext f
  rw [h.entry]
  cases hentry : c.entryPoint with
  | none => rfl
  | some entry =>
    have hn : ¬loose entry := h.entry_tight entry hentry
    have hdefaults : parameterDefaults d.graph (ρ entry) = parameterDefaults c.graph entry := by
      unfold parameterDefaults
      rw [h.graph.filteredPins_eq hn]
      refine List.filterMap_congr fun p hp ↦ ?_
      rw [h.graph.pin p (h.graph.shared_of_mem_filteredPins hp)]
      cases c.graph.pin? p <;> rfl
    have hmetadata : entryMetadata d.graph (ρ entry) = entryMetadata c.graph entry := by
      unfold entryMetadata
      rw [h.graph.kind?_eq hn]
    have hworld : hasWorldContext d.graph (ρ entry) = hasWorldContext c.graph entry := by
      unfold hasWorldContext
      rw [h.graph.findPin?_eq hn]
    unfold describe
    dsimp only [Option.map_some]
    rw [hdefaults, hmetadata, hworld]

theorem Matches.describe_eq (h : Matches events P c d) :
    FunctionState.describe d.graph d.entryPoint = FunctionState.describe c.graph c.entryPoint := by
  cases h with
  | twin htwin => exact htwin.describe_eq
  | stopped _ _ hentry hentry' =>
    rw [hentry, hentry']
    rfl

theorem Matches.core (h : Matches events P c d) : d.core = c.core := by
  cases h with
  | twin htwin => exact htwin.core
  | stopped hcore => exact hcore

/-- Functions with the same order have the same code. -/
theorem Matches.settled (h : Matches events SameOrder c d) :
    SameCoded events c.settled d.settled := by
  have hcore := h.core
  have hidle : (d.failed || d.flags.interfaceStub) = (c.failed || c.flags.interfaceStub) :=
    (congrArg (fun c : FunctionContext ↦ c.failed || c.flags.interfaceStub) hcore :)
  unfold FunctionContext.settled
  rw [hidle]
  cases h with
  | stopped _ hfailed =>
    rw [if_pos (by rw [hfailed]; rfl), if_pos (by rw [hfailed]; rfl)]
    exact ⟨core_setStatements hcore _ _ _, .inl hfailed, fun _ _ _ ↦ rfl⟩
  | @twin ρ loose shared htwin hanchors horder =>
    have hpoint {x y : FunctionContext} (hxy : Twin ρ loose shared x y) (hstub : x.stub = c.stub)
        (link : StubLink) (hlink : x.stub = some link) :
        y.graph.findPin? link.ubergraphCall PinName.entryPoint (some .input) =
          x.graph.findPin? link.ubergraphCall PinName.entryPoint (some .input) := by
      obtain ⟨hloose, hfixed⟩ := hanchors link.ubergraphCall (.inr ⟨link, hstub ▸ hlink, rfl⟩)
      have hpin := hxy.graph.findPin?_eq hloose PinName.entryPoint (some .input)
      rwa [hfixed] at hpin
    split
    · exact ⟨core_setStatements hcore _ _ _, .inr fun link ↦ hpoint htwin rfl link,
        fun _ _ _ ↦ rfl⟩
    · next hidle =>
      rw [Bool.or_eq_true, not_or] at hidle
      obtain ⟨hlist, htight⟩ := (horder.resolve_left hidle.1).resolve_left hidle.2
      obtain ⟨hsorted, hlist, htight⟩ := htwin.sortForFallThrough hlist htight
      obtain ⟨hresolved, hlabels⟩ := hsorted.resolveJumps hlist htight
      obtain ⟨_, _, _, heq⟩ := c.sortForFallThrough.resolveJumps_eq
      have hkeeps : c.sortForFallThrough.resolveJumps.stub = c.stub ∧
          c.sortForFallThrough.resolveJumps.isEventGraph = c.isEventGraph := by
        rw [heq]
        exact ⟨rfl, rfl⟩
      refine ⟨hresolved.core, .inr (hpoint hresolved hkeeps.1), fun hevents n hn ↦ ?_⟩
      obtain ⟨-, hfixed⟩ := hanchors n (.inl ⟨hkeeps.2 ▸ hevents, hn⟩)
      have hlabel := hlabels n
      rwa [hfixed] at hlabel

end FunctionContext

namespace FunctionState

variable {events : List NodeId} {s t : FunctionState}
  {P : (NodeId → NodeId) → (NodeId → Prop) → FunctionContext → FunctionContext → Prop}

theorem classNetNames_finish (s : FunctionState) : s.finish.classNetNames = s.classNetNames := by
  unfold finish
  dsimp only
  split <;> rfl

/-- Functions whose entries say the same are finished alike. -/
theorem finish_alike (hcls : t.cls = s.cls) (hheader : SameHeader s.ctx t.ctx)
    (hflags : t.ctx.netFlags = s.ctx.netFlags)
    (hdescribe : describe t.graph t.ctx.entryPoint = describe s.graph s.ctx.entryPoint) :
    t.finish.cls = s.finish.cls ∧ t.finish.ctx.netFlags = s.finish.ctx.netFlags := by
  have hname := hheader.functionName
  unfold finish FunctionContext.isEventGraph
  dsimp only
  rw [hcls, hname, hdescribe, hheader.flags]
  cases s.cls.findOwnFunction? s.ctx.functionName with
  | none => exact ⟨hcls, hflags⟩
  | some f =>
    cases s.cls.findOverridden? s.ctx.functionName with
    | none => exact ⟨rfl, rfl⟩
    | some overridden => exact ⟨rfl, rfl⟩

/-- Functions that match are the same on the class. -/
theorem Matches.postcompile (h : Matches events P s t) :
    SameHeader s.postcompile.ctx t.postcompile.ctx ∧ t.postcompile.cls = s.postcompile.cls ∧
      t.postcompile.classNetNames = s.postcompile.classNetNames ∧
      (FunctionContext.SameCoded events s.ctx.settled t.ctx.settled →
        FunctionContext.SameCoded events s.postcompile.ctx t.postcompile.ctx) := by
  have hheader := FunctionContext.sameHeader_of_core h.ctx.core
  have hnet : t.ctx.netFlags = s.ctx.netFlags := (congrArg FunctionContext.netFlags h.ctx.core :)
  obtain ⟨_, _, _, _, heq⟩ := s.ctx.settled_eq
  obtain ⟨_, _, _, _, heq'⟩ := t.ctx.settled_eq
  have hcoded : SameHeader s.ctx.settled t.ctx.settled := by
    rw [heq, heq']
    exact ⟨hheader.functionName, hheader.flags, hheader.delegateSignatureName, hheader.stub⟩
  obtain ⟨hcls, hflags⟩ := finish_alike
    (s := { s with ctx := s.ctx.settled }) (t := { t with ctx := t.ctx.settled }) h.cls hcoded
    (by rw [heq, heq']; exact hnet) (by
      change describe t.ctx.settled.graph t.ctx.settled.entryPoint =
        describe s.ctx.settled.graph s.ctx.settled.entryPoint
      rw [heq, heq']
      exact h.ctx.describe_eq)
  obtain ⟨-, -, flags, hs⟩ := finish_keeps { s with ctx := s.ctx.settled }
  obtain ⟨-, -, flags', ht⟩ := finish_keeps { t with ctx := t.ctx.settled }
  rw [hs, ht] at hflags
  obtain rfl : flags' = flags := hflags
  rw [postcompile_eq, postcompile_eq, classNetNames_finish, classNetNames_finish, hs, ht]
  exact ⟨⟨hcoded.functionName, hcoded.flags, hcoded.delegateSignatureName, hcoded.stub⟩, hcls,
    h.names, fun hsame ↦ hsame.setNetFlags flags'⟩

end FunctionState

namespace Compilation

/-! ## Passes side by side -/

/-- Two compiles on the same class whose functions are related. -/
structure Pairs (R : FunctionContext → FunctionContext → Prop) (c d : Compilation) : Prop where
  blueprint : d.blueprint = c.blueprint
  cls : d.cls = c.cls
  names : d.classNetNames = c.classNetNames
  contexts : List.Forall₂ R c.contexts d.contexts

/-- Passes that keep the classes the same relate the functions that they leave. -/
theorem Pairs.runPass {R Q : FunctionContext → FunctionContext → Prop}
    {selected : FunctionContext → Bool} {pass pass' : FunctionState → FunctionState}
    (hselected : ∀ x y, R x y → selected y = selected x)
    (hskip : ∀ x y, R x y → selected x = false → Q x y)
    (hrun : ∀ s t : FunctionState, R s.ctx t.ctx → selected s.ctx = true → t.cls = s.cls →
      t.classNetNames = s.classNetNames → Q (pass s).ctx (pass' t).ctx ∧
        (pass' t).cls = (pass s).cls ∧ (pass' t).classNetNames = (pass s).classNetNames)
    {c d : Compilation} (h : Pairs R c d) :
    Pairs Q (c.runPass selected pass) (d.runPass selected pass') := by
  have hfold {rest rest' : List FunctionContext} (hrest : List.Forall₂ R rest rest')
      {c d : Compilation} (h : Pairs Q c d) :
      Pairs Q (rest.foldl (advance selected pass) c) (rest'.foldl (advance selected pass') d) := by
    induction hrest generalizing c d with
    | nil => exact h
    | @cons x y _ _ hxy _ ih =>
      refine ih ?_
      unfold advance
      rw [hselected x y hxy]
      by_cases hx : selected x = true
      · rw [if_pos hx, if_pos hx]
        obtain ⟨hctx, hcls, hnames⟩ := hrun ⟨x, c.log, c.cls, c.classNetNames⟩
          ⟨y, d.log, d.cls, d.classNetNames⟩ hxy hx h.cls h.names
        exact ⟨h.blueprint, hcls, hnames, List.rel_append h.contexts (.cons hctx .nil)⟩
      · rw [if_neg hx, if_neg hx]
        exact ⟨h.blueprint, h.cls, h.names,
          List.rel_append h.contexts (.cons (hskip x y hxy (by simpa using hx)) .nil)⟩
  rw [runPass_eq, runPass_eq]
  exact hfold h.contexts ⟨h.blueprint, h.cls, h.names, .nil⟩

variable {events : List NodeId} {c d : Compilation} {env : CompileEnv}

/-- Functions as they are listed are prepared alike. -/
theorem Pairs.precompile (env : CompileEnv)
    (h : Pairs (fun x y ↦ ∃ ρ, FunctionContext.Reframed events ρ x y) c d) :
    Pairs (FunctionContext.Matches events FunctionContext.Scheduled)
      (c.precompile (env.saving false)) (d.precompile (env.saving true)) := by
  have hdelegate {x y : FunctionContext} (h : y.core = x.core) :
      y.isDelegateSignature = x.isDelegateSignature :=
    (congrArg FunctionContext.isDelegateSignature h :)
  have hprepare (s t : FunctionState) (h : ∃ ρ, FunctionContext.Reframed events ρ s.ctx t.ctx)
      (hcls : t.cls = s.cls) (hnames : t.classNetNames = s.classNetNames) :
      FunctionState.Matches events FunctionContext.Scheduled (s.precompile (env.saving false))
        (t.precompile (env.saving true)) := by
    obtain ⟨ρ, h⟩ := h
    exact FunctionState.Reframed.precompile ⟨h, hcls, hnames⟩ env
  let Half (x y : FunctionContext) : Prop :=
    if x.isDelegateSignature then FunctionContext.Matches events FunctionContext.Scheduled x y
    else ∃ ρ, FunctionContext.Reframed events ρ x y
  have hhalf : Pairs Half
      (c.runPass (·.isDelegateSignature) (·.precompile (env.saving false)))
      (d.runPass (·.isDelegateSignature) (·.precompile (env.saving true))) := by
    refine h.runPass (fun x y ⟨ρ, hxy⟩ ↦ hdelegate hxy.core) (fun x y hxy hx ↦ ?_)
      fun s t hst hs hcls hnames ↦ ?_
    · change if _ then _ else _
      rwa [if_neg (by rw [hx]; exact Bool.false_ne_true)]
    · have hmatches := hprepare s t hst hcls hnames
      refine ⟨?_, hmatches.cls, hmatches.names⟩
      change if _ then _ else _
      have hheader := (s.precompile_keeps (env.saving false)).1.delegateSignatureName
      rw [if_pos (by rwa [FunctionContext.isDelegateSignature, hheader])]
      exact hmatches.ctx
  refine hhalf.runPass (fun x y hxy ↦ ?_) (fun x y hxy hx ↦ ?_) fun s t hst hs hcls hnames ↦ ?_
  · change if _ then _ else _ at hxy
    split at hxy
    · rw [hdelegate hxy.core]
    · obtain ⟨ρ, hxy⟩ := hxy
      rw [hdelegate hxy.core]
  · change if _ then _ else _ at hxy
    rwa [if_pos (by simpa using hx)] at hxy
  · change if _ then _ else _ at hst
    rw [if_neg (by simpa using hs)] at hst
    have hmatches := hprepare s t hst hcls hnames
    exact ⟨hmatches.ctx, hmatches.cls, hmatches.names⟩

/-- Prepared functions are compiled to the same code. -/
theorem Pairs.compile (henv : env.HandlesAll)
    (h : Pairs (FunctionContext.Matches events FunctionContext.Scheduled) c d) :
    Pairs (FunctionContext.Matches events FunctionContext.SameOrder)
      (c.runPass (fun _ ↦ true) (·.compile (env.saving false)))
      (d.runPass (fun _ ↦ true) (·.compile (env.saving true))) :=
  h.runPass (fun _ _ _ ↦ rfl) (fun _ _ _ h ↦ by cases h) fun s t hst _ hcls hnames ↦ by
    have hmatches := FunctionState.Matches.compile ⟨hst, hcls, hnames⟩ henv
    exact ⟨hmatches.ctx, hmatches.cls, hmatches.names⟩

section Finishing

variable {P : (NodeId → NodeId) → (NodeId → Prop) → FunctionContext → FunctionContext → Prop}

theorem Pairs.postcompile_of {Q : FunctionContext → FunctionContext → Prop}
    (hQ : ∀ s t : FunctionState, s.Matches events P t → Q s.postcompile.ctx t.postcompile.ctx)
    (h : Pairs (FunctionContext.Matches events P) c d) :
    Pairs Q (c.runPass (fun _ ↦ true) (·.postcompile)) (d.runPass (fun _ ↦ true) (·.postcompile)) :=
  h.runPass (fun _ _ _ ↦ rfl) (fun _ _ _ h ↦ by cases h) fun s t hst _ hcls hnames ↦ by
    have hmatches : s.Matches events P t := ⟨hst, hcls, hnames⟩
    obtain ⟨-, hcls, hnames, -⟩ := hmatches.postcompile
    exact ⟨hQ s t hmatches, hcls, hnames⟩

/-- Functions that match are finished on the same class. -/
theorem Pairs.postcompile (h : Pairs (FunctionContext.Matches events P) c d) :
    Pairs SameHeader (c.runPass (fun _ ↦ true) (·.postcompile))
      (d.runPass (fun _ ↦ true) (·.postcompile)) :=
  h.postcompile_of fun _ _ hmatches ↦ hmatches.postcompile.1

/-- Functions with the same order are finished with the same code. -/
theorem Pairs.postcompile_code
    (h : Pairs (FunctionContext.Matches events FunctionContext.SameOrder) c d) :
    Pairs (FunctionContext.SameCoded events) (c.runPass (fun _ ↦ true) (·.postcompile))
      (d.runPass (fun _ ↦ true) (·.postcompile)) :=
  h.postcompile_of fun _ _ hmatches ↦ hmatches.postcompile.2.2.2 hmatches.ctx.settled

end Finishing

/-! ## Classes side by side -/

/-- Events that are entered begin at the same indices. -/
theorem Pairs.lookup_eventLabels (h : Pairs (FunctionContext.SameCoded events) c d) {n : NodeId}
    (hn : n ∈ events) : d.eventLabels.lookup n = c.eventLabels.lookup n := by
  have hevents (x y : FunctionContext) (hxy : FunctionContext.SameCoded events x y) :
      y.isEventGraph = x.isEventGraph := (congrArg FunctionContext.isEventGraph hxy.core :)
  have hfind := find?_of_forall₂ (p := (·.isEventGraph)) (q := (·.isEventGraph)) hevents h.contexts
  unfold eventLabels
  cases hx : c.contexts.find? (·.isEventGraph) with
  | none =>
    rw [hx] at hfind
    generalize d.contexts.find? (·.isEventGraph) = y at hfind
    cases hfind
    rfl
  | some x =>
    rw [hx] at hfind
    generalize d.contexts.find? (·.isEventGraph) = y at hfind
    cases hfind with
    | some hxy => exact hxy.labels (List.find?_some hx) n hn

/-- Functions with the same scripts make the same class. -/
theorem generateCode_congr {contexts contexts' : List FunctionContext} {skeletonOnly : Bool}
    (h : List.Forall₂ (fun x y : FunctionContext ↦ y.functionName = x.functionName ∧
      y.script skeletonOnly = x.script skeletonOnly) contexts contexts') (cls : Class) :
    cls.generateCode contexts' skeletonOnly = cls.generateCode contexts skeletonOnly := by
  unfold Class.generateCode
  induction h generalizing cls with
  | nil => rfl
  | cons hxy _ ih =>
    rw [List.foldl_cons, List.foldl_cons, hxy.1, hxy.2, ih]

/-- Stubs that are told where to go on the same class are delivered as the same class. -/
theorem Pairs.cls_deliver {R : FunctionContext → FunctionContext → Prop} (h : Pairs R c d)
    (old : Option DefaultObject) (hheader : ∀ x y, R x y → SameHeader x y)
    (hscript : ∀ x y, R x y → (patchStub d.eventLabels y).script env.options.isSkeletonOnly =
      (patchStub c.eventLabels x).script env.options.isSkeletonOnly) :
    ((d.patchStubs.finishClass (env.saving true) old).deliver (env.saving true)).cls =
      ((c.patchStubs.finishClass (env.saving false) old).deliver (env.saving false)).cls := by
  have hpatched (x y : FunctionContext) (hxy : R x y) :
      SameHeader (patchStub c.eventLabels x) (patchStub d.eventLabels y) :=
    (x.sameHeader_patchStub _).symm.trans ((hheader x y hxy).trans (y.sameHeader_patchStub _))
  have hlinked : d.patchStubs.linkedClass = c.patchStubs.linkedClass := by
    refine linkedClass_congr h.cls ?_
    rw [contexts_patchStubs, contexts_patchStubs]
    exact List.forall₂_map_left_iff.2 (List.forall₂_map_right_iff.2 (h.contexts.imp hpatched))
  have hcls : (d.patchStubs.finishClass (env.saving true) old).cls =
      (c.patchStubs.finishClass (env.saving false) old).cls := by
    have hload (save : Bool) : (env.saving save).options.isRegeneratingOnLoad =
        env.options.isRegeneratingOnLoad := rfl
    rw [cls_finishClass, cls_finishClass, hlinked, blueprint_patchStubs, blueprint_patchStubs,
      h.blueprint, hload, hload]
  rw [Compilation.cls_deliver, Compilation.cls_deliver, hcls,
    (d.patchStubs.finishClass_keeps _ old).2.2, (c.patchStubs.finishClass_keeps _ old).2.2,
    contexts_patchStubs, contexts_patchStubs]
  refine generateCode_congr (List.forall₂_map_left_iff.2 (List.forall₂_map_right_iff.2 ?_)) _
  exact h.contexts.imp fun x y hxy ↦ ⟨(hpatched x y hxy).functionName, hscript x y hxy⟩

/-- Listed functions that are reframed are compiled to the same class. -/
theorem Pairs.cls_compileFunctions (henv : env.HandlesAll)
    (h : Pairs (fun x y ↦ ∃ ρ, FunctionContext.Reframed events ρ x y)
      (c.addFunctions (env.saving false)) (d.addFunctions (env.saving true)))
    (hstubs : ∀ x ∈ (c.addFunctions (env.saving false)).contexts, ∀ link, x.stub = some link →
      link.sourceEvent ∈ events) (old : Option DefaultObject) :
    (((d.compileFunctions (env.saving true)).finishClass (env.saving true) old).deliver
        (env.saving true)).cls =
      (((c.compileFunctions (env.saving false)).finishClass (env.saving false) old).deliver
        (env.saving false)).cls := by
  have hprepared := h.precompile env
  unfold compileFunctions
  dsimp only
  have hskeleton (save : Bool) :
      (env.saving save).options.isSkeletonOnly = env.options.isSkeletonOnly := rfl
  rw [hskeleton, hskeleton]
  cases honly : env.options.isSkeletonOnly with
  | true =>
    rw [if_pos rfl, if_pos rfl]
    refine hprepared.postcompile.cls_deliver old (fun _ _ hxy ↦ hxy) fun x y _ ↦ ?_
    simp [honly, FunctionContext.script]
  | false =>
    rw [if_neg Bool.false_ne_true, if_neg Bool.false_ne_true]
    have hcompiled := (hprepared.compile henv).postcompile_code
    have hkept (selected : FunctionContext → Bool) {pass : FunctionState → FunctionState}
        (hpass : Keeps pass) {c : Compilation}
        (hc : ∀ x ∈ c.contexts, ∀ link, x.stub = some link → link.sourceEvent ∈ events) :
        ∀ x ∈ (c.runPass selected pass).contexts,
          ∀ link, x.stub = some link → link.sourceEvent ∈ events :=
      forall_runPass (fun _ _ hx ↦ hx) (fun s hs ↦ (hpass s).1.stub ▸ hs) hc
    have hentered := hkept (fun _ ↦ true) keeps_postcompile (hkept (fun _ ↦ true)
      (keeps_compile (env.saving false)) (hkept (!·.isDelegateSignature)
        (keeps_precompile (env.saving false)) (hkept (·.isDelegateSignature)
          (keeps_precompile (env.saving false)) hstubs)))
    refine Pairs.cls_deliver
      { hcompiled with contexts := (List.forall₂_and_left _ _).2 ⟨hentered, hcompiled.contexts⟩ }
      old (fun x y hxy ↦ FunctionContext.sameHeader_of_core hxy.2.core) fun x y hxy ↦ ?_
    exact hxy.2.script_patchStub (fun link hlink ↦
      hcompiled.lookup_eventLabels (hxy.1 link hlink)) _

end Compilation

namespace Compilation

variable {env : CompileEnv} {c : Compilation}

/-- Every stub that is listed is of an event of the event graph. -/
theorem sourceEvent_mem (hnone : c.contexts = []) {x : FunctionContext}
    (hx : x ∈ (c.addFunctions env).contexts) {link : StubLink} (hlink : x.stub = some link) :
    link.sourceEvent ∈ (c.eventGraph env).1.nodesWhere (·.isEvent) := by
  let P (x : FunctionContext) : Prop := ∀ link, x.stub = some link →
    link.sourceEvent ∈ (c.eventGraph env).1.nodesWhere (·.isEvent)
  let b := c.blueprint
  have hplain {x : FunctionContext} (hx : x.stub = none) : P x := fun link hlink ↦ by
    rw [hx] at hlink
    cases hlink
  have hgraph {d : Compilation} (hd : Lists b P d) (name : String) (g : Graph)
      (flags : ContextFlags) (delegate : Option String) : Lists b P ((d.expand env g).2.addContext
        (d.listed name (d.expand env g).1 flags delegate none)) :=
    Lists.addContext hd (hplain rfl)
  have hstart : Lists b P c := ⟨rfl, fun x hx ↦ by
    rw [hnone] at hx
    cases hx⟩
  have hstub {d : Compilation} (hd : Lists b P d) {event : NodeId}
      (hevent : event ∈ (c.eventGraph env).1.nodesWhere (·.isEvent)) (g : Graph) :
      Lists b P (d.addStub env g event) := by
    unfold addStub
    split
    · dsimp only
      split
      · exact hd
      · refine Lists.addContext hd fun link hlink ↦ ?_
        obtain rfl := Option.some.inj hlink
        exact hevent
    · exact hd
  have hevents : Lists b P (c.addEventGraph env) := by
    rw [addEventGraph_eq]
    have hblueprint : (c.eventGraph env).2.blueprint = c.blueprint := by
      unfold eventGraph
      rfl
    have hexpanded : Lists b P (c.eventGraph env).2 := by
      refine ⟨hblueprint, fun x hx ↦ ?_⟩
      rw [contexts_eventGraph, hnone] at hx
      cases hx
    have hlisted := hexpanded.addContext (hplain (eventGraphOf_eventContext env c).stub)
    exact hlisted.foldl (fun d event hevent hd ↦ hstub hd hevent (c.eventGraph env).1)
  suffices Lists b P (c.addFunctions env) from this.2 x hx link hlink
  unfold addFunctions
  dsimp only
  refine Lists.foldl (fun d g _ hd ↦ ?_) (Lists.foldl (fun d g _ hd ↦ ?_)
    (Lists.foldl (fun d g _ hd ↦ ?_) ?_))
  · exact hgraph hd _ g _ none
  · exact hgraph hd _ g _ (some g.name)
  · exact hgraph hd _ g _ none
  · split
    · exact hevents
    · exact hstart

end Compilation

/-- Lists side by side that agree in a key. -/
theorem forall₂_of_map_eq {α κ : Type} {R : α → α → Prop} {key : α → κ} {l l' : List α}
    (h : List.Forall₂ R l l') (hkey : l'.map key = l.map key) :
    List.Forall₂ (fun a b ↦ a ∈ l ∧ b ∈ l' ∧ R a b ∧ key b = key a) l l' := by
  rw [List.forall₂_iff_get] at h ⊢
  refine ⟨h.1, fun i hi hi' ↦ ⟨List.get_mem _ _, List.get_mem _ _, h.2 i hi hi', ?_⟩⟩
  have hsame := congrArg (·[i]?) hkey
  simpa [List.getElem?_eq_getElem hi, List.getElem?_eq_getElem hi'] using hsame

namespace Blueprint

variable {b : Blueprint} {options : CompileOptions} {suffix : Bool}

/-- The events of the event graph as it is listed. -/
def listedEvents (b : Blueprint) (options : CompileOptions) (suffix : Bool) : List NodeId :=
  ((b.shaped suffix).eventGraph (b.environment options)).1.nodesWhere (·.isEvent)

/-- The numbers of nodes that can show in the class, function by function as they are listed. -/
def shownNumbers (b : Blueprint) (options : CompileOptions) (suffix : Bool) : List (List NodeId) :=
  ((b.shaped suffix).addFunctions (b.environment options)).contexts.map (·.numbers)

theorem environment_saving (b : Blueprint) (options : CompileOptions) (save : Bool) :
    b.environment (options.saving save) = (b.environment options).saving save := rfl

/-- What has to keep its number is neither a comment nor the entry. -/
theorem exists_kind_of_anchors (hwf : b.WellFormed) {x : FunctionContext}
    (hx : x ∈ ((b.shaped suffix).addFunctions (b.environment options)).contexts) {n : NodeId}
    (hn : x.Anchors (b.listedEvents options suffix) n) :
    ∃ kind, x.graph.kind? n = some kind ∧ kind.isComment = false ∧ kind.isEntry = false := by
  rcases hn with ⟨hevents, hn⟩ | ⟨link, hlink, rfl⟩
  · obtain ⟨hpages, hmacros⟩ := wellFormed_shaped hwf suffix
    obtain rfl := Compilation.eq_eventContext_of_isEventGraph (contexts_shaped b suffix) hx hevents
    obtain ⟨hgraph, -⟩ := Compilation.headed_eventGraph hpages hmacros (b.environment options)
    obtain ⟨kind, hkind, hevent⟩ := hgraph.mem_nodesWhere.1 hn
    rw [(Compilation.eventGraphOf_eventContext _ _).graph]
    exact ⟨kind, hkind, NodeKind.plain_of_isEvent hevent⟩
  · obtain ⟨g, data, names, ws, hstub⟩ :=
      forall_listed (Compilation.sound_stubOf (b.environment options) (b.shaped suffix).blueprint)
        x hx link hlink
    obtain ⟨next, before, hframed⟩ := hstub.wired.framed
    have hcall : link.ubergraphCall = EventStub.callId :=
      (congrArg StubLink.ubergraphCall (Option.some.inj (hlink.symm.trans hstub.stub)) :)
    rw [hcall]
    exact ⟨_, hframed.callKind, rfl, rfl⟩

/-- If the same numbers show, then the functions are listed with frames and else alike. -/
theorem pairs_listed (hwf : b.WellFormed)
    (hnumbers : b.shownNumbers (options.saving true) suffix =
      b.shownNumbers (options.saving false) suffix) :
    Compilation.Pairs (fun x y ↦ ∃ ρ,
        FunctionContext.Reframed (b.listedEvents (options.saving false) suffix) ρ x y)
      ((b.shaped suffix).addFunctions ((b.environment options).saving false))
      ((b.shaped suffix).addFunctions ((b.environment options).saving true)) := by
  have hwf' : (b.shaped suffix).blueprint.WellFormed := by
    have hsettled := hwf.settleNames .empty
    rw [blueprint_shaped]
    generalize b.settleNames .empty = settled at hsettled ⊢
    exact hsettled
  have hblueprint : (b.shaped suffix).blueprint = (b.shaped suffix).blueprint := rfl
  unfold shownNumbers at hnumbers
  have hsingle := fun d (hd : d ∈ ((b.shaped suffix).addFunctions
    (b.environment (options.saving false))).contexts) ↦
      And.intro (b.wellFormed_listed hwf hd) (b.fresh_listed _ suffix d hd)
  have hanchors := fun d (hd : d ∈ ((b.shaped suffix).addFunctions
    (b.environment (options.saving false))).contexts) n ↦
      exists_kind_of_anchors (n := n) hwf hd
  have hsingle' := fun d (hd : d ∈ ((b.shaped suffix).addFunctions
    (b.environment (options.saving true))).contexts) ↦ b.wellFormed_listed hwf hd
  rw [environment_saving] at hsingle hsingle' hanchors
  rw [environment_saving, environment_saving] at hnumbers
  generalize b.listedEvents (options.saving false) suffix = events at hanchors ⊢
  obtain ⟨⟨log, contexts, hframe⟩, hcontexts⟩ :=
    Compilation.framed_addFunctions hwf' hblueprint (contexts_shaped b suffix) _ hnumbers
  refine ⟨by rw [hframe], by rw [hframe], by rw [hframe], ?_⟩
  refine (forall₂_of_map_eq hcontexts hnumbers).imp fun x y ⟨hx, hy, ⟨ρ, hxy⟩, hsame⟩ ↦ ⟨ρ, ?_⟩
  exact ⟨hxy, hsame, (hsingle x hx).1, hsingle' y hy, (hsingle x hx).2, hanchors x hx⟩

/-- If the numbers that show in the class are the same with the products of expansions kept as
without, then the class is the same. -/
theorem cls_compile_saving (hwf : b.WellFormed)
    (hnumbers : b.shownNumbers (options.saving true) suffix =
      b.shownNumbers (options.saving false) suffix) :
    (b.compile (options.saving true) suffix).cls =
      (b.compile (options.saving false) suffix).cls := by
  have hpairs := pairs_listed hwf hnumbers
  have hstubs : ∀ x ∈ ((b.shaped suffix).addFunctions
      ((b.environment options).saving false)).contexts, ∀ link, x.stub = some link →
        link.sourceEvent ∈ ((b.shaped suffix).eventGraph
          ((b.environment options).saving false)).1.nodesWhere (·.isEvent) := fun _ hx _ hlink ↦
    Compilation.sourceEvent_mem (contexts_shaped b suffix) hx hlink
  unfold listedEvents at hpairs
  rw [environment_saving] at hpairs
  rw [compile_eq_deliver, compile_eq_deliver, environment_saving, environment_saving]
  exact hpairs.cls_compileFunctions handlesAll_environment hstubs _

/-! ### Pages -/

/-- A page with an event that takes a level. -/
def dimPage : Graph :=
  let (event, g) := (Graph.empty "Lights").spawn (.event (.custom "Dim"))
  (g.allocPin event .output { name := "Level", ty := .float }).2

/-- A page with an event that takes nothing. -/
def knockPage : Graph := ((Graph.empty "Doors").spawn (.event (.custom "Knock"))).2

/-- A Blueprint with these pages. -/
def paged (pages : List Graph) : Blueprint :=
  { Blueprint.new "House" (Class.new "Actor" none) with ubergraphPages := pages }

/-- The frame of a last page comes behind all events. -/
theorem cls_compile_saving_paged :
    let b := paged [dimPage]
    b.WellFormed ∧ b.shownNumbers (CompileOptions.full.saving true) true =
        b.shownNumbers (CompileOptions.full.saving false) true ∧
      (b.compile (CompileOptions.full.saving true) true).cls =
        (b.compile (CompileOptions.full.saving false) true).cls ∧
      ∃ c ∈ (b.compile (CompileOptions.full.saving true) true).contexts,
        c.graph.nodesWhere (·.isComment) ≠ [] := by
  have hwf : (paged [dimPage]).WellFormed := by
    change ∀ g ∈ (paged [dimPage]).allGraphs, g.WellFormed
    decide +kernel
  have hnumbers : (paged [dimPage]).shownNumbers (CompileOptions.full.saving true) true =
      (paged [dimPage]).shownNumbers (CompileOptions.full.saving false) true := by decide +kernel
  exact ⟨hwf, hnumbers, cls_compile_saving hwf hnumbers, by decide +kernel⟩

/-- A frame between two pages renumbers the event behind it, whose parameter is stored under
another name. -/
theorem not_cls_compile_saving : ¬∀ (b : Blueprint) (options : CompileOptions) (suffix : Bool),
    b.WellFormed → (b.compile (options.saving true) suffix).cls =
      (b.compile (options.saving false) suffix).cls := by
  intro h
  have hwf : ∀ g ∈ (paged [knockPage, dimPage]).allGraphs, g.WellFormed := by decide +kernel
  have hnames := congrArg (·.own.properties.map (·.name))
    (h (paged [knockPage, dimPage]) .full true hwf)
  have hkept : ((paged [knockPage, dimPage]).compile
      (CompileOptions.full.saving true) true).cls.own.properties.map (·.name) =
        ["Event_2_Level"] := by decide +kernel
  have hplain : ((paged [knockPage, dimPage]).compile
      (CompileOptions.full.saving false) true).cls.own.properties.map (·.name) =
        ["Event_1_Level"] := by decide +kernel
  rw [hkept, hplain] at hnames
  exact absurd hnames (by decide)

end Blueprint

end VisualScript
