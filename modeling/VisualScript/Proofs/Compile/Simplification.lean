import VisualScript.Proofs.Compile.Preparation
import VisualScript.Proofs.Graph.Consolidation
import VisualScript.Proofs.Graph.Fragment
import VisualScript.Proofs.Graph.Linking
import VisualScript.Proofs.Graph.Stubs
import VisualScript.Proofs.Reach

/-!
# Simplified graphs

Before a function is scheduled, nodes that cannot run and reroutes are taken out of
its graph.  What stays is well-formed and linked, and has the entry and the events.
-/

namespace VisualScript

namespace Graph

/-! ## Nodes under edits of links -/

theorem nodes_foldl {α : Type} {f : Graph → α → Graph} (hf : ∀ g a, (f g a).nodes = g.nodes)
    (l : List α) (g : Graph) : (l.foldl f g).nodes = g.nodes := by
  induction l generalizing g with
  | nil => rfl
  | cons a l ih => exact (ih _).trans (hf g a)

theorem nodes_makeLink {g g' : Graph} {a b : PinId} (h : g.makeLink a b = .ok g') :
    g'.nodes = g.nodes := by
  obtain ⟨pa, pb, -, -, -, -, ⟨-, rfl⟩ | ⟨-, rfl⟩⟩ := makeLink_eq_ok h <;> rfl

theorem nodes_breakPinLinks (g : Graph) (p : PinId) : (g.breakPinLinks p).nodes = g.nodes :=
  nodes_foldl (fun g q ↦ (rfl : (g.breakLink p q).nodes = g.nodes)) _ g

theorem nodes_breakNodeLinks (g : Graph) (n : NodeId) : (g.breakNodeLinks n).nodes = g.nodes :=
  nodes_foldl nodes_breakPinLinks _ g

theorem kind?_of_nodes {g g' : Graph} (h : g'.nodes = g.nodes) (n : NodeId) :
    g'.kind? n = g.kind? n := by
  rw [kind?, node?, h, kind?, node?]

theorem kind?_removeNode {g : Graph} {n m : NodeId} (h : n ≠ m) :
    (g.removeNode n).kind? m = g.kind? m := by
  cases hn : g.contains n with
  | false => rw [removeNode_of_not_contains hn]
  | true =>
    rw [kind?, node?_removeNode hn, if_neg h]
    exact kind?_of_nodes (nodes_breakNodeLinks g n) m

theorem kind?_removePin (g : Graph) (p : PinId) (m : NodeId) :
    (g.removePin p).kind? m = g.kind? m := by
  cases hp : g.ownerOf? p with
  | none =>
    unfold removePin
    rw [hp]
  | some n =>
    rw [kind?, node?_removePin hp, ← kind?_of_nodes (nodes_breakPinLinks g p) m, kind?]
    split
    · rw [Option.map_map]
      rfl
    · rfl

/-! ## What is left of a graph -/

/-- What is left of a graph after nodes other than the roots were taken out. -/
structure Trims (g₀ : Graph) (roots : List NodeId) (g : Graph) : Prop where
  wellFormed : g.WellFormed
  linked : g.Linked
  order : g.order.Sublist g₀.order
  kind? : ∀ n ∈ g.order, g.kind? n = g₀.kind? n
  roots : roots ⊆ g.order

namespace Trims

variable {g₀ g g' : Graph} {roots : List NodeId}

/-- An edit in place leaves as much as there was. -/
theorem edit (h : Trims g₀ roots g) (hbooks : SameBooks g g') (hlinked : g'.Linked)
    (hnodes : g'.nodes = g.nodes) : Trims g₀ roots g' where
  wellFormed := hbooks.wellFormed h.wellFormed
  linked := hlinked
  order := hbooks.order ▸ h.order
  kind? n hn := (kind?_of_nodes hnodes n).trans (h.kind? n (hbooks.order ▸ hn))
  roots := hbooks.order ▸ h.roots

theorem removeNode (h : Trims g₀ roots g) {n : NodeId} (hn : n ∉ roots) :
    Trims g₀ roots (g.removeNode n) := by
  cases hcontains : g.contains n with
  | false => rwa [removeNode_of_not_contains hcontains]
  | true =>
    refine ⟨h.wellFormed.removeNode n, h.linked.removeNode n, ?_, fun m hm ↦ ?_, fun m hm ↦ ?_⟩
    · rw [order_removeNode hcontains]
      exact List.filter_sublist.trans h.order
    · rw [order_removeNode hcontains, List.mem_filter] at hm
      rw [kind?_removeNode (Ne.symm (by simpa using hm.2)), h.kind? m hm.1]
    · rw [order_removeNode hcontains, List.mem_filter]
      refine ⟨h.roots hm, decide_eq_true ?_⟩
      rintro rfl
      exact hn hm

theorem removePin (h : Trims g₀ roots g) (p : PinId) : Trims g₀ roots (g.removePin p) where
  wellFormed := h.wellFormed.removePin p
  linked := h.linked.removePin p
  order := order_removePin g p ▸ h.order
  kind? n hn := (kind?_removePin g p n).trans (h.kind? n (order_removePin g p ▸ hn))
  roots := order_removePin g p ▸ h.roots

/-- A root that is the only node of some kind still is. -/
theorem nodesWhere_eq (h : Trims g₀ roots g) (h₀ : g₀.WellFormed) {kinds : NodeKind → Bool}
    {n : NodeId} (hroot : n ∈ roots) (hn : g₀.nodesWhere kinds = [n]) :
    g.nodesWhere kinds = [n] := by
  have hkept : g.nodesWhere kinds = g.order.filter (g₀.kindIs · kinds) := by
    rw [h.wellFormed.nodesWhere_eq]
    refine List.filter_congr fun m hm ↦ ?_
    rw [kindIs, kindIs, h.kind? m hm]
  rw [h₀.nodesWhere_eq] at hn
  have hmem : n ∈ g.order.filter (g₀.kindIs · kinds) := by
    have hkind : n ∈ g₀.order.filter (g₀.kindIs · kinds) := by
      rw [hn]
      exact List.mem_singleton_self n
    exact List.mem_filter.2 ⟨h.roots hroot, (List.mem_filter.1 hkind).2⟩
  have hsublist := h.order.filter (g₀.kindIs · kinds)
  rw [hn] at hsublist
  rw [hkept]
  rcases List.sublist_singleton.1 hsublist with hnil | hone
  · rw [hnil] at hmem
    cases hmem
  · exact hone

/-! ## Pruning -/

theorem removeUnless (h : Trims g₀ roots g) {keep : Graph → NodeId → Bool}
    (hkeep : ∀ g, ∀ n ∈ roots, keep g n = true) : Trims g₀ roots (g.removeUnless keep).2 := by
  unfold Graph.removeUnless
  refine List.foldlRecOn (motive := fun acc : List NodeId × Graph ↦ Trims g₀ roots acc.2) _ _ h fun acc hacc n _ ↦ ?_
  dsimp only
  split
  · exact hacc
  · next hn => exact hacc.removeNode fun hroot ↦ hn (hkeep _ n hroot)

theorem pruneIsolated (h : Trims g₀ roots g) (keepComments : Bool) :
    Trims g₀ roots (g.pruneIsolated roots keepComments).2 := by
  have hreachable (n : NodeId) (hn : n ∈ roots) : n ∈ g.execReachable roots :=
    mem_reach.2 (.start hn (h.roots hn))
  have hfirst : Trims g₀ roots
      (g.removeUnless fun g' n ↦ n ∈ g.execReachable roots || g'.isPure n).2 :=
    h.removeUnless fun g' n hn ↦ by simp [hreachable n hn]
  unfold Graph.pruneIsolated
  refine hfirst.removeUnless fun g' n hn ↦ ?_
  have hconnected : n ∈ linkReachable _ (g.execReachable roots) :=
    mem_reach.2 (.start (hreachable n hn) (hfirst.roots hn))
  simp [hconnected]

theorem dropUnusedWorldContext (h : Trims g₀ roots g) (env : CompileEnv) (entry : NodeId) :
    Trims g₀ roots (FunctionState.dropUnusedWorldContext env entry g) := by
  unfold FunctionState.dropUnusedWorldContext
  split
  · exact h
  · split
    · split
      · exact h.removePin _
      · exact h
    · exact h

/-! ## Reroutes -/

section Reroutes

variable {s : FunctionState} (h : Trims g₀ roots s.graph)
include h

theorem bridge (n : NodeId) (target source : PinId) :
    Trims g₀ roots (Knot.bridge n target s source).graph := by
  unfold Knot.bridge
  split
  · next g hg => exact h.edit (sameBooks_makeLink hg) (h.linked.makeLink hg) (nodes_makeLink hg)
  · exact h

theorem release (n : NodeId) (output target : PinId) (sources : List PinId) (value : String)
    (object : Option String) :
    Trims g₀ roots (Knot.release n output sources value object s target).graph := by
  have hbroken := h.edit (sameBooks_breakLink s.graph output target)
    (h.linked.breakLink output target) rfl
  have hdefaults : Trims g₀ roots (if sources.isEmpty then
      (s.graph.breakLink output target).setDefaults target value object
      else s.graph.breakLink output target) := by
    split
    · refine hbroken.edit (sameBooks_setDefaults _ _ _ _) (hbroken.linked.modifyPin target ?_) rfl
      exact fun _ ↦ ⟨rfl, rfl, rfl⟩
    · exact hbroken
  have hfold (sources : List PinId) (s : FunctionState) (hs : Trims g₀ roots s.graph) :
      Trims g₀ roots (sources.foldl (Knot.bridge n target) s).graph := by
    induction sources generalizing s with
    | nil => exact hs
    | cons source sources ih => exact ih _ (hs.bridge n target source)
  exact hfold sources _ hdefaults

theorem transform {n : NodeId} (hn : n ∉ roots) : Trims g₀ roots (Knot.transform s n).graph := by
  have hfold (output : PinId) (sources targets : List PinId) (value : String)
      (object : Option String) (s : FunctionState) (hs : Trims g₀ roots s.graph) :
      Trims g₀ roots (targets.foldl (Knot.release n output sources value object) s).graph := by
    induction targets generalizing s with
    | nil => exact hs
    | cons target targets ih => exact ih _ (hs.release n output target sources value object)
  unfold Knot.transform
  split
  · exact (hfold _ _ _ _ _ s h).removeNode hn
  · exact h

/-- No root is a reroute. -/
theorem transformNodes (env : CompileEnv) (hroots : ∀ n ∈ roots, ∀ ty, g₀.kind? n ≠ some (.knot ty)) :
    Trims g₀ roots (s.transformNodes env).graph := by
  unfold FunctionState.transformNodes
  refine List.foldlRecOn (motive := fun s : FunctionState ↦ Trims g₀ roots s.graph) _ _ h fun s hs n _ ↦ ?_
  split
  · next kind hkind =>
    split
    · cases kind with
      | knot ty =>
        refine hs.transform fun hroot ↦ hroots n hroot ty ?_
        rw [← hs.kind? n (hs.roots hroot)]
        exact hkind
      | _ => exact hs
    · exact hs
  · exact hs

end Reroutes

end Trims

end Graph

/-! ## Simplifying -/

namespace FunctionState

variable {s : FunctionState} {entry : NodeId}

theorem findEntry_eq_ok (h : s.findEntry = .ok entry) :
    s.graph.nodesWhere (·.isEntry) = [entry] := by
  unfold findEntry at h
  split at h
  · next heq =>
    cases h
    exact heq
  · cases h
  · cases h

/-- The roots are the entry, the events and the timelines. -/
theorem mem_roots (hwf : s.graph.WellFormed) (h : s.findEntry = .ok entry) {n : NodeId}
    (hn : n ∈ roots s.graph entry) :
    n ∈ s.graph.order ∧ ∀ ty, s.graph.kind? n ≠ some (.knot ty) := by
  have hlisted {kinds : NodeKind → Bool} (hn : n ∈ s.graph.nodesWhere kinds)
      (hkinds : ∀ ty, kinds (.knot ty) = false) :
      n ∈ s.graph.order ∧ ∀ ty, s.graph.kind? n ≠ some (.knot ty) := by
    rw [hwf.nodesWhere_eq, List.mem_filter] at hn
    refine ⟨hn.1, fun ty hkind ↦ ?_⟩
    have hknot := hn.2
    rw [Graph.kindIs, hkind, Option.any_some, hkinds] at hknot
    cases hknot
  rcases List.mem_cons.1 hn with rfl | hn
  · have hentry : n ∈ s.graph.nodesWhere (·.isEntry) := by
      rw [findEntry_eq_ok h]
      exact List.mem_singleton_self _
    exact hlisted hentry fun ty ↦ rfl
  · exact hlisted hn fun ty ↦ rfl

/-- A graph that is simplified without an error is trimmed to what its roots need. -/
theorem trims_simplifyGraph (env : CompileEnv) (hwf : s.graph.WellFormed)
    (hentry : s.findEntry = .ok entry)
    (hlog : (s.simplifyGraph env entry).log.numErrors ≤ s.log.numErrors) :
    Graph.Trims s.graph (roots s.graph entry) (s.simplifyGraph env entry).graph := by
  let checked : FunctionState :=
    { s with ctx.entryPoint := some entry, log := s.graph.validate env.schema s.log }
  let pruned : FunctionState := { checked with
    ctx.graph := (s.graph.pruneIsolated (roots s.graph entry) env.options.saveIntermediateProducts).2 }
  have hquiet : checked.log.numErrors ≤ s.log.numErrors := by
    have hedits : EditsGraph checked (s.simplifyGraph env entry) := by
      refine EditsGraph.trans ?_ (.graph _ _)
      refine EditsGraph.trans ?_ (editsGraph_transformNodes env _)
      exact (EditsGraph.graph checked _).trans (.pushAll pruned _)
    obtain ⟨g, log, hsimplify, hle, -⟩ := hedits
    rw [hsimplify] at hlog
    exact Nat.le_trans hle hlog
  have hstart : Graph.Trims s.graph (roots s.graph entry) s.graph :=
    ⟨hwf, hwf.linked hquiet, .refl _, fun _ _ ↦ rfl, fun n hn ↦ (mem_roots hwf hentry hn).1⟩
  have hpruned : Graph.Trims s.graph (roots s.graph entry) pruned.graph :=
    hstart.pruneIsolated env.options.saveIntermediateProducts
  refine Graph.Trims.dropUnusedWorldContext ?_ env entry
  refine Graph.Trims.transformNodes (s := { pruned with
    log := pruned.log.pushAll (pruned.graph.order.filterMap pruned.selfFault?) }) hpruned env ?_
  exact fun n hn ↦ (mem_roots hwf hentry hn).2

end FunctionState

/-!
## Roots of simplified graphs

Simplifying a graph takes nodes out around its roots, which keep their kinds and pins.
-/

namespace Graph.Around

open FunctionState

variable {ns : List NodeId} {g₀ g : Graph}

/-! ### Pruning -/

theorem removeUnless (h : Around ns g₀ g) {keep : Graph → NodeId → Bool}
    (hkeep : ∀ g, ∀ n ∈ ns, keep g n = true) : Around ns g₀ (g.removeUnless keep).2 := by
  refine List.foldlRecOn (motive := fun acc : List NodeId × Graph ↦ Around ns g₀ acc.2) _ _ h
    fun acc hacc n _ ↦ ?_
  dsimp only
  split
  · exact hacc
  · next hn => exact hacc.removeNode fun hmem ↦ hn (hkeep _ n hmem)

theorem pruneIsolated (h : Around ns g₀ g) {roots : List NodeId} (hroots : ns ⊆ roots)
    (keepComments : Bool) : Around ns g₀ (g.pruneIsolated roots keepComments).2 := by
  have hreachable (n : NodeId) (hn : n ∈ ns) : n ∈ g.execReachable roots :=
    mem_reach.2 (.start (hroots hn) ((h.wellFormed.mem_order n).2 (h.contains hn)))
  have hfirst : Around ns g₀
      (g.removeUnless fun g' n ↦ n ∈ g.execReachable roots || g'.isPure n).2 :=
    h.removeUnless fun g' n hn ↦ by simp [hreachable n hn]
  unfold Graph.pruneIsolated
  refine hfirst.removeUnless fun g' n hn ↦ ?_
  have hconnected : n ∈ linkReachable _ (g.execReachable roots) := mem_reach.2
    (.start (hreachable n hn) ((hfirst.wellFormed.mem_order n).2 (hfirst.contains hn)))
  simp [hconnected]

/-! ### Reroutes -/

section Reroutes

variable {s : FunctionState} (h : Around ns g₀ s.graph)
include h

theorem bridge (n : NodeId) (target source : PinId) :
    Around ns g₀ (Knot.bridge n target s source).graph := by
  unfold Knot.bridge
  split
  · next g hg => exact h.sameFaces (sameFaces_makeLink hg)
  · exact h

theorem release (n : NodeId) (output target : PinId) (sources : List PinId) (value : String)
    (object : Option String) :
    Around ns g₀ (Knot.release n output sources value object s target).graph := by
  have hbroken := h.sameFaces (sameFaces_breakLink s.graph output target)
  have hdefaults : Around ns g₀ (if sources.isEmpty then
      (s.graph.breakLink output target).setDefaults target value object
      else s.graph.breakLink output target) := by
    split
    · exact hbroken.sameFaces (sameFaces_setDefaults _ _ _ _)
    · exact hbroken
  exact List.foldlRecOn (motive := fun s : FunctionState ↦ Around ns g₀ s.graph) sources _ hdefaults
    fun s hs source _ ↦ hs.bridge n target source

theorem transform {n : NodeId} (hn : n ∉ ns) : Around ns g₀ (Knot.transform s n).graph := by
  unfold Knot.transform
  split
  · refine Around.removeNode ?_ hn
    exact List.foldlRecOn (motive := fun s : FunctionState ↦ Around ns g₀ s.graph) _ _ h
      fun s hs target _ ↦ hs.release n _ target _ _ _
  · exact h

/-- A node that is not replaced is no reroute. -/
theorem transformNodes (env : CompileEnv) : Around ns g₀ (s.transformNodes env).graph := by
  refine List.foldlRecOn (motive := fun s : FunctionState ↦ Around ns g₀ s.graph) _ _ h
    fun s hs n _ ↦ ?_
  split
  · next kind hkind =>
    split
    · cases kind with
      | knot ty => exact hs.transform (hs.notMem hkind rfl)
      | _ => exact hs
    · exact hs
  · exact hs

end Reroutes

/-- The roots of an event graph keep their kinds and pins. -/
theorem simplifyGraph {s : FunctionState} {entry : NodeId} (h : Around ns g₀ s.graph)
    (env : CompileEnv) (hroots : ns ⊆ roots s.graph entry) (hentry : entry ∈ ns)
    (hcontext : g₀.findPin? entry PinName.worldContext (some .output) = none) :
    Around ns g₀ (s.simplifyGraph env entry).graph := by
  have hpruned := h.pruneIsolated hroots env.options.saveIntermediateProducts
  unfold FunctionState.simplifyGraph
  dsimp only [FunctionState.graph] at hpruned ⊢
  generalize (s.ctx.graph.pruneIsolated (roots s.ctx.graph entry)
    env.options.saveIntermediateProducts).2 = pruned at hpruned ⊢
  generalize MessageLog.pushAll _ _ = log
  have htransformed := Around.transformNodes (s := { s with
    ctx := { s.ctx with graph := pruned, entryPoint := some entry }, log }) hpruned env
  have hnone := ((htransformed.keeps entry hentry).findPin? PinName.worldContext
    (some .output)).trans hcontext
  unfold dropUnusedWorldContext
  rw [hnone]
  split <;> exact htransformed

end Graph.Around

/-!
## Stubs are simple already

All nodes of a stub run and none is a reroute, so preparation leaves its graph alone.
-/

namespace Graph

variable {g : Graph}

/-! ### Nothing to prune -/

theorem removeUnless_eq_self {keep : Graph → NodeId → Bool} (h : ∀ n ∈ g.order, keep g n = true) :
    g.removeUnless keep = ([], g) :=
  List.foldlRecOn (motive := fun acc : List NodeId × Graph ↦ acc = ([], g)) g.order _ rfl
    fun acc hacc n hn ↦ by
      subst hacc
      exact if_pos (h n hn)

/-- A graph whose nodes all run is not pruned. -/
theorem pruneIsolated_eq_self {roots : List NodeId} (h : ∀ n ∈ g.order, n ∈ g.execReachable roots)
    (keepComments : Bool) : (g.pruneIsolated roots keepComments).2 = g := by
  have hdead : g.removeUnless (fun g' n ↦ n ∈ g.execReachable roots || g'.isPure n) = ([], g) :=
    removeUnless_eq_self fun n hn ↦ by simp [h n hn]
  unfold pruneIsolated
  dsimp only
  rw [hdead, removeUnless_eq_self fun n hn ↦ ?_]
  have hconnected : n ∈ g.linkReachable (g.execReachable roots) :=
    mem_reach.2 (.start (h n hn) hn)
  simp [hconnected]

theorem mem_execSuccessors_of_goesOn {n m : NodeId} (h : g.GoesOn n m) :
    m ∈ g.execSuccessors n := by
  obtain ⟨p, q, -, hp, hlinks, howner⟩ := h
  exact List.mem_flatMap.2 ⟨p, hp, mem_linkedNodes.2 ⟨q, hlinks ▸ List.mem_singleton_self q, howner⟩⟩

/-- From a root on the nodes of a path run. -/
theorem mem_execReachable_of_chain {roots path : List NodeId} {n : NodeId}
    (hchain : (n :: path).IsChain g.GoesOn) (horder : ∀ m ∈ n :: path, m ∈ g.order)
    (hn : n ∈ g.execReachable roots) : ∀ m ∈ n :: path, m ∈ g.execReachable roots := by
  induction path generalizing n with
  | nil => exact List.forall_mem_singleton.2 hn
  | cons m path ih =>
    obtain ⟨hstep, hrest⟩ := List.isChain_cons_cons.1 hchain
    obtain ⟨-, horder⟩ := List.forall_mem_cons.1 horder
    have hm : m ∈ g.execReachable roots := mem_reach.2
      ((mem_reach.1 hn).step (mem_execSuccessors_of_goesOn hstep) (horder m List.mem_cons_self))
    exact List.forall_mem_cons.2 ⟨hn, ih hrest horder hm⟩

end Graph

namespace FunctionState

variable {s : FunctionState}

/-- A graph without reroutes is not transformed. -/
theorem transformNodes_eq_self (env : CompileEnv)
    (h : ∀ n ∈ s.graph.order, ∀ ty, s.graph.kind? n ≠ some (.knot ty)) :
    s.transformNodes env = s :=
  List.foldlRecOn (motive := fun s' ↦ s' = s) s.graph.order _ rfl fun s' hs n hn ↦ by
    subst hs
    split
    · next kind hkind =>
      split
      · cases kind with
        | knot ty => exact absurd hkind (h n hn ty)
        | _ => rfl
      · rfl
    · rfl

theorem dropUnusedWorldContext_eq_self (env : CompileEnv) {entry : NodeId} {g : Graph}
    (h : ∀ p, g.findPin? entry PinName.worldContext (some .output) = some p → g.linksOf p ≠ []) :
    dropUnusedWorldContext env entry g = g := by
  unfold dropUnusedWorldContext
  split
  · rfl
  · split
    · next p hp => exact if_neg fun hnone ↦ h p hp (List.isEmpty_iff.1 hnone)
    · rfl

/-- A graph whose nodes all run stays as it is, if it has no reroutes and a world context is
used. -/
theorem graph_simplifyGraph_eq_self (env : CompileEnv) {entry : NodeId}
    (hruns : ∀ n ∈ s.graph.order, n ∈ s.graph.execReachable (roots s.graph entry))
    (hknot : ∀ n ∈ s.graph.order, ∀ ty, s.graph.kind? n ≠ some (.knot ty))
    (hcontext : ∀ p, s.graph.findPin? entry PinName.worldContext (some .output) = some p →
      s.graph.linksOf p ≠ []) : (s.simplifyGraph env entry).graph = s.graph := by
  have hpruned := Graph.pruneIsolated_eq_self hruns env.options.saveIntermediateProducts
  unfold simplifyGraph
  dsimp only [graph] at hpruned ⊢
  rw [hpruned]
  generalize MessageLog.pushAll _ _ = log
  rw [transformNodes_eq_self (s := { s with ctx := { s.ctx with entryPoint := some entry }, log })
    env hknot]
  exact dropUnusedWorldContext_eq_self env hcontext

/-- The graph of a stub stays as it is. -/
theorem graph_simplifyGraph_of_wired {data : EventData} {ubergraph : String}
    {ws : List EventStub.Handover} (h : EventStub.Wired data ubergraph s.graph ws)
    (env : CompileEnv) :
    (s.simplifyGraph env EventStub.entryId).graph = s.graph := by
  obtain ⟨next, before, hframed⟩ := h.framed
  have hpath : ∃ rest, EventStub.path ws = EventStub.entryId :: rest := by
    cases ws with
    | nil => exact ⟨_, rfl⟩
    | cons w ws => exact ⟨_, rfl⟩
  obtain ⟨rest, hpath⟩ := hpath
  have horder : ∀ n ∈ EventStub.entryId :: rest, n ∈ s.graph.order := by
    rw [← hpath]
    exact fun n hn ↦ h.mem_order.2 hn
  have hchain := h.chain
  rw [hpath] at hchain
  have hroot : EventStub.entryId ∈ s.graph.execReachable (roots s.graph EventStub.entryId) :=
    mem_reach.2 (.start List.mem_cons_self (horder _ List.mem_cons_self))
  refine graph_simplifyGraph_eq_self env (fun n hn ↦ Graph.mem_execReachable_of_chain hchain horder
    hroot n (hpath ▸ h.mem_order.1 hn)) (fun n hn ty ↦ ?_) (fun p hp ↦ ?_)
  · rcases h.kind?_of_mem hn with rfl | rfl | ⟨-, -, hkind⟩
    · rw [hframed.entryKind]
      exact fun heq ↦ by cases heq
    · rw [hframed.callKind]
      exact fun heq ↦ by cases heq
    · rw [hkind]
      exact fun heq ↦ by cases heq
  · obtain ⟨pin, hpin, hfound⟩ := hframed.worldContext hp
    obtain ⟨w, -, rfl⟩ := List.mem_map.1 hpin
    rw [Graph.linksOf, hfound]
    exact List.cons_ne_nil _ _

end FunctionState

end VisualScript
