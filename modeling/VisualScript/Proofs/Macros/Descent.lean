import Mathlib.Data.Finset.Card
import Mathlib.Logic.Relation
import VisualScript.Graph.Fragment
import VisualScript.Proofs.Log
import VisualScript.Proofs.Graph.Widening

/-!
# Chains of sources

A log keeps for each generated object the one that it was made from.  If every entry leads
to an object of lower rank, no chain of entries returns to where it began, and following a
chain ends at an object that has no entry.

A node of an expanded macro comes from the instance that it was copied for, which is an
earlier node of the same graph, and its pins come from the macro.  So sources descend while
macros are expanded if later nodes of the graph are above earlier ones and its pins are above
those of the macros.
-/

namespace VisualScript

/-- All that is in a graph of the one name is above all that is in a graph of the other. -/
structure GraphAbove {ρ : Type} [LinearOrder ρ] (rank : ObjectRef → ρ) (upper lower : String) :
    Prop where
  node : ∀ m n, rank (.node lower m) < rank (.node upper n)
  pin : ∀ m p n q, rank (.pin lower m p) < rank (.pin upper n q)

namespace MessageLog

/-- The table of sources leads from the one object to the other. -/
def Traces (log : MessageLog) (object source : ObjectRef) : Prop :=
  log.sources.lookup object = some source

/-- No chain of entries returns to where it began. -/
def Acyclic (log : MessageLog) : Prop := ∀ object, ¬Relation.TransGen log.Traces object object

/-- The chain of entries from the one object ends at the other. -/
structure EndsAt (log : MessageLog) (object source : ObjectRef) : Prop where
  chain : Relation.ReflTransGen log.Traces object source
  last : log.sources.lookup source = none

variable {ρ : Type} [LinearOrder ρ] {rank : ObjectRef → ρ} {log log' : MessageLog}

/-- Every entry leads to an object of lower rank. -/
def Descends (rank : ObjectRef → ρ) (log : MessageLog) : Prop :=
  ∀ ⦃object source⦄, log.Traces object source → rank source < rank object

/-! ## Following entries -/

/-- The objects with an entry that are not above an object. -/
def below (rank : ObjectRef → ρ) (table : List (ObjectRef × ObjectRef)) (object : ObjectRef) :
    Finset ObjectRef :=
  (table.map (·.1)).toFinset.filter fun key ↦ rank key ≤ rank object

theorem mem_below {table : List (ObjectRef × ObjectRef)} {object source : ObjectRef}
    (h : table.lookup object = some source) : object ∈ below rank table object := by
  obtain ⟨before, after, rfl, -⟩ := List.lookup_eq_some_iff.1 h
  simp [below]

theorem below_ssubset {table : List (ObjectRef × ObjectRef)} {object source : ObjectRef}
    (h : table.lookup object = some source) (hlt : rank source < rank object) :
    below rank table source ⊂ below rank table object := by
  refine Finset.ssubset_iff_of_subset (fun key hkey ↦ ?_) |>.2 ⟨object, mem_below h, fun hmem ↦ ?_⟩
  · obtain ⟨hkeys, hle⟩ := Finset.mem_filter.1 hkey
    exact Finset.mem_filter.2 ⟨hkeys, hle.trans hlt.le⟩
  · exact absurd (Finset.mem_filter.1 hmem).2 hlt.not_ge

theorem chain_follow (log : MessageLog) (steps : Nat) (object : ObjectRef) :
    Relation.ReflTransGen log.Traces object (follow log.sources steps object) := by
  induction steps generalizing object with
  | zero => exact .refl
  | succ steps ih =>
    unfold follow
    split
    · next next hnext => exact .head hnext (ih next)
    · exact .refl

/-- Each entry leaves fewer objects below, so that as many steps are enough.  It is enough that
sources descend among the objects of a kind, if these lead to such objects only. -/
theorem lookup_follow {table : List (ObjectRef × ObjectRef)} {P : ObjectRef → Prop}
    (h : ∀ object source, P object → table.lookup object = some source →
      P source ∧ rank source < rank object)
    {steps : Nat} {object : ObjectRef} (hobject : P object)
    (hsteps : (below rank table object).card ≤ steps) :
    table.lookup (follow table steps object) = none := by
  induction steps generalizing object with
  | zero =>
    rw [Option.eq_none_iff_forall_ne_some]
    intro source hsource
    rw [Nat.le_zero, Finset.card_eq_zero] at hsteps
    exact absurd (hsteps ▸ mem_below hsource) (Finset.notMem_empty _)
  | succ steps ih =>
    unfold follow
    cases hnext : table.lookup object with
    | none => exact hnext
    | some next =>
      obtain ⟨hsource, hlt⟩ := h object next hobject hnext
      have hfewer := Finset.card_lt_card (below_ssubset hnext hlt)
      exact ih hsource (by omega)

theorem endsAt_sourceOf {P : ObjectRef → Prop}
    (h : ∀ object source, P object → log.Traces object source →
      P source ∧ rank source < rank object)
    {object : ObjectRef} (hobject : P object) : log.EndsAt object (log.sourceOf object) := by
  refine ⟨log.chain_follow _ object, ?_⟩
  have hkeys : (below rank log.sources object).card ≤ log.sources.length :=
    (Finset.card_filter_le _ _).trans ((List.toFinset_card_le _).trans (List.length_map _).le)
  exact lookup_follow h hobject (Nat.le_succ_of_le hkeys)

/-- A chain has one end. -/
theorem EndsAt.unique {object source source' : ObjectRef} (h : log.EndsAt object source)
    (h' : log.EndsAt object source') : source = source' := by
  have hlast {source source' : ObjectRef} (hnone : log.sources.lookup source = none)
      (hchain : Relation.ReflTransGen log.Traces source source') : source = source' := by
    rcases hchain.cases_head with heq | ⟨next, hnext, -⟩
    · exact heq
    · rw [Traces, hnone] at hnext
      cases hnext
  have hright : Relator.RightUnique log.Traces := fun _ _ _ h h' ↦ Option.some.inj (h.symm.trans h')
  rcases Relation.ReflTransGen.total_of_right_unique hright h.chain h'.chain with hchain | hchain
  · exact hlast h.last hchain
  · exact (hlast h'.last hchain).symm

namespace Descends

theorem acyclic (h : log.Descends rank) : log.Acyclic := by
  have hlt {object source : ObjectRef} (hchain : Relation.TransGen log.Traces object source) :
      rank source < rank object := by
    induction hchain with
    | single hstep => exact h hstep
    | tail _ hstep ih => exact (h hstep).trans ih
  exact fun object hchain ↦ lt_irrefl _ (hlt hchain)

/-- The source of an object is at the end of its chain. -/
theorem endsAt_sourceOf (h : log.Descends rank) (object : ObjectRef) :
    log.EndsAt object (log.sourceOf object) :=
  MessageLog.endsAt_sourceOf (P := fun _ ↦ True) (fun _ _ _ hsource ↦ ⟨trivial, h hsource⟩) trivial

/-! ## Adding entries -/

theorem empty : MessageLog.empty.Descends rank := fun _ _ h ↦ by cases h

theorem of_sources (h : log.Descends rank) (heq : log'.sources = log.sources) :
    log'.Descends rank :=
  fun object source hsource ↦ h (by rwa [Traces, ← heq])

theorem addSource (h : log.Descends rank) {new source : ObjectRef}
    (hlt : rank source < rank new) : (log.addSource new source).Descends rank := by
  intro object source' hsource
  unfold MessageLog.addSource at hsource
  split at hsource
  · exact h hsource
  · rw [Traces, Assoc.lookup_set] at hsource
    split at hsource
    · next heq =>
      cases hsource
      exact heq ▸ hlt
    · exact h hsource

theorem foldl {α : Type} {f : MessageLog → α → MessageLog} {l : List α}
    (hf : ∀ log, ∀ a ∈ l, log.Descends rank → (f log a).Descends rank) (h : log.Descends rank) :
    (l.foldl f log).Descends rank :=
  List.foldlRecOn (motive := fun log ↦ log.Descends rank) l f h fun log hlog a ha ↦ hf log a ha hlog

theorem addMacroNode (h : log.Descends rank) {new inst : ObjectRef} (source : ObjectRef)
    (hlt : rank inst < rank new) : (log.addMacroNode new source inst).Descends rank :=
  (h.addSource hlt).of_sources rfl

/-- A host may be above the graph that it took in. -/
theorem addRemapped (h : log.Descends rank) {host source : Graph}
    (habove : GraphAbove rank host.name source.name) (r : Remap) :
    (log.addRemapped host source r).Descends rank :=
  foldl (fun _ _ _ hlog ↦ hlog.addSource (habove.pin _ _ _ _))
    (foldl (fun _ _ _ hlog ↦ hlog.addSource (habove.node _ _)) h)

end Descends

end MessageLog

/-! ## Sources of copies -/

open VisualScript.Graph

variable {ρ : Type} [LinearOrder ρ] {rank : ObjectRef → ρ}

/-- Graphs of that name may take copies of the macros in. -/
structure Hosts (rank : ObjectRef → ρ) (macros : List Graph) (name : String) : Prop where
  node : ∀ {m n : NodeId}, m.index < n.index → rank (.node name m) < rank (.node name n)
  pin : ∀ source ∈ macros, ∀ m p n q, rank (.pin source.name m p) < rank (.pin name n q)

namespace Expansion

/-- The graph has that name, and the sources that are known so far descend. -/
structure Descends (rank : ObjectRef → ρ) (name : String) (e : Expansion) : Prop where
  name : e.graph.name = name
  log : e.log.Descends rank

/-- The graph only widens, and no source is added. -/
def Widens (e e' : Expansion) : Prop :=
  Graph.Widens e.graph e'.graph ∧ e'.log.sources = e.log.sources

namespace Widens

variable {e e' e'' : Expansion}

theorem refl (e : Expansion) : Widens e e := ⟨.refl _, rfl⟩

theorem trans (h : Widens e e') (h' : Widens e' e'') : Widens e e'' :=
  ⟨h.1.trans h'.1, h'.2.trans h.2⟩

theorem foldl {α : Type} {f : Expansion → α → Expansion} (hf : ∀ e a, Widens e (f e a))
    (l : List α) (e : Expansion) : Widens e (l.foldl f e) :=
  List.foldlRecOn (motive := fun e' ↦ Widens e e') l f (refl e) fun e' h a _ ↦ h.trans (hf e' a)

theorem descends {name : String} (h : Widens e e') (he : e.Descends rank name) :
    e'.Descends rank name :=
  ⟨h.1.name.trans he.name, he.log.of_sources h.2⟩

end Widens

theorem widens_removeNode (e : Expansion) (n : NodeId) :
    Widens e { e with graph := e.graph.removeNode n } :=
  ⟨.removeNode e.graph n, rfl⟩

theorem widens_addEmptyArray (inst : NodeId) (e : Expansion) (p : PinId) :
    Widens e (addEmptyArray inst e p) := by
  unfold addEmptyArray
  split
  · exact .refl e
  · split
    · exact .refl e
    · next pin _ _ =>
      have hplaced := (Graph.Widens.spawnIntermediate e.graph (.makeArray pin.ty.element 0)).trans
        (.placeLeftOf _ (e.graph.spawnIntermediate (.makeArray pin.ty.element 0)).1 inst)
      dsimp only
      split
      · exact ⟨hplaced, rfl⟩
      · split
        · next hlink => exact ⟨hplaced.trans (.makeLink hlink), rfl⟩
        · exact ⟨hplaced, rfl⟩

theorem widens_collapsePin (tunnel inst : NodeId) (entry : Bool) (e : Expansion) (p : PinId) :
    Widens e (collapsePin tunnel inst entry e p) := by
  unfold collapsePin
  extract_lets side
  split
  · exact .refl e
  · split
    · exact .refl e
    · split
      · exact ⟨.refl _, rfl⟩
      · next instPin _ =>
        have hwire := Graph.Widens.rewireThrough e.graph instPin p entry
        dsimp only
        split
        · exact ⟨hwire, rfl⟩
        · exact ⟨hwire, rfl⟩

theorem widens_collapseTunnel (inst : NodeId) (e : Expansion) (tunnel : NodeId) :
    Widens e (collapseTunnel inst e tunnel) := by
  unfold collapseTunnel
  split
  · exact (Widens.foldl (widens_collapsePin tunnel inst _) _ e).trans (widens_removeNode _ tunnel)
  · exact .refl e

/-! ## Copies -/

variable {macros : List Graph} {name : String}

/-- The copies get their sources if all of them are later nodes than the instance. -/
theorem Descends.recordCopies {e : Expansion} (h : e.Descends rank name)
    (hosts : Hosts rank macros name) {source : Graph} (hsource : source ∈ macros) (body : Graph)
    {inst : NodeId} {r : Remap} (hlater : ∀ n m, r.node? n = some m → inst.index < m.index) :
    (e.recordCopies source body inst r).Descends rank name ∧
      Graph.Widens e.graph (e.recordCopies source body inst r).graph := by
  unfold Expansion.recordCopies
  extract_lets instRef e'
  have hnodes : e'.Descends rank name ∧ Graph.Widens e.graph e'.graph := by
    refine List.foldlRecOn (motive := fun e' : Expansion ↦
      e'.Descends rank name ∧ Graph.Widens e.graph e'.graph) body.order _ ⟨h, .refl _⟩ ?_
    rintro e' ⟨he, hwidens⟩ old -
    split
    · exact ⟨he, hwidens⟩
    · next new hnew =>
      refine ⟨⟨he.name, he.log.addMacroNode _ ?_⟩, hwidens.trans (.modifyNode _ _ _)⟩
      have hlt := hosts.node (hlater old new hnew)
      rwa [show instRef = .node name inst from congrArg (ObjectRef.node · inst) h.name,
        Graph.nodeRef, he.name]
  refine ⟨⟨hnodes.1.name, .foldl (fun log p _ hlog ↦ hlog.addSource ?_) hnodes.1.log⟩, hnodes.2⟩
  rw [Graph.pinRef, Graph.pinRef, hnodes.1.name]
  exact hosts.pin source hsource _ _ _ _

theorem Descends.placeCopies {e : Expansion} (h : e.Descends rank name)
    (hosts : Hosts rank macros name) (source : Graph) {inst : NodeId}
    (hinst : inst.index < e.graph.nodes.size) (copies : List NodeId) (keep : Bool) :
    (e.placeCopies source inst copies keep).Descends rank name := by
  unfold Expansion.placeCopies
  split
  · have hplaced := Graph.Widens.placeSection e.grid e.graph copies ("Macro: " ++ source.name)
    have hcomment (comment : NodeId)
        (heq : (e.grid.placeSection e.graph copies ("Macro: " ++ source.name)).1 = some comment) :
        inst.index < comment.index := Nat.lt_of_lt_of_le hinst (size_le_of_placeSection heq)
    dsimp only
    refine ⟨hplaced.name.trans h.name, ?_⟩
    split
    · next comment heq =>
      refine h.log.addSource ?_
      rw [Graph.nodeRef, Graph.nodeRef, hplaced.name, h.name]
      exact hosts.node (hcomment comment heq)
    · exact h.log
  · split
    · exact h
    · exact ⟨(Graph.Widens.offsetNodes e.graph copies _ _).name.trans h.name, h.log⟩

/-! ## Instances -/

/-- Sources descend while an instance is replaced by the body of its macro. -/
theorem Descends.expandInstance {e : Expansion} (h : e.Descends rank name)
    (hosts : Hosts rank macros name) (keep : Bool) (inst : NodeId) :
    (expandInstance macros keep e inst).Descends rank name := by
  unfold Expansion.expandInstance
  split
  · next data hkind =>
    split
    · exact ((show Widens e (e.fail _ _) from ⟨.refl _, rfl⟩).trans
        (widens_removeNode _ inst)).descends h
    · next source hsource =>
      dsimp only
      refine (widens_removeNode _ inst).descends ?_
      refine (Widens.foldl (widens_collapseTunnel inst) _ _).descends ?_
      -- the instance is there before its copies are made
      have harrays : Widens e (e.addEmptyArrays inst) := .foldl (widens_addEmptyArray inst) _ e
      have hinst : inst.index < (e.addEmptyArrays inst).graph.nodes.size :=
        Nat.lt_of_lt_of_le (lt_size_of_kind? hkind) harrays.1.size_nodes
      have hmerge := Graph.Widens.mergeFragment (e.addEmptyArrays inst).graph (source.macroBody data)
      have hmerged : Widens e { e.addEmptyArrays inst with
          graph := ((e.addEmptyArrays inst).graph.mergeFragment (source.macroBody data)).2 } :=
        ⟨harrays.1.trans hmerge, harrays.2⟩
      obtain ⟨hrecorded, hwidens⟩ := (hmerged.descends h).recordCopies hosts
        (List.mem_of_find?_eq_some hsource) (source.macroBody data) fun n m hm ↦
          Nat.lt_of_lt_of_le hinst (size_le_of_remapInto hm)
      refine hrecorded.placeCopies hosts source ?_ _ keep
      exact Nat.lt_of_lt_of_le hinst (hmerge.size_nodes.trans hwidens.size_nodes)
  · exact h

theorem Descends.foldl {α : Type} {f : Expansion → α → Expansion} (l : List α)
    (hf : ∀ e a, e.Descends rank name → (f e a).Descends rank name) {e : Expansion}
    (h : e.Descends rank name) : (l.foldl f e).Descends rank name :=
  List.foldlRecOn (motive := fun e ↦ e.Descends rank name) l f h fun e he a _ ↦ hf e a he

theorem Descends.expandPasses (hosts : Hosts rank macros name) (keep : Bool) (passes : Nat)
    {e : Expansion} (h : e.Descends rank name) :
    (expandPasses macros keep passes e).Descends rank name := by
  induction passes generalizing e with
  | zero => exact h.foldl _ fun e inst he ↦ ((show Widens e (e.fail _ _) from
      ⟨.refl _, rfl⟩).trans (widens_removeNode _ inst)).descends he
  | succ passes ih =>
    unfold Expansion.expandPasses
    split
    · exact h
    · exact ih (h.foldl _ fun e inst he ↦ he.expandInstance hosts keep inst)

end Expansion

/-- Sources descend while macros are expanded. -/
theorem descends_expandMacros {macros : List Graph} {g : Graph} (hosts : Hosts rank macros g.name)
    {log : MessageLog} (h : log.Descends rank) (keep : Bool) :
    (expandMacros g macros log keep).Descends rank g.name :=
  Expansion.Descends.expandPasses hosts keep _ ⟨rfl, h⟩

end VisualScript
