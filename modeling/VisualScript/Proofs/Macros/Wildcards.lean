import VisualScript.Proofs.Macros.Descent
import VisualScript.Proofs.Macros.Leftovers

/-!
# Wildcards of copied bodies

An instance with a resolved type gives that type to every wildcard pin of its own body.  An
instance inside of the body is expanded in a later pass with the resolved type that it carries
itself, so that a copy is free of wildcards if the instance that it was made for is resolved.
-/

namespace VisualScript

/-- The instance carries a type for the wildcards of its body. -/
def MacroData.Resolves (data : MacroData) : Prop :=
  ∃ resolved, data.resolvedWildcardType = some resolved ∧ resolved.category ≠ .wildcard

namespace Graph

/-- No pin of the node is a wildcard. -/
def NoWildcards (g : Graph) (n : NodeId) : Prop :=
  ∀ p ∈ g.pinsOf n, ∀ pin, g.pin? p = some pin → pin.ty.isWildcard = false

/-- All pins that the node lists were given out, so that none of them comes to be another. -/
def ListsPast (g : Graph) (n : NodeId) : Prop := ∀ p ∈ g.pinsOf n, p.index < g.pins.size

section Steady

variable {g g' : Graph} {n : NodeId} (hsteady : Steady g g') (hn : n.index < g.nodes.size)
  (hpast : g.ListsPast n)
include hsteady hn hpast

theorem ListsPast.steady : g'.ListsPast n := fun p hp ↦
  Nat.lt_of_lt_of_le (hpast p (hsteady.pinsOf n hn p hp)) hsteady.size_pins

theorem NoWildcards.steady (h : g.NoWildcards n) : g'.NoWildcards n := by
  intro p hp pin' hpin'
  have hold := hsteady.pinsOf n hn p hp
  obtain ⟨pin, hpin, hty⟩ := hsteady.ty p pin' (hpast p hold) hpin'
  rw [hty]
  exact h p hold pin hpin

end Steady

theorem isWildcard_resolveWildcard {ty resolved : PinType} (h : resolved.category ≠ .wildcard) :
    (ty.resolveWildcard resolved).isWildcard = false :=
  decide_eq_false h

/-- In the body of a resolved instance there is no wildcard. -/
theorem isWildcard_macroBody {source : Graph} (hwf : source.WellFormed) {data : MacroData}
    (hdata : data.Resolves) {p : PinId} {pin : Pin}
    (hpin : (source.macroBody data).pin? p = some pin) : pin.ty.isWildcard = false := by
  obtain ⟨resolved, hresolved, hne⟩ := hdata
  -- the pin was on a node of the macro, so its turn has come
  have hmem : p ∈ source.order.flatMap source.pinsOf := by
    obtain ⟨ty, hty⟩ := pin?_macroBody source data p
    rw [hty] at hpin
    obtain ⟨old, hold, -⟩ := Option.map_eq_some_iff.1 hpin
    have howner := (hwf.mem_pinsOf _ p).2 (ownerOf?_of_pin? hold)
    exact List.mem_flatMap.2 ⟨old.owner, hwf.owner_mem_order hold, howner⟩
  unfold macroBody resolveWildcards at hpin
  rw [hresolved] at hpin
  refine foldl_of_mem (P := fun g : Graph ↦ ∀ pin, g.pin? p = some pin → pin.ty.isWildcard = false)
    hmem (fun g pin hpin ↦ ?_) (fun g q _ h pin hpin ↦ ?_) _ pin hpin
  · rw [pin?_modifyPin, if_pos rfl] at hpin
    obtain ⟨old, -, rfl⟩ := Option.map_eq_some_iff.1 hpin
    split
    · exact isWildcard_resolveWildcard hne
    · next hnot => exact Bool.eq_false_iff.2 hnot
  · rw [pin?_modifyPin] at hpin
    split at hpin
    · obtain ⟨old, -, rfl⟩ := Option.map_eq_some_iff.1 hpin
      split
      · exact isWildcard_resolveWildcard hne
      · next hnot => exact Bool.eq_false_iff.2 hnot
    · exact h pin hpin

/-- The pins of a copy are those of the body, renamed. -/
theorem pin?_of_copy {host body : Graph} (hbody : body.WellFormed) {copy : NodeId}
    (hcopy : host.nodes.size ≤ copy.index) {p : PinId}
    (hp : p ∈ (host.mergeFragment body).2.pinsOf copy) :
    ∃ q pin, body.pin? q = some pin ∧
      (host.mergeFragment body).2.pin? p = mergedPin host body q := by
  rcases (mem_pinsOf_mergeFragment hbody).1 hp with hhost | ⟨i, j, node, q, -, hq, -, rfl, -⟩
  · have hnone : host.node? copy = none := Slots.get?_eq_none_of_size_le hcopy
    rw [Graph.pinsOf, hnone] at hhost
    cases hhost
  · obtain ⟨-, -, pin, hpin, -⟩ := isSome_pin?_of_livePins hbody (List.mem_of_getElem? hq)
    refine ⟨q, pin, hpin, ?_⟩
    rw [pin?_mergeFragment host hbody, if_neg (Nat.not_lt.2 (Nat.le_add_right _ _)),
      Nat.add_sub_cancel_left, hq]
    rfl

theorem listsPast_mergeFragment {host body : Graph} (hbody : body.WellFormed) {copy : NodeId}
    (hcopy : host.nodes.size ≤ copy.index) : (host.mergeFragment body).2.ListsPast copy := by
  intro p hp
  obtain ⟨q, pin, hpin, hmerged⟩ := pin?_of_copy hbody hcopy hp
  rw [mergedPin, hpin] at hmerged
  exact lt_of_pin?_eq_some hmerged

/-- A copy has the types of the body. -/
theorem noWildcards_mergeFragment {host body : Graph} (hbody : body.WellFormed)
    (hclean : ∀ p pin, body.pin? p = some pin → pin.ty.isWildcard = false) {copy : NodeId}
    (hcopy : host.nodes.size ≤ copy.index) : (host.mergeFragment body).2.NoWildcards copy := by
  intro p hp pin hpin
  obtain ⟨q, pin', hpin', hmerged⟩ := pin?_of_copy hbody hcopy hp
  rw [mergedPin, hpin', hpin] at hmerged
  obtain rfl := Option.some.inj hmerged
  exact hclean q pin' hpin'

/-- The comment box around a section has no pins. -/
theorem pinsOf_placeSection {grid : SpawnGrid} {g : Graph} {ids : List NodeId} {label : String}
    {comment : NodeId} (h : (grid.placeSection g ids label).1 = some comment) :
    comment.index < (grid.placeSection g ids label).2.2.nodes.size ∧
      ∀ p, p ∉ (grid.placeSection g ids label).2.2.pinsOf comment := by
  unfold SpawnGrid.placeSection at h ⊢
  split at h
  · cases h
  · next b hb =>
    cases h
    dsimp only
    generalize g.offsetNodes ids _ _ = g₁
    have hspawned := spawned_spawnIntermediate g₁ (.comment label)
    have hlt : g₁.nodes.size < (g₁.spawnIntermediate (.comment label)).2.nodes.size := by
      rw [hspawned.nodes_size]
      exact Nat.lt_succ_self _
    refine ⟨Nat.lt_of_lt_of_eq hlt (Slots.size_modify _ _ _).symm, fun p hp ↦ ?_⟩
    have hold : p ∈ (g₁.spawnIntermediate (.comment label)).2.pinsOf ⟨g₁.nodes.size⟩ :=
      (Ages.setPosition _ _ _ _).pinsOf _ hlt p hp
    rw [hspawned.pinsOf] at hold
    cases hold

end Graph

namespace MessageLog

variable {log : MessageLog} {new source object object' : ObjectRef}

/-- An entry is an old one or the one that was added. -/
theorem traces_addSource (h : (log.addSource new source).Traces object object') :
    log.Traces object object' ∨ object = new ∧ object' = source := by
  unfold addSource at h
  split at h
  · exact .inl h
  · rw [Traces, Assoc.lookup_set] at h
    split at h
    · next heq => exact .inr ⟨heq, (Option.some.inj h).symm⟩
    · exact .inl h

theorem lookup_addSource (log : MessageLog) {new source : ObjectRef} (hne : new ≠ source)
    (object : ObjectRef) : (log.addSource new source).sources.lookup object =
      if object = new then some source else log.sources.lookup object := by
  rw [addSource, if_neg hne, Assoc.lookup_set]

theorem macroSourceOf?_addSource (log : MessageLog) (new source object : ObjectRef) :
    (log.addSource new source).macroSourceOf? object = log.macroSourceOf? object := by
  unfold addSource
  split <;> rfl

theorem macroInstancesOf_addSource (log : MessageLog) (new source object : ObjectRef) :
    (log.addSource new source).macroInstancesOf object = log.macroInstancesOf object := by
  unfold addSource
  split <;> rfl

theorem traces_addMacroNode {inst : ObjectRef}
    (h : (log.addMacroNode new source inst).Traces object object') :
    log.Traces object object' ∨ object = new ∧ object' = inst :=
  traces_addSource h

theorem macroSourceOf?_addMacroNode (log : MessageLog) (new source inst object : ObjectRef) :
    (log.addMacroNode new source inst).macroSourceOf? object =
      if object = new then some source else log.macroSourceOf? object := by
  refine (Assoc.lookup_set _ _ _ _).trans ?_
  split
  · rfl
  · exact macroSourceOf?_addSource log new inst object

theorem mem_macroInstancesOf_addMacroNode {inst inst' : ObjectRef} :
    inst' ∈ (log.addMacroNode new source inst).macroInstancesOf object ↔
      inst' ∈ log.macroInstancesOf object ∨ inst' = inst ∧ object = source := by
  have hlisted : (log.addMacroNode new source inst).macroInstancesOf object =
      if object = source then
        if inst ∈ log.macroInstancesOf source then log.macroInstancesOf source
        else log.macroInstancesOf source ++ [inst]
      else log.macroInstancesOf object := by
    have hsame := macroInstancesOf_addSource log new inst
    simp only [macroInstancesOf] at hsame ⊢
    rw [addMacroNode, Assoc.lookup_update, hsame]
    split
    · rfl
    · exact hsame object
  rw [hlisted]
  split
  · next heq =>
    subst heq
    split
    · next hmem => exact ⟨.inl, fun h ↦ h.elim id fun h ↦ h.1 ▸ hmem⟩
    · simp
  · next hne => simp [hne]

end MessageLog

namespace Expansion

open VisualScript.Graph

/-! ## What the tables say of a turn -/

/-- The tables hold what they held.  So it is when arrays are added and when tunnels are
collapsed. -/
structure SameTables (log log' : MessageLog) : Prop where
  sources : log'.sources = log.sources
  macroSources : log'.macroSources = log.macroSources
  macroInstances : log'.macroInstances = log.macroInstances

theorem SameTables.refl (log : MessageLog) : SameTables log log := ⟨rfl, rfl, rfl⟩

theorem SameTables.foldl {α : Type} {f : Expansion → α → Expansion}
    (hf : ∀ e a, SameTables e.log (f e a).log) (l : List α) (e : Expansion) :
    SameTables e.log (l.foldl f e).log := by
  refine List.foldlRecOn (motive := fun e' : Expansion ↦ SameTables e.log e'.log) l f (.refl _)
    fun e' h a _ ↦ ?_
  have hstep := hf e' a
  exact ⟨hstep.sources.trans h.sources, hstep.macroSources.trans h.macroSources,
    hstep.macroInstances.trans h.macroInstances⟩

theorem sameTables_addEmptyArray (inst : NodeId) (e : Expansion) (p : PinId) :
    SameTables e.log (addEmptyArray inst e p).log := by
  unfold addEmptyArray
  split
  · exact .refl _
  · split
    · exact .refl _
    · dsimp only
      split
      · exact .refl _
      · split <;> exact ⟨rfl, rfl, rfl⟩

theorem sameTables_addEmptyArrays (e : Expansion) (inst : NodeId) :
    SameTables e.log (e.addEmptyArrays inst).log :=
  .foldl (sameTables_addEmptyArray inst) _ e

theorem sameTables_collapsePin (tunnel inst : NodeId) (entry : Bool) (e : Expansion) (p : PinId) :
    SameTables e.log (collapsePin tunnel inst entry e p).log := by
  unfold collapsePin
  extract_lets side
  split
  · exact .refl _
  · split
    · exact .refl _
    · split
      · exact ⟨rfl, rfl, rfl⟩
      · dsimp only
        split <;> exact ⟨rfl, rfl, rfl⟩

theorem sameTables_collapseTunnel (inst : NodeId) (e : Expansion) (tunnel : NodeId) :
    SameTables e.log (collapseTunnel inst e tunnel).log := by
  unfold collapseTunnel
  split
  · exact .foldl (sameTables_collapsePin tunnel inst _) _ e
  · exact .refl _

/-- The tables lead from the node to the instance that it was made for, and from the node of the
macro that it copies there too. -/
structure Entered (name : String) (source : Graph) (inst old new : NodeId) (log : MessageLog) :
    Prop where
  traces : log.Traces (.node name new) (.node name inst)
  macroSource : log.macroSourceOf? (.node name new) = some (source.nodeRef old)
  instances : .node name inst ∈ log.macroInstancesOf (source.nodeRef old)

/-- The tables got entries that lead from nodes that were made to the instance, among them those
of the copies of the nodes `olds`. -/
structure Noted (name : String) (source : Graph) (inst : NodeId) (r : Remap) (made : NodeId → Prop)
    (olds : List NodeId) (log log' : MessageLog) : Prop where
  traces : ∀ object n, log'.Traces object (.node name n) → log.Traces object (.node name n) ∨
    n = inst ∧ ∃ m, made m ∧ object = .node name m
  copied : ∀ old ∈ olds, ∀ new, r.node? old = some new → Entered name source inst old new log'
  unsourced : ∀ n, ¬made n → log'.sources.lookup (.node name n) = log.sources.lookup (.node name n)
  others : ∀ n, ¬made n → log'.macroSourceOf? (.node name n) = log.macroSourceOf? (.node name n)
  listed : ∀ object, log.macroInstancesOf object ⊆ log'.macroInstancesOf object

namespace Noted

variable {name : String} {source : Graph} {inst old new : NodeId} {r : Remap} {made : NodeId → Prop}
  {olds : List NodeId} {log log' : MessageLog}

theorem refl (log : MessageLog) : Noted name source inst r made [] log log :=
  ⟨fun _ _ ↦ .inl, fun _ h ↦ absurd h List.not_mem_nil, fun _ _ ↦ rfl, fun _ _ ↦ rfl,
    fun _ ↦ List.Subset.refl _⟩

variable (h : Noted name source inst r made olds log log')
include h

theorem of_sameTables {log₀ : MessageLog} (htables : SameTables log₀ log) :
    Noted name source inst r made olds log₀ log' where
  traces object n hn := by
    rw [MessageLog.Traces, ← htables.sources]
    exact h.traces object n hn
  copied := h.copied
  unsourced n hn := (h.unsourced n hn).trans (by rw [htables.sources])
  others n hn := (h.others n hn).trans
    (by rw [MessageLog.macroSourceOf?, htables.macroSources, MessageLog.macroSourceOf?])
  listed object := by
    rw [MessageLog.macroInstancesOf, ← htables.macroInstances]
    exact h.listed object

theorem addMacroNode (hinst : ¬made inst) (hmade : made new) (hnew : r.node? old = some new)
    (hinj : ∀ n ∈ olds, r.node? n = some new → n = old) :
    Noted name source inst r made (olds ++ [old]) log
      (log'.addMacroNode (.node name new) (source.nodeRef old) (.node name inst)) := by
  have hne : ObjectRef.node name new ≠ .node name inst := by
    intro heq
    obtain rfl := (ObjectRef.node.inj heq).2
    exact hinst hmade
  have hothers (n : NodeId) (hn : ¬made n) : ObjectRef.node name n ≠ .node name new := by
    intro heq
    obtain rfl := (ObjectRef.node.inj heq).2
    exact hn hmade
  refine ⟨fun object n hn ↦ ?_, fun n hn m hm ↦ ?_, fun n hn ↦ ?_, fun n hn ↦ ?_,
    fun object i hi ↦ MessageLog.mem_macroInstancesOf_addMacroNode.2 (.inl (h.listed object hi))⟩
  · rcases MessageLog.traces_addMacroNode hn with hn | ⟨rfl, hinst⟩
    · exact h.traces object n hn
    · exact .inr ⟨(ObjectRef.node.inj hinst).2, new, hmade, rfl⟩
  · by_cases heq : m = new
    · obtain rfl : n = old := by
        rcases List.mem_append.1 hn with hn | hn
        · exact hinj n hn (heq ▸ hm)
        · exact List.mem_singleton.1 hn
      subst heq
      refine ⟨?_, ?_, MessageLog.mem_macroInstancesOf_addMacroNode.2 (.inr ⟨rfl, rfl⟩)⟩
      · exact (MessageLog.lookup_addSource log' hne _).trans (if_pos rfl)
      · exact (MessageLog.macroSourceOf?_addMacroNode log' _ _ _ _).trans (if_pos rfl)
    · have hmem : n ∈ olds := by
        refine (List.mem_append.1 hn).resolve_right fun hlast ↦ heq ?_
        obtain rfl := List.mem_singleton.1 hlast
        exact Option.some.inj (hm.symm.trans hnew)
      have hold := h.copied n hmem m hm
      have hne' : ObjectRef.node name m ≠ .node name new := fun h ↦ heq (ObjectRef.node.inj h).2
      refine ⟨?_, ?_, MessageLog.mem_macroInstancesOf_addMacroNode.2 (.inl hold.instances)⟩
      · exact (MessageLog.lookup_addSource log' hne _).trans ((if_neg hne').trans hold.traces)
      · exact (MessageLog.macroSourceOf?_addMacroNode log' _ _ _ _).trans
          ((if_neg hne').trans hold.macroSource)
  · exact (MessageLog.lookup_addSource log' hne _).trans
      ((if_neg (hothers n hn)).trans (h.unsourced n hn))
  · rw [MessageLog.macroSourceOf?_addMacroNode, if_neg (hothers n hn), h.others n hn]

theorem skip (hnone : r.node? old = none) :
    Noted name source inst r made (olds ++ [old]) log log' :=
  { h with
    copied := by
      intro n hn m hm
      rcases List.mem_append.1 hn with hn | hn
      · exact h.copied n hn m hm
      · rw [List.mem_singleton.1 hn, hnone] at hm
        cases hm }

/-- The tables get an entry for an object that is no node, or for one that was made. -/
theorem addSource (hinst : ¬made inst) {object source' : ObjectRef}
    (hobject : (∀ n, object ≠ .node name n ∧ source' ≠ .node name n) ∨
      ∃ m, made m ∧ object = .node name m ∧ source' = .node name inst) :
    Noted name source inst r made olds log (log'.addSource object source') := by
  have hlookup (n : NodeId) : (log'.addSource object source').sources.lookup (.node name n) =
      log'.sources.lookup (.node name n) ∨ made n ∧
        (log'.addSource object source').sources.lookup (.node name n) = some (.node name inst) := by
    rcases hobject with hother | ⟨m, hmade, rfl, rfl⟩
    · unfold MessageLog.addSource
      split
      · exact .inl rfl
      · exact .inl ((Assoc.lookup_set _ _ _ _).trans (if_neg (hother n).1.symm))
    · have hne : ObjectRef.node name m ≠ .node name inst := by
        intro heq
        obtain rfl := (ObjectRef.node.inj heq).2
        exact hinst hmade
      rw [MessageLog.lookup_addSource log' hne]
      split
      · next heq => exact .inr ⟨(ObjectRef.node.inj heq).2 ▸ hmade, rfl⟩
      · exact .inl rfl
  refine ⟨fun object' n hn ↦ ?_, fun n hn m hm ↦ ?_, fun n hn ↦ ?_, fun n hn ↦ ?_,
    fun s i hi ↦ (MessageLog.macroInstancesOf_addSource _ _ _ s).symm ▸ h.listed s hi⟩
  · rcases MessageLog.traces_addSource hn with hn | ⟨rfl, rfl⟩
    · exact h.traces object' n hn
    · rcases hobject with hother | ⟨m, hmade, rfl, hsource⟩
      · exact absurd rfl (hother n).2
      · exact .inr ⟨(ObjectRef.node.inj hsource).2, m, hmade, rfl⟩
  · have hold := h.copied n hn m hm
    refine ⟨?_, (MessageLog.macroSourceOf?_addSource _ _ _ _).trans hold.macroSource,
      (MessageLog.macroInstancesOf_addSource _ _ _ _).symm ▸ hold.instances⟩
    rcases hlookup m with hsame | ⟨-, hnew⟩
    · exact hsame.trans hold.traces
    · exact hnew
  · exact ((hlookup n).resolve_right fun hnew ↦ hn hnew.1).trans (h.unsourced n hn)
  · exact (MessageLog.macroSourceOf?_addSource _ _ _ _).trans (h.others n hn)

end Noted

section Recording

variable {e : Expansion} {name : String} {source body : Graph} {inst : NodeId} {r : Remap}
  {made : NodeId → Prop}

theorem noted_recordNodes (hname : e.graph.name = name) (hinst : ¬made inst) {olds : List NodeId}
    (hinj : ∀ m ∈ olds, ∀ n ∈ olds, r.node? m = r.node? n → m = n)
    (hmade : ∀ old ∈ olds, ∀ new, r.node? old = some new → made new) :
    let e' := olds.foldl (fun e' old ↦ match r.node? old with
      | none => e'
      | some new => { e' with
          log := e'.log.addMacroNode (e'.graph.nodeRef new) (source.nodeRef old) (e.graph.nodeRef inst)
          graph := e'.graph.modifyNode new fun n ↦ { n with isIntermediate := true } }) e
    Noted name source inst r made olds e.log e'.log ∧ e'.graph.name = name := by
  induction olds using List.reverseRecOn with
  | nil => exact ⟨.refl _, hname⟩
  | append_singleton olds old ih =>
    obtain ⟨hnoted, hname'⟩ := ih
      (fun m hm n hn ↦ hinj m (List.mem_append_left _ hm) n (List.mem_append_left _ hn))
      (fun m hm ↦ hmade m (List.mem_append_left _ hm))
    have hlast : old ∈ olds ++ [old] := List.mem_append_right _ (List.mem_singleton.2 rfl)
    intro e'
    dsimp only [e']
    rw [List.foldl_append, List.foldl_cons, List.foldl_nil]
    generalize olds.foldl _ e = e₁ at *
    split
    · next hnone => exact ⟨hnoted.skip hnone, hname'⟩
    · next new hnew =>
      simp only [Graph.nodeRef, hname, hname']
      refine ⟨hnoted.addMacroNode hinst (hmade old hlast new hnew) hnew fun n hn hnew' ↦ ?_, hname'⟩
      exact hinj n (List.mem_append_left _ hn) old hlast (hnew'.trans hnew.symm)

theorem noted_recordCopies (hname : e.graph.name = name) (hinst : ¬made inst)
    (hinj : ∀ m ∈ body.order, ∀ n ∈ body.order, r.node? m = r.node? n → m = n)
    (hmade : ∀ old ∈ body.order, ∀ new, r.node? old = some new → made new) :
    Noted name source inst r made body.order e.log (e.recordCopies source body inst r).log := by
  unfold recordCopies
  extract_lets instRef e'
  have hnodes : Noted name source inst r made body.order e.log e'.log :=
    (noted_recordNodes hname hinst hinj hmade).1
  exact List.foldlRecOn (motive := Noted name source inst r made body.order e.log) r.pins _ hnodes
    fun log h p _ ↦ h.addSource hinst (.inl fun n ↦ ⟨ObjectRef.noConfusion, ObjectRef.noConfusion⟩)

theorem noted_placeCopies {olds copies : List NodeId} {log : MessageLog} {keep : Bool}
    (h : Noted name source inst r made olds log e.log) (hname : e.graph.name = name)
    (hinst : ¬made inst) (hmade : ∀ comment, keep = true →
      (e.grid.placeSection e.graph copies ("Macro: " ++ source.name)).1 = some comment →
        made comment) :
    Noted name source inst r made olds log (e.placeCopies source inst copies keep).log := by
  unfold placeCopies
  split
  · next hkeep =>
    have hplaced := Graph.Widens.placeSection e.grid e.graph copies ("Macro: " ++ source.name)
    dsimp only
    split
    · next comment heq =>
      rw [Graph.nodeRef, Graph.nodeRef, hplaced.name, hname]
      exact h.addSource hinst (.inr ⟨comment, hmade comment hkeep heq, rfl, rfl⟩)
    · exact h
  · split
    · exact h
    · exact h

/-- The node was made in the turn.  It is free of wildcards if the instance is resolved. -/
structure MadeFor (data : MacroData) (g g' : Graph) (n : NodeId) : Prop where
  size_le : g.nodes.size ≤ n.index
  lt_size : n.index < g'.nodes.size
  past : g'.ListsPast n
  noWildcards : data.Resolves → g'.NoWildcards n

/-- What was made before `g` and stays as it is after `g'` was made then. -/
theorem MadeFor.steady {data : MacroData} {g₀ g g' g₁ : Graph} {n : NodeId}
    (h : MadeFor data g g' n) (hle : g₀.nodes.size ≤ g.nodes.size) (hsteady : Steady g' g₁) :
    MadeFor data g₀ g₁ n where
  size_le := hle.trans h.size_le
  lt_size := Nat.lt_of_lt_of_le h.lt_size hsteady.size_nodes
  past := h.past.steady hsteady h.lt_size
  noWildcards hresolves := (h.noWildcards hresolves).steady hsteady h.lt_size h.past

theorem steady_sectioned (e : Expansion) (hbody : body.WellFormed) (source : Graph)
    (inst : NodeId) (keep : Bool) : Steady e.graph (e.sectioned source body inst keep).graph :=
  ((ages_addEmptyArrays e inst).toSteady.trans (.mergeFragment _ hbody)).trans
    (ages_sectioned e source body inst keep).toSteady

theorem madeFor_copy (hsource : source.WellFormed) {data : MacroData} (keep : Bool)
    {old new : NodeId} (hold : old ∈ (source.macroBody data).order)
    (hnew : (remapInto (e.addEmptyArrays inst).graph (source.macroBody data)).node? old = some new) :
    MadeFor data e.graph (e.sectioned source (source.macroBody data) inst keep).graph new := by
  have hbody := hsource.macroBody data
  obtain ⟨node, hnode⟩ := Option.isSome_iff_exists.1 ((hbody.mem_order old).1 hold)
  obtain ⟨new', hnew', hle, hcopy⟩ :=
    node?_mergeFragment_body (e.addEmptyArrays inst).graph hbody hnode
  obtain rfl := Option.some.inj (hnew.symm.trans hnew')
  have hmerged : MadeFor data (e.addEmptyArrays inst).graph
      ((e.addEmptyArrays inst).graph.mergeFragment (source.macroBody data)).2 new :=
    ⟨hle, lt_of_isSome_node? (by rw [hcopy]; rfl), listsPast_mergeFragment hbody hle,
      fun hresolves ↦ noWildcards_mergeFragment hbody
        (fun _ _ ↦ isWildcard_macroBody hsource hresolves) hle⟩
  exact hmerged.steady (ages_addEmptyArrays e inst).size_nodes
    (ages_sectioned e source (source.macroBody data) inst keep).toSteady

/-- What the tables say of a body that was laid beside the instance. -/
theorem noted_sectioned (hsource : source.WellFormed) (data : MacroData)
    (hlt : inst.index < e.graph.nodes.size) (keep : Bool) :
    let u := e.sectioned source (source.macroBody data) inst keep
    Noted e.graph.name source inst (remapInto (e.addEmptyArrays inst).graph (source.macroBody data))
      (MadeFor data e.graph u.graph) (source.macroBody data).order e.log u.log := by
  intro u
  have hbody := hsource.macroBody data
  have harrays := ages_addEmptyArrays e inst
  have hinst : ¬MadeFor data e.graph u.graph inst := fun h ↦ absurd hlt (Nat.not_lt.2 h.size_le)
  let merged : Expansion := { e.addEmptyArrays inst with
    graph := ((e.addEmptyArrays inst).graph.mergeFragment (source.macroBody data)).2 }
  have hmerge := Graph.Widens.mergeFragment (e.addEmptyArrays inst).graph (source.macroBody data)
  have hrecorded := ages_recordCopies merged source (source.macroBody data) inst
    (remapInto (e.addEmptyArrays inst).graph (source.macroBody data))
  have hcopies : Noted e.graph.name source inst
      (remapInto (e.addEmptyArrays inst).graph (source.macroBody data))
      (MadeFor data e.graph u.graph) (source.macroBody data).order merged.log
      (merged.recordCopies source (source.macroBody data) inst
        (remapInto (e.addEmptyArrays inst).graph (source.macroBody data))).log :=
    noted_recordCopies harrays.name hinst
      (fun m hm n hn ↦ node?_remapInto_inj (e.addEmptyArrays inst).graph hbody hm hn)
      (fun old hold new hnew ↦ madeFor_copy hsource keep hold hnew)
  refine noted_placeCopies (hcopies.of_sameTables (sameTables_addEmptyArrays e inst))
    (hrecorded.name.trans harrays.name) hinst ?_
  rintro comment rfl hcomment
  obtain ⟨hlt, hnone⟩ := pinsOf_placeSection hcomment
  refine ⟨?_, hlt, fun p hp ↦ absurd hp (hnone p), fun _ p hp ↦ absurd hp (hnone p)⟩
  refine (harrays.size_nodes.trans hmerge.size_nodes).trans ?_
  exact hrecorded.size_nodes.trans (size_le_of_placeSection hcomment)

end Recording

/-! ## Instances and where they come from -/

/-- What a node is in the host, or in the macro that it was copied from. -/
def originKind? (host : Graph) (macros : List Graph) (log : MessageLog) (n : NodeId) :
    Option NodeKind :=
  match host.kind? n with
  | some kind => some kind
  | none => match log.macroSourceOf? (host.nodeRef n) with
    | some (.node name old) => (macros.find? (·.name == name)).bind (·.kind? old)
    | _ => none

/-- Instances are known by the tables, and what the tables trace to one of them was traced to it
before or is a node that was made for it. -/
structure Tracked (host : Graph) (macros : List Graph) (log : MessageLog) (e : Expansion) : Prop where
  widens : Graph.Widens host e.graph
  origin : ∀ n data, e.graph.kind? n = some (.macroInstance data) →
    originKind? host macros e.log n = some (.macroInstance data)
  traces : ∀ object n, e.log.Traces object (host.nodeRef n) → log.Traces object (host.nodeRef n) ∨
    n.index < e.graph.nodes.size ∧ ∃ copy data, object = host.nodeRef copy ∧
      originKind? host macros e.log n = some (.macroInstance data) ∧
      MadeFor data host e.graph copy

namespace Tracked

variable {host : Graph} {macros : List Graph} {log : MessageLog} {e e' : Expansion}

theorem refl (host : Graph) (macros : List Graph) (log : MessageLog) :
    Tracked host macros log { graph := host, log } where
  widens := .refl host
  origin n data hn := by
    rw [originKind?, hn]
  traces _ _ := .inl

theorem step (h : Tracked host macros log e) (hsteady : Steady e.graph e'.graph)
    (hothers : ∀ n : NodeId, n.index < e.graph.nodes.size →
      e'.log.macroSourceOf? (host.nodeRef n) = e.log.macroSourceOf? (host.nodeRef n))
    (horigin : ∀ n data, e'.graph.kind? n = some (.macroInstance data) →
      e.graph.kind? n = some (.macroInstance data) ∨
        originKind? host macros e'.log n = some (.macroInstance data))
    (htraces : ∀ object n, e'.log.Traces object (host.nodeRef n) →
      e.log.Traces object (host.nodeRef n) ∨ ∃ copy data, object = host.nodeRef copy ∧
        e.graph.kind? n = some (.macroInstance data) ∧ MadeFor data e.graph e'.graph copy) :
    Tracked host macros log e' := by
  have hkept {n : NodeId} (hn : n.index < e.graph.nodes.size) :
      originKind? host macros e'.log n = originKind? host macros e.log n := by
    rw [originKind?, hothers n hn, originKind?]
  refine ⟨h.widens.trans hsteady.toWidens, fun n data hn ↦ ?_, fun object n hn ↦ ?_⟩
  · rcases horigin n data hn with hold | hnew
    · exact (hkept (lt_size_of_kind? hold)).trans (h.origin n data hold)
    · exact hnew
  · rcases htraces object n hn with hold | ⟨copy, data, rfl, hkind, hmade⟩
    · refine (h.traces object n hold).imp_right fun ⟨hlt, copy, data, heq, hkind, hmade⟩ ↦ ?_
      exact ⟨Nat.lt_of_lt_of_le hlt hsteady.size_nodes, copy, data, heq, (hkept hlt).trans hkind,
        hmade.steady (Nat.le_refl _) hsteady⟩
    · have hlt := lt_size_of_kind? hkind
      exact .inr ⟨Nat.lt_of_lt_of_le hlt hsteady.size_nodes, copy, data, rfl,
        (hkept hlt).trans (h.origin n data hkind), hmade.steady h.widens.size_nodes (.refl _)⟩

/-- An instance is given up. -/
theorem drop (h : Tracked host macros log e) (text : String) (tokens : List SourceToken)
    (inst : NodeId) :
    Tracked host macros log { e.fail text tokens with graph := e.graph.removeNode inst } := by
  have hages := Ages.removeNode e.graph inst
  refine h.step hages.toSteady (fun _ _ ↦ rfl) (fun n data hn ↦ ?_) (fun _ _ ↦ .inl)
  exact .inl (hages.replaced rfl hn)

section Turn

variable {inst : NodeId} {data : MacroData} {source : Graph} {keep : Bool}

/-- The copies of nested instances are known by the tables. -/
theorem originKind?_copy (hwidens : Graph.Widens host e.graph) (hsource : source.WellFormed)
    (hfind : macros.find? (·.name == data.macroGraph) = some source)
    {made : NodeId → Prop} {log₀ : MessageLog}
    (hnoted : Noted host.name source inst (remapInto (e.addEmptyArrays inst).graph
      (source.macroBody data)) made (source.macroBody data).order log₀ log)
    {n old : NodeId} {kind : NodeKind} (hkind : source.kind? old = some kind)
    (hname : (remapInto (e.addEmptyArrays inst).graph (source.macroBody data)).node? old = some n) :
    originKind? host macros log n = some kind := by
  have hbody := hsource.macroBody data
  have hmem := hbody.mem_order_of_kind? ((kind?_macroBody source data old).trans hkind)
  have hle : host.nodes.size ≤ n.index :=
    (hwidens.size_nodes.trans (ages_addEmptyArrays e inst).size_nodes).trans (size_le_of_remapInto hname)
  have hfresh : host.kind? n = none := by
    cases hn : host.kind? n with
    | none => rfl
    | some kind => exact absurd (lt_size_of_kind? hn) (Nat.not_lt.2 hle)
  have hentry : log.macroSourceOf? (host.nodeRef n) = some (.node source.name old) :=
    (hnoted.copied old hmem n hname).macroSource
  have hsame : source.name = data.macroGraph := by
    have h := List.find?_some hfind
    exact eq_of_beq h
  rw [originKind?, hfresh, hentry]
  dsimp only
  rw [hsame, hfind, Option.bind_some, hkind]

theorem expandSource (h : Tracked host macros log e) (hmacros : ∀ g ∈ macros, g.WellFormed)
    (hinst : e.graph.kind? inst = some (.macroInstance data))
    (hfind : macros.find? (·.name == data.macroGraph) = some source) :
    Tracked host macros log (expandInstance macros keep e inst) := by
  have hsource := hmacros source (List.mem_of_find?_eq_some hfind)
  have hbody := hsource.macroBody data
  have hlaid := steady_sectioned e hbody source inst keep
  have hnoted := noted_sectioned hsource data (lt_size_of_kind? hinst) keep
  have hkinds (n : NodeId) (kind : NodeKind)
      (hn : (expandInstance macros keep e inst).graph.kind? n = some kind) :=
    kind?_expandInstance hmacros hn
  rw [expandInstance_eq_sectioned hinst hfind] at hkinds ⊢
  rw [h.widens.name] at hnoted
  dsimp only at *
  generalize e.sectioned source (source.macroBody data) inst keep = u at *
  have htables := SameTables.foldl (sameTables_collapseTunnel inst)
    (copiedTunnels (e.addEmptyArrays inst).graph (source.macroBody data) u.graph) u
  have hcollapsed := ages_foldl (ages_collapseTunnel inst)
    (copiedTunnels (e.addEmptyArrays inst).graph (source.macroBody data) u.graph) u
  generalize List.foldl _ u _ = e₁ at *
  have hrest : Steady u.graph (e₁.graph.removeNode inst) :=
    (hcollapsed.trans (.removeNode e₁.graph inst)).toSteady
  have hsources (n : NodeId) :
      e₁.log.macroSourceOf? (host.nodeRef n) = u.log.macroSourceOf? (host.nodeRef n) := by
    rw [MessageLog.macroSourceOf?, htables.macroSources, MessageLog.macroSourceOf?]
  refine h.step (hlaid.trans hrest) (fun n hn ↦ (hsources n).trans ?_) (fun n data' hn ↦ ?_)
    fun object n hn ↦ ?_
  · exact hnoted.others n fun hmade ↦ absurd hn (Nat.not_lt.2 hmade.size_le)
  · refine (hkinds n _ hn).2.imp_right fun ⟨_, hcopied⟩ ↦ ?_
    obtain ⟨-, data₁, source₁, old, hcopy⟩ := hcopied rfl
    have hdata := hcopy.instance?
    rw [hinst] at hdata
    cases hdata
    obtain rfl := Option.some.inj (hfind.symm.trans hcopy.source?)
    rw [originKind?, hsources n, ← originKind?]
    exact originKind?_copy h.widens hsource hfind hnoted hcopy.kind? hcopy.name?
  · rw [MessageLog.Traces, htables.sources] at hn
    refine (hnoted.traces object n hn).imp_right ?_
    rintro ⟨rfl, copy, hmade, rfl⟩
    exact ⟨copy, data, rfl, hinst, hmade.steady (Nat.le_refl _) hrest⟩

theorem expandInstance (h : Tracked host macros log e) (hmacros : ∀ g ∈ macros, g.WellFormed)
    (keep : Bool) (inst : NodeId) : Tracked host macros log (expandInstance macros keep e inst) := by
  cases hkind : e.graph.kind? inst with
  | none =>
    unfold Expansion.expandInstance
    rw [hkind]
    exact h
  | some kind =>
    cases kind with
    | macroInstance data =>
      cases hfind : macros.find? (·.name == data.macroGraph) with
      | none =>
        unfold Expansion.expandInstance
        rw [hkind]
        dsimp only
        rw [hfind]
        exact h.drop _ _ inst
      | some source => exact h.expandSource hmacros hkind hfind
    | _ =>
      unfold Expansion.expandInstance
      rw [hkind]
      exact h

end Turn

theorem foldl {f : Expansion → NodeId → Expansion}
    (hf : ∀ e inst, Tracked host macros log e → Tracked host macros log (f e inst))
    (h : Tracked host macros log e) (insts : List NodeId) :
    Tracked host macros log (insts.foldl f e) :=
  List.foldlRecOn (motive := Tracked host macros log) insts f h fun e he inst _ ↦ hf e inst he

theorem expandPasses (h : Tracked host macros log e) (hmacros : ∀ g ∈ macros, g.WellFormed)
    (keep : Bool) (passes : Nat) :
    Tracked host macros log (expandPasses macros keep passes e) := by
  induction passes generalizing e with
  | zero => exact h.foldl (fun e inst he ↦ he.drop _ _ inst) _
  | succ passes ih =>
    unfold Expansion.expandPasses
    split
    · exact h
    · exact ih (h.foldl (fun e inst he ↦ he.expandInstance hmacros keep inst) _)

end Tracked

end Expansion

/-- The later table has the entry, and the earlier one has not. -/
def MessageLog.TracesSince (before after : MessageLog) (object source : ObjectRef) : Prop :=
  after.Traces object source ∧ ¬before.Traces object source

open Expansion Relation in
/-- A node that the expansion of all macros traces to a resolved instance has no wildcard pin, or
it was made for an instance inside of the body that carries no resolved type itself.  The host and
what the tables hold before may be anything. -/
theorem noWildcards_expandMacros (host : Graph) {macros : List Graph}
    (hmacros : ∀ g ∈ macros, g.WellFormed) (log : MessageLog) {inst : NodeId} {data : MacroData}
    (hinst : host.kind? inst = some (.macroInstance data)) (hresolves : data.Resolves)
    (keep : Bool) :
    let e := expandMacros host macros log keep
    let traces := log.TracesSince e.log
    ∀ n, TransGen traces (host.nodeRef n) (host.nodeRef inst) → e.graph.NoWildcards n ∨
      ∃ nested data', traces (host.nodeRef n) (host.nodeRef nested) ∧
        TransGen traces (host.nodeRef nested) (host.nodeRef inst) ∧
        originKind? host macros e.log nested = some (.macroInstance data') ∧ ¬data'.Resolves := by
  intro e traces n hn
  have htracked : Tracked host macros log e :=
    (Tracked.refl host macros log).expandPasses hmacros keep maxPasses
  -- no entry of the chain is an old one, so each leads to the instance that its copy was made for
  have hentry (object : ObjectRef) (m : NodeId) (hm : traces object (host.nodeRef m)) :
      ∃ copy data', object = host.nodeRef copy ∧
        originKind? host macros e.log m = some (.macroInstance data') ∧
        MadeFor data' host e.graph copy :=
    ((htracked.traces object m hm.1).resolve_left hm.2).2
  have hchain (object : ObjectRef) (h : TransGen traces object (host.nodeRef inst)) :
      ∃ copy m data', object = host.nodeRef copy ∧ traces object (host.nodeRef m) ∧
        (m = inst ∨ TransGen traces (host.nodeRef m) (host.nodeRef inst)) ∧
        originKind? host macros e.log m = some (.macroInstance data') ∧
        MadeFor data' host e.graph copy := by
    induction h using TransGen.head_induction_on with
    | single h =>
      obtain ⟨copy, data', hcopy, horigin, hmade⟩ := hentry _ inst h
      exact ⟨copy, inst, data', hcopy, h, .inl rfl, horigin, hmade⟩
    | head h hrest ih =>
      obtain ⟨m, -, -, rfl, -⟩ := ih
      obtain ⟨copy, data', hcopy, horigin, hmade⟩ := hentry _ m h
      exact ⟨copy, m, data', hcopy, h, .inr hrest, horigin, hmade⟩
  obtain ⟨copy, m, data', hcopy, htraces, hrest, horigin, hmade⟩ := hchain _ hn
  obtain rfl : n = copy := (ObjectRef.node.inj hcopy).2
  by_cases hresolves' : data'.Resolves
  · exact .inl (hmade.noWildcards hresolves')
  · rcases hrest with rfl | hrest
    · rw [originKind?, hinst] at horigin
      cases horigin
      exact absurd hresolves hresolves'
    · exact .inr ⟨m, data', htraces, hrest, horigin, hresolves'⟩

/-- A macro with a call that takes anything. -/
def Expansion.printing : Graph :=
  let (call, g) := (Graph.empty "Inner").spawn (.callFunction { function := "Print" })
  (g.allocPin call .input { name := "Value", ty := .wildcard }).2

/-- A function with an instance that is resolved. -/
def Expansion.wrapped : Graph :=
  ((Graph.empty "F").spawn
    (.macroInstance { macroGraph := "Outer", resolvedWildcardType := some .int })).2

/-- The same call beside an instance that is resolved, too. -/
def Expansion.nesting : Graph :=
  ((printing.copyAs "Outer").spawn
    (.macroInstance { macroGraph := "Inner", resolvedWildcardType := some .string })).2

open Expansion Relation in
/-- Both the call of the outer body and that of a nested resolved instance are rid of their
wildcards, each by the type of its own instance. -/
theorem noWildcards_expandMacros_wrapped :
    let e := expandMacros wrapped [nesting, printing] {} false
    let traces := MessageLog.TracesSince {} e.log
    let typeOf (n : NodeId) := (e.graph.findPin? n "Value" none).bind e.graph.pin? |>.map (·.ty)
    (typeOf ⟨1⟩ = some .int ∧ typeOf ⟨3⟩ = some .string) ∧ ∀ n ∈ [(⟨1⟩ : NodeId), ⟨3⟩],
      TransGen traces (wrapped.nodeRef n) (wrapped.nodeRef ⟨0⟩) ∧ e.graph.NoWildcards n := by
  have hmacros : ∀ g ∈ [nesting, printing], g.WellFormed := by decide +kernel
  have hinst : wrapped.kind? ⟨0⟩ =
      some (.macroInstance { macroGraph := "Outer", resolvedWildcardType := some .int }) := rfl
  have hwhole := noWildcards_expandMacros wrapped hmacros {} hinst ⟨.int, rfl, by decide⟩ false
  have hentry : (expandMacros wrapped [nesting, printing] {} false).log.sources.lookup
      (wrapped.nodeRef ⟨1⟩) = some (wrapped.nodeRef ⟨0⟩) := by decide +kernel
  have hinner : (expandMacros wrapped [nesting, printing] {} false).log.sources.lookup
      (wrapped.nodeRef ⟨3⟩) = some (wrapped.nodeRef ⟨2⟩) := by decide +kernel
  have hnested : (expandMacros wrapped [nesting, printing] {} false).log.sources.lookup
      (wrapped.nodeRef ⟨2⟩) = some (wrapped.nodeRef ⟨0⟩) := by decide +kernel
  have horigin : originKind? wrapped [nesting, printing]
      (expandMacros wrapped [nesting, printing] {} false).log ⟨2⟩ =
        some (.macroInstance { macroGraph := "Inner", resolvedWildcardType := some .string }) := by
    decide +kernel
  refine ⟨by decide +kernel, ?_⟩
  dsimp only at hwhole ⊢
  generalize expandMacros wrapped [nesting, printing] {} false = e at *
  have hnew {object source : ObjectRef} (h : e.log.sources.lookup object = some source) :
      MessageLog.TracesSince {} e.log object source := ⟨h, fun hold ↦ by cases hold⟩
  -- each call was made for a resolved instance, so it is not the exception
  have hclean {n m : NodeId} {data : MacroData} (hdata : data.Resolves)
      (hentry : e.log.sources.lookup (wrapped.nodeRef n) = some (wrapped.nodeRef m))
      (horigin : originKind? wrapped [nesting, printing] e.log m = some (.macroInstance data))
      (htraces : TransGen (MessageLog.TracesSince {} e.log) (wrapped.nodeRef n)
        (wrapped.nodeRef ⟨0⟩)) : e.graph.NoWildcards n := by
    refine (hwhole n htraces).resolve_right ?_
    rintro ⟨m', data', ⟨hentry', -⟩, -, horigin', hnot⟩
    obtain rfl : m = m' := (ObjectRef.node.inj (Option.some.inj (hentry.symm.trans hentry'))).2
    cases horigin.symm.trans horigin'
    exact hnot hdata
  have houter : TransGen (MessageLog.TracesSince {} e.log) (wrapped.nodeRef ⟨1⟩)
      (wrapped.nodeRef ⟨0⟩) := .single (hnew hentry)
  have hchain : TransGen (MessageLog.TracesSince {} e.log) (wrapped.nodeRef ⟨3⟩)
      (wrapped.nodeRef ⟨0⟩) := .tail (.single (hnew hinner)) (hnew hnested)
  intro n hn
  rcases List.mem_pair.1 hn with rfl | rfl
  · exact ⟨houter, hclean ⟨.int, rfl, by decide⟩ hentry (by rfl) houter⟩
  · exact ⟨hchain, hclean ⟨.string, rfl, by decide⟩ hinner horigin hchain⟩

/-- A macro whose node lists pins that are not there is not well-formed, and the copy of the node
comes to list the pins of the body that is merged next. -/
example :
    let listed : Graph := ((Graph.empty "Outer").spawn (.callFunction { function := "Print" })).2
    let source := listed.modifyNode ⟨0⟩ fun n ↦ { n with pins := n.pins ++ [⟨6⟩, ⟨7⟩, ⟨8⟩, ⟨9⟩] }
    let host := (Expansion.wrapped.spawn (.macroInstance { macroGraph := "Inner" })).2
    let e := expandMacros host [source, Expansion.printing] {} false
    e.log.sources.lookup (host.nodeRef ⟨2⟩) = some (host.nodeRef ⟨0⟩) ∧
      ⟨6⟩ ∈ e.graph.pinsOf ⟨2⟩ ∧ (e.graph.pin? ⟨6⟩).map (·.ty.category) = some .wildcard := by
  decide +kernel

/-- A macro with an instance that is not resolved. -/
def Expansion.wrapping : Graph :=
  ((Graph.empty "Outer").spawn (.macroInstance { macroGraph := "Inner" })).2

open Expansion Relation in
/-- An instance inside of the body of a resolved one is not resolved by that, and the copy of a
call in its own body keeps a wildcard pin. -/
theorem not_noWildcards_nested :
    let macros := [wrapping, printing]
    let e := expandMacros wrapped macros {} false
    wrapped.WellFormed ∧ (∀ g ∈ macros, g.WellFormed) ∧
      wrapped.kind? ⟨0⟩ =
        some (.macroInstance { macroGraph := "Outer", resolvedWildcardType := some .int }) ∧
      e.ok = true ∧ TransGen e.log.Traces (wrapped.nodeRef ⟨2⟩) (wrapped.nodeRef ⟨0⟩) ∧
      ⟨3⟩ ∈ e.graph.pinsOf ⟨2⟩ ∧ (e.graph.pin? ⟨3⟩).map (·.ty.category) = some .wildcard := by
  have hcall : (expandMacros wrapped [wrapping, printing] {} false).log.sources.lookup
      (wrapped.nodeRef ⟨2⟩) = some (wrapped.nodeRef ⟨1⟩) := by decide +kernel
  have hnested : (expandMacros wrapped [wrapping, printing] {} false).log.sources.lookup
      (wrapped.nodeRef ⟨1⟩) = some (wrapped.nodeRef ⟨0⟩) := by decide +kernel
  exact ⟨by decide +kernel, by decide +kernel, rfl, by decide +kernel,
    .tail (.single hcall) hnested, by decide +kernel, by decide +kernel⟩

end VisualScript
