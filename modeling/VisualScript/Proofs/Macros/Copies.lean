import VisualScript.Proofs.Macros.Arrays

/-!
# Copies of a body

A body that is merged into a graph keeps its nodes, pins and wires under their new
names, and no wire joins it to what was there before.  Recording where the copies
come from and placing them changes nothing of that.
-/

namespace VisualScript

namespace Graph

section Merging

variable {host body : Graph} {p q : PinId} {pin : Pin}

theorem WellFormed.mem_livePins (h : body.WellFormed) :
    p ∈ body.livePins ↔ ∃ pin, body.pin? p = some pin := by
  constructor
  · intro hp
    obtain ⟨_, _, pin, hpin, _⟩ := isSome_pin?_of_livePins h hp
    exact ⟨pin, hpin⟩
  · rintro ⟨pin, hpin⟩
    have hmem : p ∈ body.pinsOf pin.owner := (h.mem_pinsOf _ p).2 (ownerOf?_of_pin? hpin)
    cases hnode : body.node? pin.owner with
    | none =>
      rw [pinsOf, hnode] at hmem
      cases hmem
    | some node =>
      rw [pinsOf, hnode] at hmem
      exact List.mem_flatMap.2 ⟨node, (h.mem_liveNodes).2 (by rwa [h.id_eq _ node hnode]), hmem⟩

theorem pin?_mergeFragment_host (hp : p.index < host.pins.size) (h : body.WellFormed) :
    (host.mergeFragment body).2.pin? p = host.pin? p := by
  rw [pin?_mergeFragment host h, if_pos hp]

/-- A pin of the body under its new name. -/
theorem pin?_mergeFragment_body (host : Graph) (h : body.WellFormed) (hpin : body.pin? p = some pin) :
    ∃ p', (remapInto host body).pin? p = some p' ∧ host.pins.size ≤ p'.index ∧
      (host.mergeFragment body).2.pin? p' = some ((remapInto host body).renamePin p
        (((remapInto host body).node? pin.owner).getD pin.owner) pin) := by
  obtain ⟨i, hi⟩ := List.getElem?_of_mem (h.mem_livePins.2 ⟨pin, hpin⟩)
  refine ⟨⟨host.pins.size + i⟩, pin?_remapInto h hi, Nat.le_add_right _ _, ?_⟩
  rw [pin?_mergeFragment host h, if_neg (Nat.not_lt.2 (Nat.le_add_right _ _)),
    Nat.add_sub_cancel_left, hi, Option.bind_some, mergedPin, hpin, Option.map_some]

/-- A pin of the merged graph is one of the host or of the body. -/
theorem pin?_mergeFragment_cases (h : body.WellFormed)
    (hpin : (host.mergeFragment body).2.pin? p = some pin) :
    host.pin? p = some pin ∨ ∃ p' pin', (remapInto host body).pin? p' = some p ∧
      body.pin? p' = some pin' ∧ pin = (remapInto host body).renamePin p'
        (((remapInto host body).node? pin'.owner).getD pin'.owner) pin' := by
  rw [pin?_mergeFragment host h] at hpin
  split at hpin
  · exact .inl hpin
  · next hp =>
    obtain ⟨p', hp', hmerged⟩ := Option.bind_eq_some_iff.1 hpin
    obtain ⟨pin', hpin', hrename⟩ := Option.map_eq_some_iff.1 hmerged
    refine .inr ⟨p', pin', ?_, hpin', hrename.symm⟩
    rw [pin?_remapInto h hp', Nat.add_sub_cancel' (Nat.not_lt.1 hp)]

/-- The wires of the merged graph are those of the host and of the body. -/
theorem feeds_mergeFragment (h : body.WellFormed) :
    (host.mergeFragment body).2.Feeds p q ↔ host.Feeds p q ∨ ∃ p' q', body.Feeds p' q' ∧
      (remapInto host body).pin? p' = some p ∧ (remapInto host body).pin? q' = some q := by
  constructor
  · rintro ⟨pin, hpin, hdirection, hlink⟩
    rcases pin?_mergeFragment_cases h hpin with hpin | ⟨p', pin', hp', hpin', rfl⟩
    · exact .inl ⟨pin, hpin, hdirection, hlink⟩
    · obtain ⟨q', hq', hq⟩ := List.mem_filterMap.1 hlink
      exact .inr ⟨p', q', ⟨pin', hpin', hdirection, hq'⟩, hp', hq⟩
  · rintro (⟨pin, hpin, hdirection, hlink⟩ | ⟨p', q', ⟨pin, hpin, hdirection, hlink⟩, hp', hq'⟩)
    · exact ⟨pin, (pin?_mergeFragment_host (lt_of_pin?_eq_some hpin) h).trans hpin, hdirection, hlink⟩
    · obtain ⟨p'', hp'', -, hpin'⟩ := pin?_mergeFragment_body host h hpin
      cases hp'.symm.trans hp''
      exact ⟨_, hpin', hdirection, List.mem_filterMap.2 ⟨q', hlink, hq'⟩⟩

/-- Different nodes of the body get different names. -/
theorem node?_remapInto_inj (host : Graph) (h : body.WellFormed) {m n : NodeId} (hm : m ∈ body.order)
    (hn : n ∈ body.order) (heq : (remapInto host body).node? m = (remapInto host body).node? n) :
    m = n := by
  have hnamed {n : NodeId} (hn : n ∈ body.order) : ∃ i node, body.liveNodes[i]? = some node ∧
      node.id = n ∧ (remapInto host body).node? n = some ⟨host.nodes.size + i⟩ := by
    rw [← h.map_id_liveNodes] at hn
    obtain ⟨node, hnode, rfl⟩ := List.mem_map.1 hn
    obtain ⟨i, hi⟩ := List.getElem?_of_mem hnode
    exact ⟨i, node, hi, rfl, node?_remapInto h hi⟩
  obtain ⟨i, a, ha, rfl, hi⟩ := hnamed hm
  obtain ⟨j, b, hb, rfl, hj⟩ := hnamed hn
  rw [hi, hj, Option.some.injEq, NodeId.mk.injEq] at heq
  obtain rfl : i = j := by omega
  cases ha.symm.trans hb
  rfl

theorem isSome_node?_remapInto (host : Graph) (h : body.WellFormed) {n : NodeId} (hn : n ∈ body.order) :
    ∃ n', (remapInto host body).node? n = some n' ∧ host.nodes.size ≤ n'.index := by
  rw [← h.map_id_liveNodes] at hn
  obtain ⟨node, hnode, rfl⟩ := List.mem_map.1 hn
  obtain ⟨i, hi⟩ := List.getElem?_of_mem hnode
  exact ⟨⟨host.nodes.size + i⟩, node?_remapInto h hi, Nat.le_add_right _ _⟩

/-- The copies of the nodes are numbered on from the host. -/
theorem filterMap_node?_remapInto (h : body.WellFormed) :
    body.order.filterMap (remapInto host body).node? =
      (List.range body.liveNodes.length).map fun i ↦ ⟨host.nodes.size + i⟩ := by
  refine List.ext_getElem? fun i ↦ ?_
  have hall (n : NodeId) (hn : n ∈ body.order) : ((remapInto host body).node? n).isSome = true := by
    obtain ⟨n', hn', -⟩ := isSome_node?_remapInto host h hn
    rw [hn']
    rfl
  rw [getElem?_filterMap_of_isSome hall, ← h.map_id_liveNodes, List.getElem?_map, List.getElem?_map]
  cases hi : body.liveNodes[i]? with
  | none =>
    rw [List.getElem?_eq_none (by simpa using List.getElem?_eq_none_iff.1 hi)]
    rfl
  | some node =>
    rw [List.getElem?_range (List.getElem?_eq_some_iff.1 hi).1]
    exact node?_remapInto h hi

/-- Merging keeps a linked host linked. -/
theorem Linked.mergeFragment (hhost : host.Linked) (hwf : body.WellFormed) (hbody : body.Linked) :
    (host.mergeFragment body).2.Linked := by
  intro p q pin hpin hlink
  rcases pin?_mergeFragment_cases hwf hpin with hpin | ⟨p', pin', hp', hpin', rfl⟩
  · obtain ⟨other, hother, hback, hne⟩ := hhost p q pin hpin hlink
    exact ⟨other, (pin?_mergeFragment_host (lt_of_pin?_eq_some hother) hwf).trans hother, hback, hne⟩
  · obtain ⟨q', hq', hq⟩ := List.mem_filterMap.1 hlink
    obtain ⟨other, hother, hback, howner, hdirection⟩ := hbody p' q' pin' hpin' hq'
    obtain ⟨q'', hq'', -, hpin''⟩ := pin?_mergeFragment_body host hwf hother
    cases hq.symm.trans hq''
    refine ⟨_, hpin'', List.mem_filterMap.2 ⟨p', hback, hp'⟩, fun heq ↦ howner ?_, hdirection⟩
    refine node?_remapInto_inj host hwf (hwf.owner_mem_order hother) (hwf.owner_mem_order hpin') ?_
    obtain ⟨m, hm, -⟩ := isSome_node?_remapInto host hwf (hwf.owner_mem_order hother)
    obtain ⟨n, hn, -⟩ := isSome_node?_remapInto host hwf (hwf.owner_mem_order hpin')
    simp only [Remap.renamePin, hm, hn, Option.getD_some] at heq
    rw [hm, hn, heq]

/-- A node of the body under its new name. -/
theorem node?_mergeFragment_body (host : Graph) (h : body.WellFormed) {n : NodeId} {node : Node}
    (hnode : body.node? n = some node) : ∃ n', (remapInto host body).node? n = some n' ∧
      host.nodes.size ≤ n'.index ∧ (host.mergeFragment body).2.node? n' =
        some ((remapInto host body).renameNode node) := by
  have hlive : node ∈ body.liveNodes := h.mem_liveNodes.2 (by rwa [h.id_eq n node hnode])
  obtain ⟨i, hi⟩ := List.getElem?_of_mem hlive
  have hname : (remapInto host body).node? node.id = _ := node?_remapInto h hi
  rw [h.id_eq n node hnode] at hname
  exact ⟨_, hname, Nat.le_add_right _ _, node?_mergeFragment_eq_some.2 (.inr ⟨i, node, hi, rfl, rfl⟩)⟩

theorem node?_mergeFragment_host (body : Graph) {n : NodeId} (hn : n.index < host.nodes.size) :
    (host.mergeFragment body).2.node? n = host.node? n := by
  rw [node?_mergeFragment, if_pos hn]

end Merging

/-! ## Dressing copies -/

/-- The graph `g'` is `g` with some nodes moved or marked as made by the compiler. -/
structure Dressed (ids : List NodeId) (g g' : Graph) : Prop where
  pins : g'.pins = g.pins
  order : g'.order = g.order
  others : ∀ n ∉ ids, g'.node? n = g.node? n
  nodes : ∀ n, (g'.node? n).map (fun node ↦ (node.id, node.kind, node.pins)) =
    (g.node? n).map fun node ↦ (node.id, node.kind, node.pins)

namespace Dressed

variable {ids : List NodeId}

theorem refl (g : Graph) : Dressed ids g g := ⟨rfl, rfl, fun _ _ ↦ rfl, fun _ ↦ rfl⟩

theorem trans {g g' g'' : Graph} (h : Dressed ids g g') (h' : Dressed ids g' g'') :
    Dressed ids g g'' :=
  ⟨h'.pins.trans h.pins, h'.order.trans h.order,
    fun n hn ↦ (h'.others n hn).trans (h.others n hn), fun n ↦ (h'.nodes n).trans (h.nodes n)⟩

theorem modifyNode (g : Graph) {n : NodeId} (hn : n ∈ ids) {f : Node → Node}
    (hf : ∀ node, (f node).id = node.id ∧ (f node).kind = node.kind ∧ (f node).pins = node.pins) :
    Dressed ids g (g.modifyNode n f) where
  pins := rfl
  order := rfl
  others m hm := by
    rw [node?_modifyNode, if_neg]
    rintro rfl
    exact hm hn
  nodes m := by
    rw [node?_modifyNode]
    split
    · cases g.node? m with
      | none => rfl
      | some node =>
        exact congrArg some (Prod.ext (hf node).1 (Prod.ext (hf node).2.1 (hf node).2.2))
    · rfl

theorem offsetNodes (g : Graph) (dx dy : Int) {ns : List NodeId} (h : ∀ n ∈ ns, n ∈ ids) :
    Dressed ids g (g.offsetNodes ns dx dy) := by
  unfold Graph.offsetNodes
  induction ns generalizing g with
  | nil => exact refl g
  | cons n ns ih =>
    refine (modifyNode g (h n List.mem_cons_self) fun _ ↦ ?_).trans
      (ih _ fun m hm ↦ h m (List.mem_cons_of_mem n hm))
    exact ⟨rfl, rfl, rfl⟩

section Reading

variable {g g' : Graph} (h : Dressed ids g g')
include h

theorem pin?_eq (p : PinId) : g'.pin? p = g.pin? p := by rw [pin?, h.pins, pin?]

theorem feeds_iff {p q : PinId} : g'.Feeds p q ↔ g.Feeds p q := by
  rw [Feeds, h.pin?_eq, Feeds]

theorem kind?_eq (n : NodeId) : g'.kind? n = g.kind? n := by
  have hkind := congrArg (Option.map fun x : NodeId × NodeKind × List PinId ↦ x.2.1) (h.nodes n)
  rw [Option.map_map, Option.map_map] at hkind
  exact hkind

theorem pinsOf_eq (n : NodeId) : g'.pinsOf n = g.pinsOf n := by
  have hpins := congrArg (fun o ↦ (Option.map (fun x : NodeId × NodeKind × List PinId ↦ x.2.2) o).getD [])
    (h.nodes n)
  rw [Option.map_map, Option.map_map] at hpins
  exact hpins

theorem linked (hg : g.Linked) : g'.Linked := by
  intro p q pin hpin hlink
  rw [h.pin?_eq] at hpin
  rw [h.pin?_eq]
  exact hg p q pin hpin hlink

end Reading

end Dressed

end Graph

namespace Expansion

open VisualScript.Graph

theorem numErrors_addMacroNode (log : MessageLog) (new source inst : ObjectRef) :
    (log.addMacroNode new source inst).numErrors = log.numErrors :=
  log.numErrors_addSource new inst

theorem numErrors_foldl_addSource (log : MessageLog) (pins : List (PinId × PinId))
    (new source : PinId × PinId → ObjectRef) :
    (pins.foldl (fun log p ↦ log.addSource (new p) (source p)) log).numErrors = log.numErrors := by
  induction pins generalizing log with
  | nil => rfl
  | cons p pins ih => exact (ih _).trans (log.numErrors_addSource _ _)

theorem dressed_foldl {α : Type} {ids : List NodeId} {f : Expansion → α → Expansion} (l : List α)
    (hf : ∀ e, ∀ a ∈ l, Dressed ids e.graph (f e a).graph ∧
      (f e a).log.numErrors = e.log.numErrors) (e : Expansion) :
    Dressed ids e.graph (l.foldl f e).graph ∧ (l.foldl f e).log.numErrors = e.log.numErrors := by
  induction l generalizing e with
  | nil => exact ⟨.refl _, rfl⟩
  | cons a l ih =>
    obtain ⟨hfirst, herrors⟩ := hf e a List.mem_cons_self
    obtain ⟨hrest, herrors'⟩ := ih (fun e b hb ↦ hf e b (List.mem_cons_of_mem a hb)) (f e a)
    exact ⟨hfirst.trans hrest, herrors'.trans herrors⟩

section Copies

variable (e : Expansion) (source body : Graph) (inst : NodeId)

theorem dressed_recordCopies (r : Remap) :
    Dressed (body.order.filterMap r.node?) e.graph (e.recordCopies source body inst r).graph ∧
      (e.recordCopies source body inst r).log.numErrors = e.log.numErrors := by
  unfold recordCopies
  extract_lets instRef e'
  have hfold : Dressed (body.order.filterMap r.node?) e.graph e'.graph ∧
      e'.log.numErrors = e.log.numErrors := by
    refine dressed_foldl body.order (fun e old hold ↦ ?_) e
    split
    · exact ⟨.refl _, rfl⟩
    · next new hnew =>
      have hmem := List.mem_filterMap.2 ⟨old, hold, hnew⟩
      exact ⟨.modifyNode _ hmem fun _ ↦ by exact ⟨rfl, rfl, rfl⟩, numErrors_addMacroNode _ _ _ _⟩
  exact ⟨hfold.1, (numErrors_foldl_addSource _ _ _ _).trans hfold.2⟩

theorem dressed_placeCopies (copies : List NodeId) :
    Dressed copies e.graph (e.placeCopies source inst copies false).graph ∧
      (e.placeCopies source inst copies false).log = e.log := by
  unfold placeCopies
  rw [if_neg Bool.false_ne_true]
  split
  · exact ⟨.refl _, rfl⟩
  · exact ⟨.offsetNodes _ _ _ fun _ ↦ id, rfl⟩

end Copies

end Expansion

end VisualScript
