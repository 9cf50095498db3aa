import VisualScript.Proofs.Graph.Consolidation

/-!
# Nodes under their own names

The nodes that the order of a graph lists are there under their own names when the graph is built
up from an empty one, whatever fragments are merged into it.  A fragment may name a node wrongly
or list it twice: the copies are numbered afresh.
-/

namespace VisualScript

/-- Every node that is numbered has a new name. -/
theorem Remap.isSome_node?_ofNodes {nodes : List Node} {node : Node} (h : node ∈ nodes)
    (firstNode firstPin : Nat) :
    ((Remap.ofNodes nodes firstNode firstPin).node? node.id).isSome = true := by
  obtain ⟨i, hi, rfl⟩ := List.getElem_of_mem h
  refine (congrArg Option.isSome (Assoc.lookup_setAll_reverse _ _ _)).trans ?_
  rw [List.lookup_nil, Option.or_none, List.lookup_isSome_iff]
  exact ⟨_, List.mem_reverse.2 (List.mem_mapIdx.2 ⟨i, hi, rfl⟩), beq_self_eq_true _⟩

namespace Graph

/-- The name under which the node goes itself, and its kind. -/
def header? (g : Graph) (n : NodeId) : Option (NodeId × NodeKind) :=
  (g.node? n).map fun node ↦ (node.id, node.kind)

section Entries

variable {g : Graph} {n : NodeId}

theorem header?_of_node? {node : Node} (h : g.node? n = some node) :
    g.header? n = some (node.id, node.kind) := congrArg _ h

theorem kind?_eq_header? (g : Graph) (n : NodeId) : g.kind? n = (g.header? n).map (·.2) := by
  rw [header?, Option.map_map]
  rfl

theorem lt_of_header? {e : NodeId × NodeKind} (h : g.header? n = some e) :
    n.index < g.nodes.size := by
  obtain ⟨node, hnode, -⟩ := Option.map_eq_some_iff.1 h
  exact lt_of_isSome_node? (hnode ▸ rfl)

theorem header?_modifyNode (g : Graph) (m : NodeId) {f : Node → Node}
    (hf : ∀ node, (f node).id = node.id ∧ (f node).kind = node.kind) (n : NodeId) :
    (g.modifyNode m f).header? n = g.header? n := by
  rw [header?, node?_modifyNode, header?]
  split
  · rw [Option.map_map]
    exact Option.map_congr fun node _ ↦ Prod.ext (hf node).1 (hf node).2
  · rfl

theorem header?_allocPin (g : Graph) (m : NodeId) (direction : Direction) (desc : PinDescription)
    (n : NodeId) : (g.allocPin m direction desc).2.header? n = g.header? n := by
  rw [header?, node?_allocPin, header?]
  split
  · rw [Option.map_map]
    rfl
  · rfl

/-- A new node goes under its own name, and the others as they did. -/
theorem header?_spawnIntermediate (g : Graph) (kind : NodeKind) (n : NodeId) :
    (g.spawnIntermediate kind).2.header? n =
      if n = ⟨g.nodes.size⟩ then some (n, kind) else g.header? n := by
  have hpins (g' : Graph) : (kind.startingPins.foldl
      (fun g' p ↦ (g'.allocPin ⟨g.nodes.size⟩ p.1 p.2).2) g').header? n = g'.header? n :=
    List.foldlRecOn (motive := fun g'' : Graph ↦ g''.header? n = g'.header? n) _ _ rfl
      fun g'' hg p _ ↦ (header?_allocPin g'' _ p.1 p.2 n).trans hg
  unfold spawnIntermediate spawn
  refine (header?_modifyNode _ _ (fun _ ↦ by exact ⟨rfl, rfl⟩) n).trans ((hpins _).trans ?_)
  obtain ⟨i⟩ := n
  rw [header?, node?, Slots.get?_push]
  by_cases hi : i = g.nodes.size
  · simp [hi]
  · simp [hi, header?, node?]

theorem order_spawnIntermediate (g : Graph) (kind : NodeKind) :
    (g.spawnIntermediate kind).2.order = g.order ++ [⟨g.nodes.size⟩] := by
  have hpins (g' : Graph) : (kind.startingPins.foldl
      (fun g' p ↦ (g'.allocPin ⟨g.nodes.size⟩ p.1 p.2).2) g').order = g'.order :=
    List.foldlRecOn (motive := fun g'' : Graph ↦ g''.order = g'.order) _ _ rfl fun _ hg _ _ ↦ hg
  exact hpins _

end Entries

/-! ## Merged fragments -/

section Merging

variable {host fragment : Graph} {n : NodeId}

theorem header?_mergeFragment_of_lt (h : n.index < host.nodes.size) :
    (host.mergeFragment fragment).2.header? n = host.header? n := by
  rw [header?, node?_mergeFragment, if_pos h, header?]

/-- The copies that a merge lists go under the names that it lists them by.  Of the copies of nodes
that share a name all are listed by one. -/
theorem header?_mergeFragment_of_mem (hn : n ∈ (host.mergeFragment fragment).2.order) :
    n ∈ host.order ∨ ∃ kind, (host.mergeFragment fragment).2.header? n = some (n, kind) := by
  refine (List.mem_append.1 hn).imp_right fun hn ↦ ?_
  obtain ⟨node, hnode, rfl⟩ : ∃ node ∈ fragment.liveNodes,
      ((remapInto host fragment).renameNode node).id = n := by
    rw [List.map_map] at hn
    exact List.mem_map.1 hn
  -- the number that the name stands for is that of one of the nodes of the name
  obtain ⟨i, hi, hid, hname⟩ : ∃ i, ∃ hi : i < fragment.liveNodes.length,
      fragment.liveNodes[i].id = node.id ∧
        (remapInto host fragment).node? node.id = some ⟨host.nodes.size + i⟩ := by
    obtain ⟨name, hname⟩ := Option.isSome_iff_exists.1 (Remap.isSome_node?_ofNodes hnode
      host.nodes.size host.pins.size)
    obtain ⟨i, hi, hentry⟩ := List.mem_mapIdx.1 (Assoc.mem_of_lookup_setAll hname)
    obtain ⟨hid, rfl⟩ := Prod.mk.inj hentry
    exact ⟨i, hi, hid, hname⟩
  have hrenamed (m : Node) (hm : m.id = node.id) :
      ((remapInto host fragment).renameNode m).id = ⟨host.nodes.size + i⟩ := by
    show ((remapInto host fragment).node? m.id).getD m.id = _
    rw [hm, hname]
    rfl
  refine ⟨(fragment.liveNodes[i]).kind, ?_⟩
  rw [hrenamed node rfl]
  refine (header?_of_node? (node?_mergeFragment_eq_some.2
    (.inr ⟨i, _, List.getElem?_eq_getElem hi, rfl, rfl⟩))).trans ?_
  rw [hrenamed _ hid]
  rfl

end Merging

/-! ## Enrolled nodes -/

/-- All nodes of the order are there under their own names, and some of them, which are not
replaced, are kept. -/
structure Enrolled (kept : List (NodeId × NodeKind)) (g : Graph) : Prop where
  named : ∀ n ∈ g.order, ∃ kind, g.header? n = some (n, kind)
  kept : ∀ e ∈ kept, e.1 ∈ g.order ∧ g.kind? e.1 = some e.2 ∧ e.2.isReplaced = false

namespace Enrolled

theorem empty (name : String) : Enrolled [] (.empty name) where
  named _ hn := nomatch hn
  kept _ he := nomatch he

variable {kept : List (NodeId × NodeKind)} {g g' : Graph} {m n : NodeId} (h : Enrolled kept g)
include h

theorem lt_of_mem (hn : n ∈ g.order) : n.index < g.nodes.size := by
  obtain ⟨kind, hheader⟩ := h.named n hn
  exact lt_of_header? hheader

/-- A node that the order lists and that is not replaced is kept from then on. -/
theorem keep {kind : NodeKind} (hn : n ∈ g.order) (hkind : g.kind? n = some kind)
    (hstays : kind.isReplaced = false) : Enrolled [(n, kind)] g where
  named := h.named
  kept := List.forall_mem_singleton.2 ⟨hn, hkind, hstays⟩

theorem mem_nodesWhere {p : NodeKind → Bool} :
    n ∈ g.nodesWhere p ↔ n ∈ g.order ∧ ∃ kind, g.kind? n = some kind ∧ p kind = true := by
  have hown {m : NodeId} {node : Node} (hm : m ∈ g.order) (hnode : g.node? m = some node) :
      node.id = m := by
    obtain ⟨kind, hheader⟩ := h.named m hm
    exact (Prod.mk.inj (Option.some.inj ((header?_of_node? hnode).symm.trans hheader))).1
  constructor
  · intro hn
    obtain ⟨node, hnode, rfl⟩ := List.mem_map.1 hn
    obtain ⟨hlive, hp⟩ := List.mem_filter.1 hnode
    obtain ⟨m, hm, hnode⟩ := List.mem_filterMap.1 hlive
    rw [hown hm hnode]
    exact ⟨hm, node.kind, congrArg _ hnode, hp⟩
  · rintro ⟨hn, kind, hkind, hp⟩
    obtain ⟨node, hnode, rfl⟩ := Option.map_eq_some_iff.1 hkind
    refine List.mem_map.2 ⟨node, List.mem_filter.2 ⟨?_, hp⟩, hown hn hnode⟩
    exact List.mem_filterMap.2 ⟨n, hn, hnode⟩

/-! ### Edits -/

theorem of_header? (horder : g'.order = g.order) (hheader : ∀ n, g'.header? n = g.header? n) :
    Enrolled kept g' where
  named n hn := by
    rw [hheader]
    exact h.named n (horder ▸ hn)
  kept e he := by
    rw [horder, kind?_eq_header?, hheader, ← kind?_eq_header?]
    exact h.kept e he

theorem sameFaces (hfaces : SameFaces g g') : Enrolled kept g' :=
  h.of_header? hfaces.order fun n ↦ congrArg (Option.map _) (hfaces.nodes n)

theorem addPin {direction : Direction} {desc : PinDescription} {p : PinId}
    (hadd : g.addPin m direction desc = .ok (p, g')) : Enrolled kept g' := by
  unfold Graph.addPin at hadd
  split at hadd
  · cases hadd
    exact h.of_header? rfl (header?_allocPin g m direction desc)
  · cases hadd

theorem spawnIntermediate (kind : NodeKind) : Enrolled kept (g.spawnIntermediate kind).2 where
  named n hn := by
    rw [header?_spawnIntermediate]
    split
    · exact ⟨kind, rfl⟩
    · next hne =>
      rw [order_spawnIntermediate] at hn
      exact h.named n ((List.mem_append.1 hn).resolve_right (hne <| List.mem_singleton.1 ·))
  kept e he := by
    obtain ⟨hmem, hkind, hstays⟩ := h.kept e he
    have hne : e.1 ≠ ⟨g.nodes.size⟩ := fun heq ↦ by
      have hlt := h.lt_of_mem hmem
      rw [heq] at hlt
      exact Nat.lt_irrefl _ hlt
    rw [order_spawnIntermediate, kind?_eq_header?, header?_spawnIntermediate, if_neg hne,
      ← kind?_eq_header?]
    exact ⟨List.mem_append_left _ hmem, hkind, hstays⟩

/-- A new node that is not replaced is kept. -/
theorem spawned {kind : NodeKind} (hstays : kind.isReplaced = false) :
    Enrolled [(⟨g.nodes.size⟩, kind)] (g.spawnIntermediate kind).2 := by
  refine (h.spawnIntermediate kind).keep ?_ ?_ hstays
  · rw [order_spawnIntermediate]
    exact List.mem_append_right _ (List.mem_singleton_self _)
  · rw [kind?_eq_header?, header?_spawnIntermediate, if_pos rfl]
    rfl

theorem mergeFragment (fragment : Graph) : Enrolled kept (g.mergeFragment fragment).2 where
  named n hn := by
    rcases header?_mergeFragment_of_mem hn with hn | hn
    · rw [header?_mergeFragment_of_lt (h.lt_of_mem hn)]
      exact h.named n hn
    · exact hn
  kept e he := by
    obtain ⟨hmem, hkind, hstays⟩ := h.kept e he
    rw [kind?_eq_header?, header?_mergeFragment_of_lt (h.lt_of_mem hmem), ← kind?_eq_header?]
    exact ⟨List.mem_append_left _ hmem, hkind, hstays⟩

theorem removeNode (hm : ∀ e ∈ kept, e.1 ≠ m) : Enrolled kept (g.removeNode m) := by
  cases hlive : g.contains m with
  | false => rwa [removeNode_of_not_contains hlive]
  | true =>
    have hheader {n : NodeId} (hne : n ≠ m) : (g.removeNode m).header? n = g.header? n :=
      congrArg (Option.map _) (node?_removeNode_of_ne hlive hne)
    refine ⟨fun n hn ↦ ?_, fun e he ↦ ?_⟩
    · rw [order_removeNode hlive] at hn
      obtain ⟨hn, hne⟩ := List.mem_filter.1 hn
      rw [hheader (of_decide_eq_true hne)]
      exact h.named n hn
    · obtain ⟨hmem, hkind, hstays⟩ := h.kept e he
      rw [order_removeNode hlive, kind?_eq_header?, hheader (hm e he), ← kind?_eq_header?]
      exact ⟨List.mem_filter.2 ⟨hmem, decide_eq_true (hm e he)⟩, hkind, hstays⟩

theorem setOrder {ids : List NodeId} (hids : ∀ n ∈ ids, n ∈ g.order) :
    Enrolled kept (g.setOrder ids) where
  named n hn := h.named n ((mem_foldl_order.1 hn).elim
    (fun hn ↦ hids n (List.mem_filter.1 hn).1) id)
  kept e he := by
    obtain ⟨hmem, hkind, hstays⟩ := h.kept e he
    exact ⟨mem_foldl_order.2 (.inr hmem), hkind, hstays⟩

end Enrolled

/-- Expansion leaves enrolled nodes alone, whatever bodies are merged in. -/
theorem keptAround_enrolled (kept : List (NodeId × NodeKind)) :
    KeptAround (fun n ↦ ∃ e ∈ kept, e.1 = n) (fun _ ↦ True) (Enrolled kept) where
  sameFaces h hfaces := h.sameFaces hfaces
  adorn m _ h hf := h.of_header? rfl (header?_modifyNode _ m fun node ↦ ⟨(hf node).1, (hf node).2.1⟩)
  spawnIntermediate kind h := h.spawnIntermediate kind
  addPin h _ hadd := h.addPin hadd
  mergeFragment h _ := h.mergeFragment _
  removeNode h hm := h.removeNode fun e he heq ↦ hm ⟨e, he, heq⟩
  free h hkind hreplaced := by
    rintro ⟨e, he, rfl⟩
    obtain ⟨-, hkind', hstays⟩ := h.kept e he
    cases hkind.symm.trans hkind'
    rw [hstays] at hreplaced
    cases hreplaced
  fresh h := by
    rintro ⟨e, he, heq⟩
    have hlt := h.lt_of_mem (h.kept e he).1
    rw [heq] at hlt
    exact Nat.lt_irrefl _ hlt
  mem_nodesWhere h hm := (h.mem_nodesWhere.1 hm).2

end Graph

/-! ## Pages -/

namespace Graph.Enrolled

variable {kept : List (NodeId × NodeKind)} {name : String} {log : MessageLog} {keep : Bool}

/-- What is enrolled when all pages are in stays so under the entry of the graph. -/
theorem mergePages {pages : List Graph}
    (h : Enrolled kept (pages.foldl (mergePage keep) (.empty name, {}, log)).1) :
    Enrolled kept (VisualScript.mergePages pages name log keep).2.1 := by
  unfold VisualScript.mergePages
  generalize pages.foldl (mergePage keep) (.empty name, {}, log) = merged at h
  obtain ⟨g, grid, log⟩ := merged
  obtain ⟨p, g', hadd, -⟩ := g.headed_addPin name
  have hspawned : (g.spawnIntermediate (.functionEntry { customName := some name })).1 =
      ⟨g.nodes.size⟩ := rfl
  have hentry := (h.spawned rfl).addPin hadd
  dsimp only
  rw [hspawned, hadd]
  exact ((h.spawnIntermediate _).addPin hadd).setOrder
    (List.forall_mem_singleton.2 (hentry.kept _ (List.mem_singleton_self _)).1)

/-- A node of a well-formed fragment is enrolled under another name. -/
theorem exists_mergeFragment {host fragment : Graph} (h : Enrolled kept host)
    (hfragment : fragment.WellFormed) {n : NodeId} {kind : NodeKind}
    (hkind : fragment.kind? n = some kind) (hstays : kind.isReplaced = false) :
    ∃ m, Enrolled [(m, kind)] (host.mergeFragment fragment).2 := by
  obtain ⟨node, hnode, rfl⟩ := Option.map_eq_some_iff.1 hkind
  have hlive : node ∈ fragment.liveNodes :=
    hfragment.mem_liveNodes.2 (hfragment.id_eq n node hnode ▸ hnode)
  obtain ⟨i, hi⟩ := List.getElem?_of_mem hlive
  refine ⟨⟨host.nodes.size + i⟩, (h.mergeFragment fragment).keep ?_ ?_ hstays⟩
  · rw [order_mergeFragment hfragment]
    refine List.mem_append_right _ (List.mem_map.2 ⟨i, List.mem_range.2 ?_, rfl⟩)
    exact (List.getElem?_eq_some_iff.1 hi).1
  · rw [Graph.kind?, node?_mergeFragment_eq_some.2 (.inr ⟨i, node, hi, rfl, rfl⟩)]
    rfl

end Graph.Enrolled

section Pages

variable {pages : List Graph} (name : String) (log : MessageLog) (keep : Bool)

/-- Whatever the pages are, the nodes of the graph that they are merged into go under their own
names. -/
theorem enrolled_mergePages : Graph.Enrolled [] (mergePages pages name log keep).2.1 :=
  ((Graph.keptAround_enrolled []).foldl_mergePage (.empty name) (fun _ _ ↦ trivial) keep).mergePages

/-- A node of a well-formed page is enrolled once the pages are merged, whatever the others are. -/
theorem exists_enrolled_mergePages {page : Graph} (hpage : page ∈ pages) (hwf : page.WellFormed)
    {n : NodeId} {kind : NodeKind} (hkind : page.kind? n = some kind)
    (hstays : kind.isReplaced = false) :
    ∃ m, Graph.Enrolled [(m, kind)] (mergePages pages name log keep).2.1 := by
  obtain ⟨before, after, rfl⟩ := List.append_of_mem hpage
  have hhost : Graph.Enrolled [] (before.foldl (mergePage keep) (.empty name, {}, log)).1 :=
    (Graph.keptAround_enrolled []).foldl_mergePage (.empty name) (fun _ _ ↦ trivial) keep
  obtain ⟨m, hm⟩ := hhost.exists_mergeFragment hwf hkind hstays
  have hP := Graph.keptAround_enrolled [(m, kind)]
  refine ⟨m, .mergePages ?_⟩
  rw [List.foldl_append, List.foldl_cons]
  exact hP.foldl_mergePage (hP.mergePage hm keep) (fun _ _ ↦ trivial) keep

end Pages

end VisualScript
