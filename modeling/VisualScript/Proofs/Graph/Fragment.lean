import VisualScript.Proofs.Graph.Books

/-!
# Merged fragments

Merging numbers the nodes and pins of a well-formed fragment on from those of the
host, so each of them is found again under its new name and the host stays
well-formed.
-/

namespace VisualScript

/-! ## Rows and tables -/

namespace Slots

variable {α : Type}

@[simp]
theorem size_append (s : Slots α) (values : List α) :
    (s.append values).size = s.size + values.length := by
  induction values generalizing s with
  | nil => rfl
  | cons a values ih =>
    rw [append, List.foldl_cons, ← append, ih, size_push, List.length_cons]
    omega

theorem get?_append (s : Slots α) (values : List α) (i : Nat) :
    (s.append values).get? i = if i < s.size then s.get? i else values[i - s.size]? := by
  induction values generalizing s with
  | nil =>
    split
    · rfl
    · next hle => exact get?_eq_none_of_size_le (Nat.not_lt.1 hle)
  | cons a values ih =>
    rw [append, List.foldl_cons, ← append, ih, size_push, get?_push]
    rcases Nat.lt_trichotomy i s.size with hlt | rfl | hlt
    · simp [hlt, Nat.lt_succ_of_lt hlt, Nat.ne_of_lt hlt]
    · simp
    · have hsub : i - s.size = i - (s.size + 1) + 1 := by omega
      simp [Nat.not_lt.2 hlt, Nat.not_lt.2 (Nat.le_of_lt hlt), hsub]

end Slots

theorem lookup_of_mem {κ ν : Type} [DecidableEq κ] {entries : List (κ × ν)} {key : κ} {value : ν}
    (hnodup : (entries.map (·.1)).Nodup) (h : (key, value) ∈ entries) :
    entries.lookup key = some value := by
  induction entries with
  | nil => cases h
  | cons e entries ih =>
    obtain ⟨hfirst, hrest⟩ := List.nodup_cons.1 hnodup
    rw [Assoc.lookup_cons_ite]
    rcases List.mem_cons.1 h with rfl | h
    · exact if_pos rfl
    · have hne : key ≠ e.1 := fun heq ↦ hfirst (List.mem_map.2 ⟨_, h, heq⟩)
      rw [if_neg hne, ih hrest h]

namespace Assoc

variable {κ ν : Type} [DecidableEq κ] {table : List (κ × ν)}

theorem mem_of_lookup {k : κ} {value : ν} (h : table.lookup k = some value) :
    (k, value) ∈ table := by
  obtain ⟨before, after, rfl, -⟩ := List.lookup_eq_some_iff.1 h
  exact List.mem_append_right _ List.mem_cons_self

/-- The last entry of a key counts, before what the table held. -/
theorem lookup_setAll_reverse (table entries : List (κ × ν)) (k : κ) :
    (setAll table entries).lookup k = (entries.reverse.lookup k).or (table.lookup k) := by
  induction entries generalizing table with
  | nil => rfl
  | cons e rest ih =>
    have hstep : setAll table (e :: rest) = setAll (set e.1 e.2 table) rest := rfl
    rw [hstep, ih, List.reverse_cons, List.lookup_append, Option.or_assoc, lookup_set,
      lookup_cons_ite]
    congr 1
    split <;> rfl

/-- What is found in a table of entries is one of them. -/
theorem mem_of_lookup_setAll {entries : List (κ × ν)} {k : κ} {value : ν}
    (h : (setAll [] entries).lookup k = some value) : (k, value) ∈ entries := by
  rw [lookup_setAll_reverse, List.lookup_nil, Option.or_none] at h
  exact List.mem_reverse.1 (mem_of_lookup h)

end Assoc

/-- A table that numbers a list without repeats. -/
theorem lookup_mapIdx {α κ ν : Type} [DecidableEq κ] (key : α → κ) {name : Nat → ν} {l : List α}
    (hnodup : (l.map key).Nodup) {i : Nat} {a : α} (h : l[i]? = some a) :
    (Assoc.setAll [] (l.mapIdx fun i a ↦ (key a, name i))).lookup (key a) = some (name i) := by
  have hkeys : (l.mapIdx fun i a ↦ (key a, name i)).map (·.1) = l.map key :=
    List.ext_getElem? fun i ↦ by simp [Function.comp_def]
  have hentry : (key a, name i) ∈ l.mapIdx fun i a ↦ (key a, name i) := by
    obtain ⟨hlt, rfl⟩ := List.getElem?_eq_some_iff.1 h
    exact List.mem_mapIdx.2 ⟨i, hlt, rfl⟩
  rw [Assoc.lookup_setAll (by rwa [hkeys]), lookup_of_mem (by rwa [hkeys]) hentry]
  rfl

theorem getElem?_filterMap_of_isSome {α β : Type} {f : α → Option β} {l : List α}
    (h : ∀ a ∈ l, (f a).isSome = true) (i : Nat) : (l.filterMap f)[i]? = l[i]?.bind f := by
  induction l generalizing i with
  | nil => rfl
  | cons a l ih =>
    obtain ⟨b, hb⟩ := Option.isSome_iff_exists.1 (h a List.mem_cons_self)
    rw [List.filterMap_cons_some hb]
    cases i with
    | zero => exact hb.symm
    | succ i => exact ih (fun a ha ↦ h a (List.mem_cons_of_mem _ ha)) i

/-! ## Live nodes -/

namespace Graph

section Live

variable {g : Graph} (h : g.WellFormed)
include h

theorem WellFormed.getElem?_liveNodes (i : Nat) : g.liveNodes[i]? = g.order[i]?.bind g.node? :=
  getElem?_filterMap_of_isSome (fun n hn ↦ (h.mem_order n).1 hn) i

theorem WellFormed.map_id_liveNodes : g.liveNodes.map (·.id) = g.order := by
  refine List.ext_getElem? fun i ↦ ?_
  rw [List.getElem?_map, h.getElem?_liveNodes]
  cases hi : g.order[i]? with
  | none => rfl
  | some n =>
    obtain ⟨node, hnode⟩ := Option.isSome_iff_exists.1
      ((h.mem_order n).1 (List.mem_of_getElem? hi))
    rw [Option.bind_some, hnode]
    exact congrArg some (h.id_eq n node hnode)

theorem WellFormed.mem_liveNodes {node : Node} : node ∈ g.liveNodes ↔ g.node? node.id = some node := by
  rw [liveNodes, List.mem_filterMap]
  constructor
  · rintro ⟨n, -, hnode⟩
    rwa [h.id_eq n node hnode]
  · intro hnode
    exact ⟨node.id, (h.mem_order _).2 (by rw [hnode]; rfl), hnode⟩

theorem WellFormed.pinsOf_of_live {node : Node} (hnode : node ∈ g.liveNodes) :
    g.pinsOf node.id = node.pins := by
  rw [pinsOf, h.mem_liveNodes.1 hnode]
  rfl

/-- No pin is listed twice. -/
theorem WellFormed.nodup_livePins : (g.liveNodes.flatMap (·.pins)).Nodup := by
  refine List.nodup_flatMap.2 ⟨fun node hnode ↦ ?_, ?_⟩
  · rw [← h.pinsOf_of_live hnode]
    exact h.nodup_pinsOf node.id
  · have hids : (g.liveNodes.map (·.id)).Nodup := h.map_id_liveNodes ▸ h.nodup_order
    refine (List.pairwise_map.1 hids).imp_of_mem fun {a b} ha hb hne ↦ ?_
    intro p hpa hpb
    replace hpa : g.ownerOf? p = some a.id :=
      (h.mem_pinsOf _ p).1 ((h.pinsOf_of_live ha).symm ▸ hpa)
    replace hpb : g.ownerOf? p = some b.id :=
      (h.mem_pinsOf _ p).1 ((h.pinsOf_of_live hb).symm ▸ hpb)
    exact hne (Option.some.inj (hpa.symm.trans hpb))

theorem WellFormed.nodesWhere_eq (p : NodeKind → Bool) :
    g.nodesWhere p = g.order.filter (g.kindIs · p) := by
  rw [nodesWhere, ← h.map_id_liveNodes, List.filter_map]
  congr 1
  refine List.filter_congr fun node hnode ↦ ?_
  rw [Function.comp_apply, kindIs, kind?, h.mem_liveNodes.1 hnode]
  rfl

theorem WellFormed.mem_order_iff_kind? {n : NodeId} :
    n ∈ g.order ↔ ∃ kind, g.kind? n = some kind := by
  rw [h.mem_order, kind?, Option.isSome_iff_exists]
  simp

theorem WellFormed.mem_nodesWhere {p : NodeKind → Bool} {n : NodeId} :
    n ∈ g.nodesWhere p ↔ ∃ kind, g.kind? n = some kind ∧ p kind = true := by
  rw [h.nodesWhere_eq, List.mem_filter, h.mem_order_iff_kind?, kindIs, Option.any_eq_true]
  exact and_iff_right_of_imp (.imp fun _ ↦ And.left)

end Live

/-! ## Merging -/

section Merging

variable {host fragment : Graph} {n : NodeId} {p : PinId}

/-- The pins that live nodes list. -/
abbrev livePins (g : Graph) : List PinId := g.liveNodes.flatMap (·.pins)

/-- The new names of a fragment that is merged into a host. -/
abbrev remapInto (host fragment : Graph) : Remap :=
  .ofNodes fragment.liveNodes host.nodes.size host.pins.size

theorem node?_remapInto (h : fragment.WellFormed) {i : Nat} {node : Node}
    (hnode : fragment.liveNodes[i]? = some node) :
    (remapInto host fragment).node? node.id = some ⟨host.nodes.size + i⟩ :=
  lookup_mapIdx Node.id (h.map_id_liveNodes ▸ h.nodup_order) hnode

theorem pin?_remapInto (h : fragment.WellFormed) {i : Nat} (hp : fragment.livePins[i]? = some p) :
    (remapInto host fragment).pin? p = some ⟨host.pins.size + i⟩ :=
  lookup_mapIdx id ((List.map_id _).symm ▸ h.nodup_livePins) hp

theorem isSome_pin?_of_livePins (h : fragment.WellFormed) (hp : p ∈ fragment.livePins) :
    ∃ node ∈ fragment.liveNodes, ∃ pin, fragment.pin? p = some pin ∧ pin.owner = node.id := by
  obtain ⟨node, hnode, hp⟩ := List.mem_flatMap.1 hp
  rw [← h.pinsOf_of_live hnode, h.mem_pinsOf] at hp
  obtain ⟨pin, hpin, howner⟩ := ownerOf?_eq_some.1 hp
  exact ⟨node, hnode, pin, hpin, howner⟩

/-- A pin of the fragment as it is merged. -/
def mergedPin (host fragment : Graph) (p : PinId) : Option Pin :=
  (fragment.pin? p).map fun pin ↦ (remapInto host fragment).renamePin p
    (((remapInto host fragment).node? pin.owner).getD pin.owner) pin

theorem renamedPins_eq (h : fragment.WellFormed) :
    fragment.renamedPins (remapInto host fragment) =
      fragment.livePins.filterMap (mergedPin host fragment) := by
  rw [livePins, List.filterMap_flatMap]
  refine List.flatMap_congr fun node hnode ↦ List.filterMap_congr fun p hp ↦ ?_
  rw [← h.pinsOf_of_live hnode, h.mem_pinsOf] at hp
  obtain ⟨pin, hpin, howner⟩ := ownerOf?_eq_some.1 hp
  simp only [mergedPin, hpin, Option.map_some, howner]

theorem node?_mergeFragment (host fragment : Graph) (n : NodeId) :
    (host.mergeFragment fragment).2.node? n =
      if n.index < host.nodes.size then host.node? n
      else fragment.liveNodes[n.index - host.nodes.size]?.map
        (remapInto host fragment).renameNode := by
  refine (Slots.get?_append _ _ _).trans ?_
  rw [List.getElem?_map]
  rfl

theorem pin?_mergeFragment (host : Graph) (h : fragment.WellFormed) (p : PinId) :
    (host.mergeFragment fragment).2.pin? p =
      if p.index < host.pins.size then host.pin? p
      else fragment.livePins[p.index - host.pins.size]?.bind (mergedPin host fragment) := by
  refine (Slots.get?_append _ _ _).trans ?_
  rw [← getElem?_filterMap_of_isSome, ← renamedPins_eq h]
  · rfl
  · intro q hq
    obtain ⟨node, -, pin, hpin, -⟩ := isSome_pin?_of_livePins h hq
    rw [mergedPin, hpin]
    rfl

theorem map_id_renameNode (h : fragment.WellFormed) :
    (fragment.liveNodes.map (remapInto host fragment).renameNode).map (·.id) =
      (List.range fragment.liveNodes.length).map fun i ↦ ⟨host.nodes.size + i⟩ := by
  refine List.ext_getElem? fun i ↦ ?_
  rw [List.map_map, List.getElem?_map, List.getElem?_map]
  cases hi : fragment.liveNodes[i]? with
  | none =>
    have hlength : fragment.liveNodes.length ≤ i := List.getElem?_eq_none_iff.1 hi
    rw [List.getElem?_eq_none (by rwa [List.length_range])]
    rfl
  | some node =>
    rw [List.getElem?_range (List.getElem?_eq_some_iff.1 hi).1]
    simp [Remap.renameNode, node?_remapInto h hi]

theorem order_mergeFragment (h : fragment.WellFormed) :
    (host.mergeFragment fragment).2.order =
      host.order ++ (List.range fragment.liveNodes.length).map fun i ↦ ⟨host.nodes.size + i⟩ :=
  congrArg (host.order ++ ·) (map_id_renameNode h)

/-- The pins that a merged node lists. -/
theorem pins_renameNode (h : fragment.WellFormed) {node : Node} (hnode : node ∈ fragment.liveNodes)
    {q : PinId} : q ∈ ((remapInto host fragment).renameNode node).pins ↔
      ∃ i p, fragment.livePins[i]? = some p ∧ p ∈ node.pins ∧ q = ⟨host.pins.size + i⟩ := by
  have hlive {p : PinId} (hp : p ∈ node.pins) : p ∈ fragment.livePins :=
    List.mem_flatMap.2 ⟨node, hnode, hp⟩
  constructor
  · intro hq
    obtain ⟨p, hp, rfl⟩ := List.mem_map.1 hq
    obtain ⟨i, hi⟩ := List.getElem?_of_mem (hlive hp)
    exact ⟨i, p, hi, hp, by rw [pin?_remapInto h hi]; rfl⟩
  · rintro ⟨i, p, hi, hp, rfl⟩
    exact List.mem_map.2 ⟨p, hp, by rw [pin?_remapInto h hi]; rfl⟩

/-- A live node is named by an index that was given out. -/
theorem lt_of_isSome_node? {g : Graph} (h : (g.node? n).isSome = true) : n.index < g.nodes.size := by
  by_contra hle
  rw [node?, Slots.get?_eq_none_of_size_le (Nat.not_lt.1 hle)] at h
  cases h

theorem lt_of_pin?_eq_some {g : Graph} {pin : Pin} (h : g.pin? p = some pin) :
    p.index < g.pins.size := by
  by_contra hle
  rw [pin?, Slots.get?_eq_none_of_size_le (Nat.not_lt.1 hle)] at h
  cases h

/-- The nodes of a merged graph are those of the host and the renamed ones. -/
theorem node?_mergeFragment_eq_some {node : Node} :
    (host.mergeFragment fragment).2.node? n = some node ↔ host.node? n = some node ∨
      ∃ i old, fragment.liveNodes[i]? = some old ∧ n = ⟨host.nodes.size + i⟩ ∧
        (remapInto host fragment).renameNode old = node := by
  obtain ⟨k⟩ := n
  rw [node?_mergeFragment]
  split
  · next hlt =>
    refine ⟨.inl, fun hnode ↦ hnode.resolve_right ?_⟩
    rintro ⟨i, -, -, heq, -⟩
    have hindex : k = host.nodes.size + i := congrArg NodeId.index heq
    exact absurd hlt (by simp [hindex])
  · next hle =>
    have hhost : host.node? ⟨k⟩ = none := Slots.get?_eq_none_of_size_le (Nat.not_lt.1 hle)
    rw [Option.map_eq_some_iff, hhost]
    constructor
    · rintro ⟨old, hold, rfl⟩
      exact .inr ⟨_, old, hold, congrArg NodeId.mk (by dsimp only at hle ⊢; omega), rfl⟩
    · rintro (hnode | ⟨i, old, hold, heq, hrename⟩)
      · cases hnode
      · have hindex : k = host.nodes.size + i := congrArg NodeId.index heq
        exact ⟨old, by simpa [hindex] using hold, hrename⟩

/-- The owners of pins of a merged graph are those of the host and the renamed ones. -/
theorem ownerOf?_mergeFragment (h : fragment.WellFormed) :
    (host.mergeFragment fragment).2.ownerOf? p = some n ↔ host.ownerOf? p = some n ∨
      ∃ i j node q, fragment.liveNodes[i]? = some node ∧ fragment.livePins[j]? = some q ∧
        q ∈ node.pins ∧ p = ⟨host.pins.size + j⟩ ∧ n = ⟨host.nodes.size + i⟩ := by
  have hrenamed {i : Nat} {node : Node} {q : PinId} (hnode : fragment.liveNodes[i]? = some node)
      (hq : q ∈ node.pins) : ∃ pin, mergedPin host fragment q = some pin ∧
        pin.owner = ⟨host.nodes.size + i⟩ := by
    rw [← h.pinsOf_of_live (List.mem_of_getElem? hnode), h.mem_pinsOf] at hq
    obtain ⟨pin, hpin, howner⟩ := ownerOf?_eq_some.1 hq
    refine ⟨_, by rw [mergedPin, hpin, Option.map_some], ?_⟩
    rw [Remap.renamePin, howner, node?_remapInto h hnode]
    rfl
  obtain ⟨k⟩ := p
  rw [ownerOf?_eq_some, pin?_mergeFragment host h]
  split
  · next hlt =>
    rw [← ownerOf?_eq_some]
    refine ⟨.inl, fun howner ↦ howner.resolve_right ?_⟩
    rintro ⟨i, j, -, -, -, -, -, heq, -⟩
    have hindex : k = host.pins.size + j := congrArg PinId.index heq
    exact absurd hlt (by simp [hindex])
  · next hle =>
    have hhost : host.ownerOf? ⟨k⟩ = none := by
      rw [ownerOf?, pin?, Slots.get?_eq_none_of_size_le (Nat.not_lt.1 hle)]
      rfl
    rw [hhost]
    constructor
    · rintro ⟨pin, hpin, rfl⟩
      obtain ⟨q, hq, hmerged⟩ := Option.bind_eq_some_iff.1 hpin
      obtain ⟨node, hnode, hmem⟩ := List.mem_flatMap.1 (List.mem_of_getElem? hq)
      obtain ⟨i, hi⟩ := List.getElem?_of_mem hnode
      obtain ⟨pin', hpin', howner⟩ := hrenamed hi hmem
      cases hmerged.symm.trans hpin'
      exact .inr ⟨i, _, node, q, hi, hq, hmem,
        congrArg PinId.mk (by dsimp only at hle ⊢; omega), howner⟩
    · rintro (howner | ⟨i, j, node, q, hnode, hq, hmem, heq, rfl⟩)
      · cases howner
      · have hindex : k = host.pins.size + j := congrArg PinId.index heq
        obtain ⟨pin, hpin, howner⟩ := hrenamed hnode hmem
        exact ⟨pin, by simpa [hindex, hq] using hpin, howner⟩

theorem mem_pinsOf_mergeFragment (h : fragment.WellFormed) :
    p ∈ (host.mergeFragment fragment).2.pinsOf n ↔ p ∈ host.pinsOf n ∨
      ∃ i j node q, fragment.liveNodes[i]? = some node ∧ fragment.livePins[j]? = some q ∧
        q ∈ node.pins ∧ p = ⟨host.pins.size + j⟩ ∧ n = ⟨host.nodes.size + i⟩ := by
  have hlisted (g : Graph) : p ∈ g.pinsOf n ↔ ∃ node, g.node? n = some node ∧ p ∈ node.pins := by
    rw [pinsOf]
    cases g.node? n <;> simp
  rw [hlisted, hlisted]
  constructor
  · rintro ⟨node, hnode, hp⟩
    rcases node?_mergeFragment_eq_some.1 hnode with hnode | ⟨i, old, hold, rfl, rfl⟩
    · exact .inl ⟨node, hnode, hp⟩
    · obtain ⟨j, q, hq, hmem, rfl⟩ := (pins_renameNode h (List.mem_of_getElem? hold)).1 hp
      exact .inr ⟨i, j, old, q, hold, hq, hmem, rfl, rfl⟩
  · rintro (⟨node, hnode, hp⟩ | ⟨i, j, old, q, hold, hq, hmem, rfl, rfl⟩)
    · exact ⟨node, node?_mergeFragment_eq_some.2 (.inl hnode), hp⟩
    · exact ⟨_, node?_mergeFragment_eq_some.2 (.inr ⟨i, old, hold, rfl, rfl⟩),
        (pins_renameNode h (List.mem_of_getElem? hold)).2 ⟨j, q, hq, hmem, rfl⟩⟩

/-- Merging a well-formed fragment keeps the host well-formed. -/
theorem WellFormed.mergeFragment (hhost : host.WellFormed) (h : fragment.WellFormed) :
    (host.mergeFragment fragment).2.WellFormed := by
  have hsize {n : NodeId} (hn : n ∈ host.order) : n.index < host.nodes.size :=
    lt_of_isSome_node? ((hhost.mem_order n).1 hn)
  refine ⟨?_, fun n ↦ ?_, fun n node hnode ↦ ?_, fun n ↦ ?_, fun n p ↦ ?_⟩
  · rw [order_mergeFragment h]
    refine List.Nodup.append hhost.nodup_order ?_ fun n hn hn' ↦ ?_
    · refine List.nodup_range.map fun i j hij ↦ ?_
      have hindex := congrArg NodeId.index hij
      simpa using hindex
    · obtain ⟨i, -, rfl⟩ := List.mem_map.1 hn'
      exact absurd (hsize hn) (by simp)
  · rw [order_mergeFragment h, List.mem_append, hhost.mem_order, List.mem_map]
    simp only [Option.isSome_iff_exists, node?_mergeFragment_eq_some, exists_or]
    refine or_congr Iff.rfl ⟨?_, ?_⟩
    · rintro ⟨i, hi, rfl⟩
      have hlt := List.mem_range.1 hi
      exact ⟨_, i, _, List.getElem?_eq_getElem hlt, rfl, rfl⟩
    · rintro ⟨-, i, old, hold, rfl, -⟩
      exact ⟨i, List.mem_range.2 (List.getElem?_eq_some_iff.1 hold).1, rfl⟩
  · rcases node?_mergeFragment_eq_some.1 hnode with hnode | ⟨i, old, hold, rfl, rfl⟩
    · exact hhost.id_eq n node hnode
    · rw [Remap.renameNode, node?_remapInto h hold]
      rfl
  · cases hnode : (host.mergeFragment fragment).2.node? n with
    | none => rw [pinsOf, hnode]; exact List.nodup_nil
    | some node =>
      rw [pinsOf, hnode]
      rcases node?_mergeFragment_eq_some.1 hnode with hnode | ⟨i, old, hold, rfl, rfl⟩
      · have hpins := hhost.nodup_pinsOf n
        rwa [pinsOf, hnode] at hpins
      · have hlive := List.mem_of_getElem? hold
        have hpins := h.nodup_pinsOf old.id
        rw [h.pinsOf_of_live hlive] at hpins
        refine hpins.map_on fun p hp q hq heq ↦ ?_
        obtain ⟨j, hj⟩ := List.getElem?_of_mem
          (List.mem_flatMap.2 ⟨old, hlive, hp⟩ : p ∈ fragment.livePins)
        obtain ⟨k, hk⟩ := List.getElem?_of_mem
          (List.mem_flatMap.2 ⟨old, hlive, hq⟩ : q ∈ fragment.livePins)
        rw [pin?_remapInto h hj, pin?_remapInto h hk] at heq
        have hindex := congrArg PinId.index heq
        obtain rfl : j = k := by simpa using hindex
        exact Option.some.inj (hj.symm.trans hk)
  · rw [mem_pinsOf_mergeFragment h, ownerOf?_mergeFragment h, hhost.mem_pinsOf]

end Merging

end Graph

end VisualScript
