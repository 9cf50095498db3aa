import VisualScript.Proofs.Graph.Operations
import VisualScript.Proofs.Graph.Pins

/-!
# Graphs that take nodes in

While a graph takes copies of other graphs in it keeps its name, and a node that is added
gets a later name than all before it, whether or not the graphs are well-formed.
-/

namespace VisualScript.Graph

/-- The graph keeps its name and the names that it gave out. -/
structure Widens (g g' : Graph) : Prop extends Later g g' where
  name : g'.name = g.name

namespace Widens

variable {g g' g'' : Graph}

theorem refl (g : Graph) : Widens g g := ⟨.refl g, rfl⟩

theorem trans (h : Widens g g') (h' : Widens g' g'') : Widens g g'' :=
  ⟨h.toLater.trans h'.toLater, h'.name.trans h.name⟩

theorem foldl {α : Type} {f : Graph → α → Graph} (hf : ∀ g a, Widens g (f g a)) (l : List α)
    (g : Graph) : Widens g (l.foldl f g) :=
  List.foldlRecOn (motive := fun g' ↦ Widens g g') l f (refl g) fun g' h a _ ↦ h.trans (hf g' a)

/-! ## Edits -/

theorem modifyNode (g : Graph) (n : NodeId) (f : Node → Node) : Widens g (g.modifyNode n f) :=
  ⟨.modifyNode g n f, rfl⟩

theorem modifyPin (g : Graph) (p : PinId) (f : Pin → Pin) : Widens g (g.modifyPin p f) :=
  ⟨.modifyPin g p f, rfl⟩

theorem offsetNodes (g : Graph) (ids : List NodeId) (dx dy : Int) :
    Widens g (g.offsetNodes ids dx dy) :=
  foldl (fun g n ↦ modifyNode g n _) ids g

theorem placeLeftOf (g : Graph) (n beside : NodeId) : Widens g (g.placeLeftOf n beside) := by
  unfold Graph.placeLeftOf
  split
  · exact modifyNode g n _
  · exact refl g

theorem allocPin (g : Graph) (n : NodeId) (direction : Direction) (desc : PinDescription) :
    Widens g (g.allocPin n direction desc).2 :=
  ⟨.allocPin g n direction desc, rfl⟩

theorem addPin {n : NodeId} {direction : Direction} {desc : PinDescription} {p : PinId}
    (h : g.addPin n direction desc = .ok (p, g')) : Widens g g' := by
  unfold Graph.addPin at h
  split at h
  · cases h
    exact allocPin g n direction desc
  · cases h

theorem spawnIntermediate (g : Graph) (kind : NodeKind) :
    Widens g (g.spawnIntermediate kind).2 where
  toLater := (Later.spawn g kind).trans (.modifyNode _ _ _)
  name := by
    have hpins (n : NodeId) (g : Graph) :
        (kind.startingPins.foldl (fun g p ↦ (g.allocPin n p.1 p.2).2) g).name = g.name :=
      (foldl (fun g p ↦ allocPin g n p.1 p.2) kind.startingPins g).name
    exact hpins _ _

theorem makeLink {a b : PinId} (h : g.makeLink a b = .ok g') : Widens g g' where
  toLater := .makeLink h
  name := by
    obtain ⟨-, -, -, -, -, -, ⟨-, rfl⟩ | ⟨-, rfl⟩⟩ := makeLink_eq_ok h <;> rfl

theorem connect {source target : NodeId} {output input : String}
    (h : g.connect source output target input = .ok g') : Widens g g' := by
  obtain ⟨a, -, h⟩ := bind_eq_ok.1 h
  obtain ⟨b, -, h⟩ := bind_eq_ok.1 h
  exact makeLink h

theorem breakPinLinks (g : Graph) (p : PinId) : Widens g (g.breakPinLinks p) :=
  foldl (fun g q ↦ (modifyPin g p _).trans (modifyPin _ q _)) _ g

theorem removeNode (g : Graph) (n : NodeId) : Widens g (g.removeNode n) where
  toLater := .removeNode g n
  name := by
    unfold Graph.removeNode
    split
    · exact (foldl breakPinLinks (g.pinsOf n) g).name
    · rfl

theorem linkAll (g : Graph) (target : PinId) (ps : List PinId) :
    Widens g (g.linkAll target ps).graph := by
  induction ps generalizing g with
  | nil => exact refl g
  | cons p ps ih =>
    unfold Graph.linkAll
    split
    · next g' hmake => exact (makeLink hmake).trans (ih g')
    · exact refl g

theorem copyPinLinks (g : Graph) (source target : PinId) :
    Widens g (g.copyPinLinks source target).graph := by
  unfold Graph.copyPinLinks
  split
  · exact refl g
  · exact refl g
  · next pin _ _ _ =>
    have hlinks := linkAll g target pin.links
    split
    · next heq => exact heq ▸ hlinks
    · next heq =>
      rw [heq] at hlinks
      exact hlinks.trans (modifyPin _ _ _)

theorem movePinLinks (g : Graph) (source target : PinId) :
    Widens g (g.movePinLinks source target).graph := by
  have hcopy := copyPinLinks g source target
  unfold Graph.movePinLinks
  split
  · next heq => exact heq ▸ hcopy
  · next heq =>
    rw [heq] at hcopy
    exact hcopy.trans (breakPinLinks _ _)

theorem rewireThrough (g : Graph) (instPin tunnelPin : PinId) (entry : Bool) :
    Widens g (g.rewireThrough instPin tunnelPin entry).1 := by
  have hlink (links : List (PinId × PinId)) (g : Graph) : Widens g (g.linkPairs links).1 := by
    induction links generalizing g with
    | nil => exact refl g
    | cons link links ih =>
      unfold Graph.linkPairs
      split
      · next g' hmake => exact (makeLink hmake).trans (ih g')
      · exact refl g
  have hwire (g : Graph) (sources targets : List PinId) (boundary : PinId) :
      Widens g (g.wire sources targets boundary).1 := by
    unfold Graph.wire
    split
    · exact foldl (fun g t ↦ modifyPin g t _) targets g
    · exact hlink _ g
  refine (breakPinLinks g tunnelPin).trans ?_
  unfold Graph.rewireThrough
  dsimp only
  split
  · exact hwire _ _ _ _
  · exact hwire _ _ _ _

/-! ## Copies -/

theorem mergeFragment (g fragment : Graph) : Widens g (g.mergeFragment fragment).2 :=
  ⟨.mergeFragment g fragment, rfl⟩

theorem placeSection (grid : SpawnGrid) (g : Graph) (ids : List NodeId) (label : String) :
    Widens g (grid.placeSection g ids label).2.2 := by
  unfold SpawnGrid.placeSection
  split
  · exact refl g
  · exact ((offsetNodes g ids _ _).trans (spawnIntermediate _ _)).trans (modifyNode _ _ _)

end Widens

/-! ## Later names -/

variable {host fragment : Graph} {n m : NodeId}

theorem lt_size_of_kind? {g : Graph} {kind : NodeKind} (h : g.kind? n = some kind) :
    n.index < g.nodes.size := by
  obtain ⟨node, hnode, -⟩ := Option.map_eq_some_iff.1 h
  exact lt_of_isSome_node? (by rw [hnode]; rfl)

/-- A copy has a later name than every node of its host. -/
theorem size_le_of_remapInto (h : (remapInto host fragment).node? n = some m) :
    host.nodes.size ≤ m.index := by
  obtain ⟨i, _, heq⟩ := List.mem_mapIdx.1 (Assoc.mem_of_lookup_setAll h)
  rw [← (Prod.mk.inj heq).2]
  exact Nat.le_add_right _ _

/-- So has the comment box around a section. -/
theorem size_le_of_placeSection {grid : SpawnGrid} {g : Graph} {ids : List NodeId} {label : String}
    (h : (grid.placeSection g ids label).1 = some n) : g.nodes.size ≤ n.index := by
  unfold SpawnGrid.placeSection at h
  split at h
  · cases h
  · next b _ =>
    cases h
    exact (Widens.offsetNodes g ids _ _).size_nodes

/-!
## Graphs that are worked off

Expansion takes instances and tunnels away.  Apart from the bodies that it merges in, no edit
that it makes adds a node that expansion replaces, gives pins to a node that is there or changes
the type of a pin.
-/

/-- Pins of nodes that were there are old pins, of the type that they had. -/
structure Steady (g g' : Graph) : Prop extends Widens g g' where
  pinsOf : ∀ n : NodeId, n.index < g.nodes.size → ∀ p ∈ g'.pinsOf n, p ∈ g.pinsOf n
  ty : ∀ (p : PinId) (pin' : Pin), p.index < g.pins.size → g'.pin? p = some pin' →
    ∃ pin, g.pin? p = some pin ∧ pin'.ty = pin.ty

/-- Nodes keep their kinds as well, and what expansion replaces is not among the new ones. -/
structure Ages (g g' : Graph) : Prop extends Steady g g' where
  kind? : ∀ n kind, g'.kind? n = some kind →
    g.kind? n = some kind ∨ g.nodes.size ≤ n.index ∧ kind.isReplaced = false

namespace Steady

variable {g g' g'' : Graph}

theorem refl (g : Graph) : Steady g g :=
  ⟨.refl g, fun _ _ _ ↦ id, fun _ pin' _ h ↦ ⟨pin', h, rfl⟩⟩

theorem trans (h : Steady g g') (h' : Steady g' g'') : Steady g g'' where
  toWidens := h.toWidens.trans h'.toWidens
  pinsOf n hn p hp :=
    h.pinsOf n hn p (h'.pinsOf n (Nat.lt_of_lt_of_le hn h.size_nodes) p hp)
  ty p pin'' hp hpin'' := by
    obtain ⟨pin', hpin', hty'⟩ := h'.ty p pin'' (Nat.lt_of_lt_of_le hp h.size_pins) hpin''
    obtain ⟨pin, hpin, hty⟩ := h.ty p pin' hp hpin'
    exact ⟨pin, hpin, hty'.trans hty⟩

theorem mergeFragment (g : Graph) {fragment : Graph} (h : fragment.WellFormed) :
    Steady g (g.mergeFragment fragment).2 where
  toWidens := .mergeFragment g fragment
  pinsOf n hn p hp := by rwa [Graph.pinsOf, node?_mergeFragment, if_pos hn] at hp
  ty p pin' hp hpin' := ⟨pin', by rwa [pin?_mergeFragment_host hp h] at hpin', rfl⟩

end Steady

namespace Ages

variable {g g' g'' : Graph}

theorem refl (g : Graph) : Ages g g := ⟨.refl g, fun _ _ ↦ .inl⟩

theorem trans (h : Ages g g') (h' : Ages g' g'') : Ages g g'' where
  toSteady := h.toSteady.trans h'.toSteady
  kind? n kind hn := by
    rcases h'.kind? n kind hn with hold | ⟨hle, hkind⟩
    · exact h.kind? n kind hold
    · exact .inr ⟨h.size_nodes.trans hle, hkind⟩

theorem foldl {α : Type} {f : Graph → α → Graph} (hf : ∀ g a, Ages g (f g a)) (l : List α)
    (g : Graph) : Ages g (l.foldl f g) :=
  List.foldlRecOn (motive := fun g' ↦ Ages g g') l f (refl g) fun g' h a _ ↦ h.trans (hf g' a)

theorem replaced (h : Ages g g') {n : NodeId} {kind : NodeKind} (hreplaced : kind.isReplaced = true)
    (hn : g'.kind? n = some kind) : g.kind? n = some kind := by
  refine (h.kind? n kind hn).resolve_right ?_
  rintro ⟨-, hnot⟩
  rw [hreplaced] at hnot
  cases hnot

/-! ### Edits -/

theorem of_sameFaces (hwidens : Widens g g') (h : SameFaces g g') : Ages g g' where
  toWidens := hwidens
  kind? n _ hn := .inl ((h.kind?_eq n).symm.trans hn)
  pinsOf n _ p hp := h.pinsOf_eq n ▸ hp
  ty p pin' _ hpin' := by
    have hty := h.map_eq (f := fun pin ↦ pin.ty) (fun _ ↦ rfl) p
    rw [hpin', Option.map_some] at hty
    obtain ⟨pin, hpin, heq⟩ := Option.map_eq_some_iff.1 hty.symm
    exact ⟨pin, hpin, heq.symm⟩

theorem modifyNode (g : Graph) (n : NodeId) {f : Node → Node}
    (hf : ∀ node, (f node).kind = node.kind ∧ (f node).pins = node.pins) :
    Ages g (g.modifyNode n f) where
  toWidens := .modifyNode g n f
  kind? m _ hm := .inl ((KeepsNode.modifyNode m n g hf).kind?.symm.trans hm)
  pinsOf m _ _ hp := (KeepsNode.modifyNode m n g hf).pinsOf ▸ hp
  ty _ pin' _ hpin' := ⟨pin', hpin', rfl⟩

theorem setPosition (g : Graph) (n : NodeId) (x y : Int) : Ages g (g.setPosition n x y) :=
  modifyNode g n fun _ ↦ ⟨rfl, rfl⟩

theorem offsetNodes (g : Graph) (ids : List NodeId) (dx dy : Int) :
    Ages g (g.offsetNodes ids dx dy) :=
  foldl (fun g n ↦ modifyNode g n fun _ ↦ by exact ⟨rfl, rfl⟩) ids g

theorem placeLeftOf (g : Graph) (n beside : NodeId) : Ages g (g.placeLeftOf n beside) := by
  unfold Graph.placeLeftOf
  split
  · exact setPosition g n _ _
  · exact refl g

theorem spawnIntermediate (g : Graph) {kind : NodeKind} (hkind : kind.isReplaced = false) :
    Ages g (g.spawnIntermediate kind).2 := by
  have h := spawned_spawnIntermediate g kind
  refine ⟨⟨.spawnIntermediate g kind, fun n hn q hq ↦ ?_,
    fun p pin hp hpin ↦ ⟨pin, h.pin?_of_lt hp ▸ hpin, rfl⟩⟩, fun n kind' hn ↦ ?_⟩
  · have hne : n ≠ ⟨g.nodes.size⟩ := by
      rintro rfl
      exact absurd hn (Nat.lt_irrefl _)
    rwa [Graph.pinsOf, h.node? n hne] at hq
  · by_cases hnew : n = ⟨g.nodes.size⟩
    · subst hnew
      rw [← Option.some.inj (h.kind?.symm.trans hn)]
      exact .inr ⟨Nat.le_refl _, hkind⟩
    · rw [Graph.kind?, h.node? n hnew] at hn
      exact .inl hn

theorem placeSection (grid : SpawnGrid) (g : Graph) (ids : List NodeId) (label : String) :
    Ages g (grid.placeSection g ids label).2.2 := by
  unfold SpawnGrid.placeSection
  split
  · exact refl g
  · exact ((offsetNodes g ids _ _).trans (spawnIntermediate _ rfl)).trans (setPosition _ _ _ _)

theorem removeNode (g : Graph) (n : NodeId) : Ages g (g.removeNode n) := by
  cases hn : g.contains n with
  | false =>
    rw [removeNode_of_not_contains hn]
    exact refl g
  | true =>
    have hbroken : Ages g (g.breakNodeLinks n) :=
      of_sameFaces (.foldl Widens.breakPinLinks _ g) (sameFaces_breakNodeLinks g n)
    have hnode (m : NodeId) (node : Node) (hm : (g.removeNode n).node? m = some node) :
        (g.breakNodeLinks n).node? m = some node := by
      rw [node?_removeNode hn] at hm
      split at hm
      · cases hm
      · exact hm
    refine ⟨⟨.removeNode g n, fun m hm p hp ↦ ?_, fun p pin hp hpin ↦ hbroken.ty p pin hp ?_⟩,
      fun m kind hm ↦ ?_⟩
    · refine hbroken.pinsOf m hm p ?_
      cases hm' : (g.removeNode n).node? m with
      | none =>
        rw [Graph.pinsOf, hm'] at hp
        cases hp
      | some node =>
        rw [Graph.pinsOf, hm'] at hp
        rwa [Graph.pinsOf, hnode m node hm']
    · rw [pin?_removeNode hn] at hpin
      split at hpin
      · cases hpin
      · exact hpin
    · obtain ⟨node, hm', rfl⟩ := Option.map_eq_some_iff.1 hm
      refine hbroken.kind? m node.kind ?_
      rw [Graph.kind?, hnode m node hm']
      rfl

end Ages

theorem kind?_removeNode_self (g : Graph) (n : NodeId) : (g.removeNode n).kind? n = none := by
  rw [kind?, node?_removeNode_self]
  rfl

end VisualScript.Graph
