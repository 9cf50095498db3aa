import Mathlib.Data.List.Forall2
import VisualScript.Proofs.Graph.Linking
import VisualScript.Proofs.Graph.Widening

/-!
# Isomorphic copies

Merging leaves the host as it is and puts a copy of the fragment behind it.  The table that it
gives back names the nodes and pins of the fragment and nothing else, under names that the host
never gave out, and takes the fragment to its copy, whichever of its slots are free and in whatever
order its nodes stand.
-/

namespace VisualScript

open List (Forall₂)

/-! ## Copies under a table -/

namespace Remap

/-- The node `node'` is `node` under the names of the table. -/
structure CopiesNode (r : Remap) (node node' : Node) : Prop where
  id : r.node? node.id = some node'.id
  kind : node'.kind = node.kind
  pins : Forall₂ (fun p p' ↦ r.pin? p = some p') node.pins node'.pins
  position : node'.position = node.position
  comment : node'.comment = node.comment
  isIntermediate : node'.isIntermediate = node.isIntermediate

/-- The pin `pin'` is `pin` under the names of the table, with all its links. -/
structure CopiesPin (r : Remap) (pin pin' : Pin) : Prop where
  owner : r.node? pin.owner = some pin'.owner
  name : pin'.name = pin.name
  direction : pin'.direction = pin.direction
  ty : pin'.ty = pin.ty
  defaultValue : pin'.defaultValue = pin.defaultValue
  defaultObject : pin'.defaultObject = pin.defaultObject
  links : Forall₂ (fun q q' ↦ r.pin? q = some q') pin.links pin'.links

end Remap

namespace Graph

/-- The graph `g` is `host` with a copy of `fragment` behind it, under the names of the table. -/
structure Adjoins (host fragment : Graph) (r : Remap) (g : Graph) : Prop where
  name : g.name = host.name
  /-- The table names the live nodes of the fragment and their pins. -/
  node?_iff : ∀ n, (∃ n', r.node? n = some n') ↔ fragment.contains n = true
  pin?_iff : ∀ p, (∃ p', r.pin? p = some p') ↔ ∃ n, p ∈ fragment.pinsOf n
  node?_inj : ∀ m n n', r.node? m = some n' → r.node? n = some n' → m = n
  pin?_inj : ∀ p q q', r.pin? p = some q' → r.pin? q = some q' → p = q
  /-- The host has given out the names below its sizes. -/
  node?_fresh : ∀ n n', r.node? n = some n' → host.nodes.size ≤ n'.index
  pin?_fresh : ∀ p p', r.pin? p = some p' → host.pins.size ≤ p'.index
  host_node? : ∀ n : NodeId, n.index < host.nodes.size → g.node? n = host.node? n
  host_pin? : ∀ p : PinId, p.index < host.pins.size → g.pin? p = host.pin? p
  order : ∃ copies, g.order = host.order ++ copies ∧
    Forall₂ (fun n n' ↦ r.node? n = some n') fragment.order copies
  copy_node? : ∀ n n', r.node? n = some n' → ∃ node node', fragment.node? n = some node ∧
    g.node? n' = some node' ∧ node'.id = n' ∧ r.CopiesNode node node'
  copy_pin? : ∀ p p', r.pin? p = some p' → ∃ pin pin', fragment.pin? p = some pin ∧
    g.pin? p' = some pin' ∧ pin'.id = p' ∧ r.CopiesPin pin pin'
  node?_cases : ∀ n' node', g.node? n' = some node' →
    host.node? n' = some node' ∨ ∃ n, r.node? n = some n'
  pin?_cases : ∀ p' pin', g.pin? p' = some pin' →
    host.pin? p' = some pin' ∨ ∃ p, r.pin? p = some p'

/-! ## The table of a merge -/

section Merging

variable {host fragment : Graph} {n n' : NodeId} {p p' : PinId} {pin : Pin} {node : Node}

theorem WellFormed.exists_pinsOf_iff (h : fragment.WellFormed) :
    (∃ n, p ∈ fragment.pinsOf n) ↔ p ∈ fragment.livePins := by
  rw [h.mem_livePins]
  constructor
  · rintro ⟨n, hp⟩
    obtain ⟨pin, hpin, -⟩ := ownerOf?_eq_some.1 ((h.mem_pinsOf n p).1 hp)
    exact ⟨pin, hpin⟩
  · rintro ⟨pin, hpin⟩
    exact ⟨pin.owner, (h.mem_pinsOf _ p).2 (ownerOf?_of_pin? hpin)⟩

theorem node?_remapInto_iff (h : fragment.WellFormed) :
    (∃ n', (remapInto host fragment).node? n = some n') ↔ n ∈ fragment.order := by
  constructor
  · rintro ⟨n', hn⟩
    obtain ⟨i, hi, heq⟩ := List.mem_mapIdx.1 (Assoc.mem_of_lookup_setAll hn)
    rw [← h.map_id_liveNodes, ← (Prod.mk.inj heq).1]
    exact List.mem_map_of_mem (List.getElem_mem hi)
  · intro hn
    obtain ⟨n', hn', -⟩ := isSome_node?_remapInto host h hn
    exact ⟨n', hn'⟩

theorem pin?_remapInto_iff (h : fragment.WellFormed) :
    (∃ p', (remapInto host fragment).pin? p = some p') ↔ p ∈ fragment.livePins := by
  constructor
  · rintro ⟨p', hp⟩
    exact mem_livePins_of_remapInto hp
  · intro hp
    obtain ⟨i, hi⟩ := List.getElem?_of_mem hp
    exact ⟨_, pin?_remapInto h hi⟩

/-- A pin of the fragment has a later name than every pin of the host. -/
theorem size_le_of_pin?_remapInto (hp : (remapInto host fragment).pin? p = some p') :
    host.pins.size ≤ p'.index := by
  obtain ⟨i, _, heq⟩ := List.mem_mapIdx.1 (Assoc.mem_of_lookup_setAll hp)
  rw [← (Prod.mk.inj heq).2]
  exact Nat.le_add_right _ _

/-! ## What the table copies -/

theorem forall₂_filterMap {α β : Type} {f : α → Option β} {l : List α}
    (h : ∀ a ∈ l, ∃ b, f a = some b) : Forall₂ (fun a b ↦ f a = some b) l (l.filterMap f) := by
  induction l with
  | nil => exact .nil
  | cons a l ih =>
    obtain ⟨b, hb⟩ := h a List.mem_cons_self
    rw [List.filterMap_cons_some hb]
    exact .cons hb (ih fun a ha ↦ h a (List.mem_cons_of_mem _ ha))

theorem copiesNode_renameNode (host : Graph) (h : fragment.WellFormed)
    (hnode : node ∈ fragment.liveNodes) :
    (remapInto host fragment).CopiesNode node ((remapInto host fragment).renameNode node) where
  id := by
    have hmem : node.id ∈ fragment.order := h.map_id_liveNodes ▸ List.mem_map_of_mem hnode
    obtain ⟨n', hn', -⟩ := isSome_node?_remapInto host h hmem
    rw [Remap.renameNode, hn']
    rfl
  kind := rfl
  pins := by
    refine List.forall₂_map_right_iff.2 (List.forall₂_same.2 fun p hp ↦ ?_)
    obtain ⟨i, hi⟩ := List.getElem?_of_mem
      (List.mem_flatMap.2 ⟨node, hnode, hp⟩ : p ∈ fragment.livePins)
    rw [pin?_remapInto h hi]
    rfl
  position := rfl
  comment := rfl
  isIntermediate := rfl

theorem copiesPin_renamePin (host : Graph) (h : fragment.WellFormed) (hlinked : fragment.Linked)
    (hpin : fragment.pin? p = some pin) :
    (remapInto host fragment).CopiesPin pin ((remapInto host fragment).renamePin p
      (((remapInto host fragment).node? pin.owner).getD pin.owner) pin) where
  owner := by
    obtain ⟨n', hn', -⟩ := isSome_node?_remapInto host h (h.owner_mem_order hpin)
    rw [Remap.renamePin, hn']
    rfl
  name := rfl
  direction := rfl
  ty := rfl
  defaultValue := rfl
  defaultObject := rfl
  links := by
    -- a link leads to a pin that is there, so none is dropped
    refine forall₂_filterMap fun q hq ↦ (pin?_remapInto_iff h).2 (h.mem_livePins.2 ?_)
    obtain ⟨pin', hpin', -⟩ := hlinked p q pin hpin hq
    exact ⟨pin', hpin'⟩

end Merging

/-! ## Merging -/

/-- Merging a well-formed fragment puts a copy of it behind the host. -/
theorem adjoins_mergeFragment (host : Graph) {fragment : Graph} (h : fragment.WellFormed)
    (hlinked : fragment.Linked) :
    Adjoins host fragment (host.mergeFragment fragment).1 (host.mergeFragment fragment).2 where
  name := rfl
  node?_iff n := (node?_remapInto_iff h).trans (h.mem_order n)
  pin?_iff p := (pin?_remapInto_iff h).trans h.exists_pinsOf_iff.symm
  node?_inj m n n' hm hn := node?_remapInto_inj host h ((node?_remapInto_iff h).1 ⟨n', hm⟩)
    ((node?_remapInto_iff h).1 ⟨n', hn⟩) (hm.trans hn.symm)
  pin?_inj p q q' hp hq := pin?_remapInto_inj h hp hq
  node?_fresh n n' hn := size_le_of_remapInto hn
  pin?_fresh p p' hp := size_le_of_pin?_remapInto hp
  host_node? n hn := node?_mergeFragment_host fragment hn
  host_pin? p hp := pin?_mergeFragment_host hp h
  order := by
    refine ⟨fragment.order.filterMap (remapInto host fragment).node?, ?_,
      forall₂_filterMap fun n hn ↦ (node?_remapInto_iff h).2 hn⟩
    rw [order_mergeFragment h, filterMap_node?_remapInto h]
  copy_node? n n' hn := by
    obtain ⟨node, hnode⟩ := Option.isSome_iff_exists.1
      ((h.mem_order n).1 ((node?_remapInto_iff h).1 ⟨n', hn⟩))
    obtain ⟨m, hm, -, hcopy⟩ := node?_mergeFragment_body host h hnode
    obtain rfl : m = n' := Option.some.inj (hm.symm.trans hn)
    have hlive : node ∈ fragment.liveNodes := h.mem_liveNodes.2 (by rwa [h.id_eq n node hnode])
    refine ⟨node, _, hnode, hcopy, ?_, copiesNode_renameNode host h hlive⟩
    rw [Remap.renameNode, h.id_eq n node hnode, hm]
    rfl
  copy_pin? p p' hp := by
    obtain ⟨pin, hpin⟩ := h.mem_livePins.1 (mem_livePins_of_remapInto hp)
    obtain ⟨q, hq, -, hcopy⟩ := pin?_mergeFragment_body host h hpin
    obtain rfl : q = p' := Option.some.inj (hq.symm.trans hp)
    refine ⟨pin, _, hpin, hcopy, ?_, copiesPin_renamePin host h hlinked hpin⟩
    rw [Remap.renamePin, hq]
    rfl
  node?_cases n' node' hn := by
    rcases node?_mergeFragment_eq_some.1 hn with hhost | ⟨i, old, hold, rfl, -⟩
    · exact .inl hhost
    · exact .inr ⟨old.id, node?_remapInto h hold⟩
  pin?_cases p' pin' hp := by
    rcases pin?_mergeFragment_cases h hp with hhost | ⟨p, -, hnew, -⟩
    · exact .inl hhost
    · exact .inr ⟨p, hnew⟩

/-- Two branches, the second of which comes first and leads to the other, with a gap between. -/
def gapped : Graph := (empty "Gapped").runAll [.spawn .branch, .spawn .branch, .spawn .branch,
  .connect ⟨2⟩ PinName.thenOut ⟨0⟩ PinName.execute, .removeNode ⟨1⟩, .setOrder [⟨2⟩] (by decide)]

/-- A copy of the host itself: the copies are numbered as they are listed, without the gap. -/
theorem adjoins_mergeFragment_itself :
    (gapped.copyAs "Copy").WellFormed ∧ (gapped.copyAs "Copy").Linked ∧
    Adjoins gapped (gapped.copyAs "Copy") (gapped.mergeFragment (gapped.copyAs "Copy")).1
      (gapped.mergeFragment (gapped.copyAs "Copy")).2 ∧
    (gapped.mergeFragment (gapped.copyAs "Copy")).2.order = [⟨2⟩, ⟨0⟩, ⟨3⟩, ⟨4⟩] ∧
    (gapped.mergeFragment (gapped.copyAs "Copy")).2.linksOf ⟨14⟩ = [⟨16⟩] := by
  have hwf : (gapped.copyAs "Copy").WellFormed := by decide
  have hlinked : (gapped.copyAs "Copy").Linked := by decide
  exact ⟨hwf, hlinked, adjoins_mergeFragment gapped hwf hlinked, by decide, by decide⟩

end Graph

end VisualScript
