import VisualScript.Proofs.Graph.Linking
import VisualScript.Proofs.Macros.Places

/-!
# Expanding an instance is transparent

Where an instance is replaced without an error, the host keeps its other nodes and
gets a copy of every node of the body but the tunnels.  Two pins are linked then if
and only if a wire path led from the one to the other through the boundary.
-/

namespace VisualScript

open VisualScript.Graph

/-- The graph `g` is the host with the instance replaced by the body. -/
structure Expanded (host body : Graph) (inst : NodeId) (r : Remap) (g : Graph) : Prop where
  /-- The other nodes, an array for each unwired array input, and the copies of the body. -/
  order : g.order = host.order.filter (· ≠ inst) ++
    (List.range (host.unlinkedArrays inst).length).map (fun i ↦ ⟨host.nodes.size + i⟩) ++
    (body.order.filter fun n ↦ !body.kindIs n (·.isTunnel)).filterMap r.node?
  kept : ∀ n ∈ host.order, n ≠ inst → g.node? n = host.node? n ∧
    ∀ p ∈ host.pinsOf n, (g.pin? p).map Pin.unwired = (host.pin? p).map Pin.unwired
  arrays : ∀ (i : Nat) (p : PinId), (host.unlinkedArrays inst)[i]? = some p →
    ∃ pin, host.pin? p = some pin ∧
      g.kind? ⟨host.nodes.size + i⟩ = some (.makeArray pin.ty.element 0) ∧
      g.pinsOf ⟨host.nodes.size + i⟩ = [Place.name host inst r (.array p)]
  copied : ∀ n node, body.node? n = some node → body.kindIs n (·.isTunnel) = false →
    ∃ n', r.node? n = some n' ∧ g.kind? n' = some node.kind ∧
      g.pinsOf n' = node.pins.map (fun p ↦ Place.name host inst r (.body p)) ∧
      ∀ p ∈ node.pins, ∃ pin pin', body.pin? p = some pin ∧
        g.pin? (Place.name host inst r (.body p)) = some pin' ∧ pin'.owner = n' ∧
        pin'.name = pin.name ∧ pin'.direction = pin.direction ∧ pin'.ty = pin.ty
  pins : ∀ p, (g.pin? p).isSome = true ↔
    ∃ a : Place, a.Survives host body inst ∧ a.name host inst r = p
  /-- An output is linked to an input if and only if a wire path leads from it to that. -/
  links : ∀ a b : Place, a.Survives host body inst → b.Survives host body inst →
    (g.Feeds (a.name host inst r) (b.name host inst r) ↔
      WirePath (Place.Wire host body inst) (Place.Meets host body inst) a b)
  /-- An input that ends without links stands for what a boundary pin stands for at which a path
  to it starts, if what leads to it from the boundary has a counterpart there. -/
  defaults : ∀ b : Place, b.Survives host body inst → (∃ a, Place.Wire host body inst a b) →
    g.linksOf (b.name host inst r) = [] →
    (∀ a, WirePath (Place.Wire host body inst) (Place.Meets host body inst) a b →
      ¬a.Survives host body inst → ∃ x, Place.Meets host body inst x a) →
    ∃ x, WirePath.StartsAt (Place.Wire host body inst) (Place.Meets host body inst) x b ∧
      g.defaultsOf? (b.name host inst r) = x.defaults host body

namespace Graph.Laid

section Outcome

variable {host body g₁ u g : Graph} {inst : NodeId} (h : Laid host body inst g₁ u)
include h

theorem isSome_pin? {a : Place} (ha : a.Known host body inst) :
    (u.pin? (a.name host inst (remapInto g₁ body))).isSome = true := by
  cases a with
  | host p =>
    obtain ⟨pin, hpin⟩ := ha
    have hface := congrArg Option.isSome (h.pin_host (lt_of_pin?_eq_some hpin)).1
    rwa [Option.isSome_map, Option.isSome_map, hpin] at hface
  | body p =>
    obtain ⟨pin, hpin⟩ := ha
    rw [(h.pin_body hpin).2.2]
    rfl
  | array p =>
    obtain ⟨pin, hpin, -⟩ := ownerOf?_eq_some.1 (h.owner_array ha)
    rw [hpin]
    rfl

theorem defaultsOf? {a : Place} (ha : a.Known host body inst)
    (harray : ∀ p, a ≠ .array p) :
    u.defaultsOf? (a.name host inst (remapInto g₁ body)) = a.defaults host body := by
  cases a with
  | host p =>
    obtain ⟨pin, hpin⟩ := ha
    exact (h.pin_host (lt_of_pin?_eq_some hpin)).2
  | body p =>
    obtain ⟨pin, hpin⟩ := ha
    rw [Graph.defaultsOf?, (h.pin_body hpin).2.2, Place.defaults, Graph.defaultsOf?, hpin]
    rfl
  | array p => exact absurd rfl (harray p)

/-- The nodes that are left when tunnels and instance are gone. -/
theorem order_eq : u.order.filter (· ∉
      copiedTunnels g₁ body u ++ [inst]) =
    host.order.filter (· ≠ inst) ++
      (List.range (host.unlinkedArrays inst).length).map (fun i ↦ ⟨host.nodes.size + i⟩) ++
      (body.order.filter fun n ↦ !body.kindIs n (·.isTunnel)).filterMap
        (remapInto g₁ body).node? := by
  have hinst : inst.index < host.nodes.size := lt_of_isSome_node? h.live
  have hsize := h.arrays.nodes_size
  rw [h.dressed.order, order_mergeFragment h.bodyFormed, h.arrays.order, List.filter_append,
    List.filter_append, ← filterMap_node?_remapInto h.bodyFormed]
  congr 1
  · congr 1
    · refine List.filter_congr fun n hn ↦ ?_
      have hlt : n.index < host.nodes.size := lt_of_isSome_node? ((h.hostFormed.mem_order n).1 hn)
      simp [h.not_mem_tunnels (show n.index < g₁.nodes.size by omega)]
    · refine List.filter_eq_self.2 fun n hn ↦ ?_
      obtain ⟨i, hi, rfl⟩ := List.mem_map.1 hn
      have hlt := List.mem_range.1 hi
      have hne : (⟨host.nodes.size + i⟩ : NodeId) ≠ inst := by
        rintro rfl
        exact absurd hinst (by simp)
      have hfresh := h.not_mem_tunnels (n := ⟨host.nodes.size + i⟩)
        (by rw [hsize]; exact Nat.add_lt_add_left hlt _)
      simp [hfresh, hne]
  · rw [List.filter_filterMap, List.filterMap_filter]
    refine List.filterMap_congr fun n hn ↦ ?_
    obtain ⟨n', hname, hle⟩ := isSome_node?_remapInto g₁ h.bodyFormed hn
    have hne : n' ≠ inst := by
      rintro rfl
      omega
    have hmem : n' ∈ copiedTunnels g₁ body u ↔
        body.kindIs n (·.isTunnel) = true := by
      rw [h.mem_tunnels]
      constructor
      · rintro ⟨m, hm, hname', hkind⟩
        rwa [← node?_remapInto_inj g₁ h.bodyFormed hm hn (hname'.trans hname.symm)]
      · exact fun hkind ↦ ⟨n, hn, hname, hkind⟩
    rw [hname]
    cases hkind : body.kindIs n (·.isTunnel) with
    | true => simp [hmem.2 hkind, Option.filter]
    | false =>
      have hnot : n' ∉ copiedTunnels g₁ body u := by
        rw [hmem, hkind]
        exact Bool.false_ne_true
      simp [hnot, hne, Option.filter]

/-! ### When the tunnels are collapsed and the instance is removed -/

section Collapsed

variable (hcollapsed : Expansion.Collapsed u inst
    (copiedTunnels g₁ body u)
    ((copiedTunnels g₁ body u).flatMap u.pinsOf)
    (copiedTunnels g₁ body u ++ [inst])
    (fun p ↦ p ∈ (copiedTunnels g₁ body u).flatMap u.pinsOf ∨ p ∈ u.pinsOf inst) g)

theorem not_gone {a : Place} (ha : a.Survives host body inst) :
    ¬(a.name host inst (remapInto g₁ body) ∈ (copiedTunnels g₁ body u).flatMap u.pinsOf ∨
      a.name host inst (remapInto g₁ body) ∈ u.pinsOf inst) :=
  not_or.2 ((h.survives_iff ha.known).1 ha)

theorem not_mem_removed {n : NodeId} (hn : n.index < g₁.nodes.size) (hne : n ≠ inst) :
    n ∉ copiedTunnels g₁ body u ++ [inst] := by
  rw [List.mem_append, List.mem_singleton, not_or]
  exact ⟨h.not_mem_tunnels hn, hne⟩

include hcollapsed

/-- The other nodes of the host stay. -/
theorem kept_of_collapsed {n : NodeId} (hn : n ∈ host.order) (hne : n ≠ inst) :
    g.node? n = host.node? n ∧
      ∀ p ∈ host.pinsOf n, (g.pin? p).map Pin.unwired = (host.pin? p).map Pin.unwired := by
  have hlt : n.index < host.nodes.size := lt_of_isSome_node? ((h.hostFormed.mem_order n).1 hn)
  have hsize := h.arrays.nodes_size
  refine ⟨?_, fun p hp ↦ ?_⟩
  · rw [hcollapsed.nodes n (h.not_mem_removed (by omega) hne), h.node_host hlt]
  · obtain ⟨pin, hpin, howner⟩ := ownerOf?_eq_some.1 ((h.hostFormed.mem_pinsOf n p).1 hp)
    have hsurvives : (Place.host p).Survives host body inst := ⟨pin, hpin, howner ▸ hne⟩
    exact (hcollapsed.pins p (h.not_gone hsurvives)).trans
      (h.pin_host (lt_of_pin?_eq_some hpin)).1

/-- Each unwired array input has its empty array. -/
theorem array_of_collapsed {i : Nat} {p : PinId} (hp : (host.unlinkedArrays inst)[i]? = some p) :
    ∃ pin, host.pin? p = some pin ∧
      g.kind? ⟨host.nodes.size + i⟩ = some (.makeArray pin.ty.element 0) ∧
      g.pinsOf ⟨host.nodes.size + i⟩ =
        [Place.name host inst (remapInto g₁ body) (.array p)] := by
  have hinst : inst.index < host.nodes.size := lt_of_isSome_node? h.live
  obtain ⟨hlt, rfl⟩ := List.getElem?_eq_some_iff.1 hp
  obtain ⟨pin, hpin, hkind, hpins, -⟩ := h.arrays.arrays i _ hp
  have hindex : (⟨host.nodes.size + i⟩ : NodeId).index < g₁.nodes.size := by
    rw [h.arrays.nodes_size]
    exact Nat.add_lt_add_left hlt _
  have hne : (⟨host.nodes.size + i⟩ : NodeId) ≠ inst := by
    intro heq
    have hi := congrArg NodeId.index heq
    dsimp only at hi
    omega
  have hnode := hcollapsed.nodes _ (h.not_mem_removed hindex hne)
  have hmerged := node?_mergeFragment_host body hindex
  refine ⟨pin, hpin, ?_, ?_⟩
  · rw [kind?, hnode, ← kind?, h.dressed.kind?_eq, kind?, hmerged, ← kind?, hkind]
  · rw [pinsOf, hnode, ← pinsOf, h.dressed.pinsOf_eq, pinsOf, hmerged, ← pinsOf, hpins,
      Place.name, h.nodup_arrays.idxOf_getElem]

/-- The pins of a copied node look like those that they are copies of. -/
theorem pin_of_collapsed {n n' : NodeId} {p : PinId} (hname : (remapInto g₁ body).node? n = some n')
    (hkind : body.kindIs n (·.isTunnel) = false) (hp : p ∈ body.pinsOf n) :
    ∃ pin pin', body.pin? p = some pin ∧
      g.pin? (Place.name host inst (remapInto g₁ body) (.body p)) = some pin' ∧ pin'.owner = n' ∧
      pin'.name = pin.name ∧ pin'.direction = pin.direction ∧ pin'.ty = pin.ty := by
  obtain ⟨pin, hpin, howner⟩ := ownerOf?_eq_some.1 ((h.bodyFormed.mem_pinsOf n p).1 hp)
  have hsurvives : (Place.body p).Survives host body inst := ⟨pin, hpin, howner ▸ hkind⟩
  have hface := hcollapsed.pins _ (h.not_gone hsurvives)
  rw [(h.pin_body hpin).2.2, Option.map_some] at hface
  obtain ⟨pin', hpin', hunwired⟩ := Option.map_eq_some_iff.1 hface
  have howner' : pin'.owner = n' := by
    have heq : pin'.owner = ((remapInto g₁ body).node? pin.owner).getD pin.owner :=
      (congrArg Pin.owner hunwired :)
    rw [heq, howner, hname, Option.getD_some]
  exact ⟨pin, pin', hpin, hpin', howner', (congrArg Pin.name hunwired :),
    (congrArg Pin.direction hunwired :), (congrArg Pin.ty hunwired :)⟩

/-- Each node of the body but the tunnels has its copy. -/
theorem copied_of_collapsed {n : NodeId} {node : Node} (hnode : body.node? n = some node)
    (hkind : body.kindIs n (·.isTunnel) = false) :
    ∃ n', (remapInto g₁ body).node? n = some n' ∧ g.kind? n' = some node.kind ∧
      g.pinsOf n' = node.pins.map (fun p ↦ Place.name host inst (remapInto g₁ body) (.body p)) ∧
      ∀ p ∈ node.pins, ∃ pin pin', body.pin? p = some pin ∧
        g.pin? (Place.name host inst (remapInto g₁ body) (.body p)) = some pin' ∧
        pin'.owner = n' ∧ pin'.name = pin.name ∧ pin'.direction = pin.direction ∧
        pin'.ty = pin.ty := by
  have hinst : inst.index < host.nodes.size := lt_of_isSome_node? h.live
  have hsize := h.arrays.nodes_size
  obtain ⟨n', hname, hle, hmerged⟩ := node?_mergeFragment_body g₁ h.bodyFormed hnode
  have hn : n ∈ body.order := (h.bodyFormed.mem_order n).2 (by rw [hnode]; rfl)
  have hnot : n' ∉ copiedTunnels g₁ body u ++ [inst] := by
    rw [List.mem_append, List.mem_singleton, not_or, h.mem_tunnels]
    refine ⟨?_, ?_⟩
    · rintro ⟨m, hm, hname', hkind'⟩
      obtain rfl := node?_remapInto_inj g₁ h.bodyFormed hm hn (hname'.trans hname.symm)
      rw [hkind] at hkind'
      cases hkind'
    · rintro rfl
      omega
  have hstill := hcollapsed.nodes n' hnot
  refine ⟨n', hname, ?_, ?_, fun p hp ↦ h.pin_of_collapsed hcollapsed hname hkind ?_⟩
  · rw [kind?, hstill, ← kind?, h.dressed.kind?_eq, kind?, hmerged]
    rfl
  · rw [pinsOf, hstill, ← pinsOf, h.dressed.pinsOf_eq, pinsOf, hmerged]
    rfl
  · rw [pinsOf, hnode]
    exact hp

/-- The pins that are left are those of places that survive. -/
theorem isSome_pin?_iff_of_collapsed {p : PinId} : (g.pin? p).isSome = true ↔
    ∃ a : Place, a.Survives host body inst ∧ a.name host inst (remapInto g₁ body) = p := by
  constructor
  · intro hp
    obtain ⟨pin, hpin⟩ := Option.isSome_iff_exists.1 hp
    have hlive := hcollapsed.wellFormed.owner_mem_order hpin
    have howner := (hcollapsed.wellFormed.mem_pinsOf _ p).2 (ownerOf?_of_pin? hpin)
    rw [hcollapsed.order, List.mem_filter, decide_eq_true_eq] at hlive
    rw [pinsOf, hcollapsed.nodes _ hlive.2, ← pinsOf, h.wellFormed.mem_pinsOf] at howner
    obtain ⟨pin', hpin', -⟩ := ownerOf?_eq_some.1 howner
    obtain ⟨a, ha, rfl⟩ := h.exists_place hpin'
    refine ⟨a, (h.survives_iff ha).2 ⟨fun hmem ↦ ?_, fun hmem ↦ ?_⟩, rfl⟩
    · obtain ⟨tunnel, htunnel, hmem⟩ := List.mem_flatMap.1 hmem
      rw [h.wellFormed.mem_pinsOf, howner, Option.some.injEq] at hmem
      exact hlive.2 (List.mem_append_left _ (hmem ▸ htunnel))
    · rw [h.wellFormed.mem_pinsOf, howner, Option.some.injEq] at hmem
      exact hlive.2 (List.mem_append_right _ (List.mem_singleton.2 hmem))
  · rintro ⟨a, ha, rfl⟩
    have hface := congrArg Option.isSome (hcollapsed.pins _ (h.not_gone ha))
    rw [Option.isSome_map, Option.isSome_map] at hface
    exact hface.trans (h.isSome_pin? ha.known)

theorem feeds_iff_of_collapsed {a b : Place} (ha : a.Survives host body inst)
    (hb : b.Survives host body inst) :
    g.Feeds (a.name host inst (remapInto g₁ body)) (b.name host inst (remapInto g₁ body)) ↔
      WirePath (Place.Wire host body inst) (Place.Meets host body inst) a b := by
  rw [hcollapsed.feeds, h.renames.path_iff ha.known hb.known]
  exact ⟨fun hpath ↦ hpath.2.2, fun hpath ↦ ⟨h.not_gone ha, h.not_gone hb, hpath⟩⟩

/-- An input that ends without links takes the literal of the boundary, where all that leads to it
from the boundary has a counterpart there. -/
theorem defaults_of_collapsed {a b : Place} (hb : b.Survives host body inst)
    (hab : Place.Wire host body inst a b)
    (hunlinked : g.linksOf (b.name host inst (remapInto g₁ body)) = [])
    (hmatched : ∀ a, WirePath (Place.Wire host body inst) (Place.Meets host body inst) a b →
      ¬a.Survives host body inst → ∃ x, Place.Meets host body inst x a) :
    ∃ x, WirePath.StartsAt (Place.Wire host body inst) (Place.Meets host body inst) x b ∧
      g.defaultsOf? (b.name host inst (remapInto g₁ body)) = x.defaults host body := by
  -- nothing that is left leads to the input
  have hleft {s : Place} (hs : WirePath (Place.Wire host body inst) (Place.Meets host body inst) s b) :
      ¬s.Survives host body inst := by
    intro hsurvives
    have hback := (hcollapsed.linked.feeds
      ((h.feeds_iff_of_collapsed hcollapsed hsurvives hb).2 hs)).2.1
    rw [hunlinked] at hback
    cases hback
  have hwire := (h.wire_known hab).1
  obtain ⟨x, hxa⟩ := hmatched a (.wire hab) (hleft (.wire hab))
  have hsources (s : PinId) (hs : WirePath u.Feeds
      (Expansion.joints u inst (copiedTunnels g₁ body u) ((copiedTunnels g₁ body u).flatMap u.pinsOf))
      s (b.name host inst (remapInto g₁ body))) : ∃ y, Expansion.joints u inst
        (copiedTunnels g₁ body u) ((copiedTunnels g₁ body u).flatMap u.pinsOf) y s := by
    obtain ⟨first, hfirst⟩ := hs.exists_first
    obtain ⟨c, d, hcd, rfl, -⟩ := h.feeds_iff.1 hfirst
    have hpath := (h.renames.path_iff (h.wire_known hcd).1 hb.known).1 hs
    obtain ⟨y, hy⟩ := hmatched c hpath (hleft hpath)
    exact ⟨_, h.joints_iff.2 ⟨y, c, hy, rfl, rfl⟩⟩
  obtain ⟨q, hstart, hdefaults⟩ := hcollapsed.filled _ (h.not_gone hb)
    ⟨_, _, h.joints_iff.2 ⟨x, a, hxa, rfl, rfl⟩, (h.renames.path_iff hwire hb.known).2 (.wire hab)⟩
    hsources
  obtain ⟨c, hc, rfl, hplaces⟩ := h.renames.startsAt_of_image hb.known hstart
  refine ⟨c, hplaces, hdefaults.trans (h.defaultsOf? hc ?_)⟩
  rintro p rfl
  obtain ⟨-, y, hjoint, -⟩ := hplaces
  cases hjoint

/-- The instance is replaced. -/
theorem expanded : Expanded host body inst (remapInto g₁ body) g where
  order := hcollapsed.order.trans h.order_eq
  kept _ hn hne := h.kept_of_collapsed hcollapsed hn hne
  arrays _ _ hp := h.array_of_collapsed hcollapsed hp
  copied _ _ hnode hkind := h.copied_of_collapsed hcollapsed hnode hkind
  pins _ := h.isSome_pin?_iff_of_collapsed hcollapsed
  links _ _ ha hb := h.feeds_iff_of_collapsed hcollapsed ha hb
  defaults _ hb hwired hunlinked hmatched := by
    obtain ⟨a, hab⟩ := hwired
    exact h.defaults_of_collapsed hcollapsed hb hab hunlinked hmatched

end Collapsed

end Outcome

end Graph.Laid

/-! ## Bodies -/

/-- Resolving the wildcards of a body changes nothing but types. -/
theorem pin?_macroBody (source : Graph) (data : MacroData) (p : PinId) : ∃ ty : Pin → PinType,
    (source.macroBody data).pin? p = (source.pin? p).map fun pin ↦ { pin with ty := ty pin } := by
  have hkeep : ∃ ty : Pin → PinType,
      source.pin? p = (source.pin? p).map fun pin ↦ { pin with ty := ty pin } :=
    ⟨Pin.ty, by cases source.pin? p <;> rfl⟩
  have hresolve (resolved : PinType) (ps : List PinId) (g : Graph)
      (h : ∃ ty : Pin → PinType,
        g.pin? p = (source.pin? p).map fun pin ↦ { pin with ty := ty pin }) :
      ∃ ty : Pin → PinType, (ps.foldl (fun g p ↦ g.modifyPin p fun pin ↦
        if pin.ty.isWildcard then { pin with ty := pin.ty.resolveWildcard resolved } else pin)
          g).pin? p = (source.pin? p).map fun pin ↦ { pin with ty := ty pin } := by
    induction ps generalizing g with
    | nil => exact h
    | cons q ps ih =>
      refine ih _ ?_
      obtain ⟨ty, hty⟩ := h
      rw [pin?_modifyPin, hty]
      split
      · refine ⟨fun pin ↦ if (ty pin).isWildcard then (ty pin).resolveWildcard resolved else ty pin, ?_⟩
        cases source.pin? p with
        | none => rfl
        | some pin =>
          simp only [Option.map_some, Option.some.injEq]
          split <;> rfl
      · exact ⟨ty, rfl⟩
  unfold macroBody
  dsimp only
  split
  · exact hresolve _ _ (source.copyAs (source.name ++ "_expansion")) hkeep
  · exact hkeep

theorem Graph.Linked.macroBody {source : Graph} (h : source.Linked) (data : MacroData) :
    (source.macroBody data).Linked := by
  intro p q pin hpin hlink
  obtain ⟨ty, hp⟩ := pin?_macroBody source data p
  obtain ⟨ty', hq⟩ := pin?_macroBody source data q
  rw [hp] at hpin
  obtain ⟨old, hold, rfl⟩ := Option.map_eq_some_iff.1 hpin
  obtain ⟨pin', hpin', hback, hne⟩ := h p q old hold hlink
  rw [hq, hpin']
  exact ⟨_, rfl, hback, hne⟩

/-! ## Expanding -/

namespace Expansion

/-- The host with the arrays and the body in it, before a tunnel is collapsed. -/
def laid (e : Expansion) (source body : Graph) (inst : NodeId) : Expansion :=
  ({ e.addEmptyArrays inst with
    graph := ((e.addEmptyArrays inst).graph.mergeFragment body).2 }.recordCopies source body inst
      (remapInto (e.addEmptyArrays inst).graph body)).placeCopies source inst
        (body.order.filterMap (remapInto (e.addEmptyArrays inst).graph body).node?) false

theorem dressed_laid (e : Expansion) (source body : Graph) (inst : NodeId) :
    Dressed (body.order.filterMap (remapInto (e.addEmptyArrays inst).graph body).node?)
      ((e.addEmptyArrays inst).graph.mergeFragment body).2 (e.laid source body inst).graph ∧
    (e.laid source body inst).log.numErrors = (e.addEmptyArrays inst).log.numErrors := by
  have hrecord := dressed_recordCopies
    { e.addEmptyArrays inst with graph := ((e.addEmptyArrays inst).graph.mergeFragment body).2 }
    source body inst (remapInto (e.addEmptyArrays inst).graph body)
  have hplace := dressed_placeCopies ({ e.addEmptyArrays inst with
      graph := ((e.addEmptyArrays inst).graph.mergeFragment body).2 }.recordCopies source body inst
      (remapInto (e.addEmptyArrays inst).graph body)) source inst
        (body.order.filterMap (remapInto (e.addEmptyArrays inst).graph body).node?)
  exact ⟨hrecord.1.trans hplace.1, (congrArg MessageLog.numErrors hplace.2).trans hrecord.2⟩

section Expanding

variable {e : Expansion} {macros : List Graph} {inst : NodeId} {data : MacroData} {source : Graph}
  (hkind : e.graph.kind? inst = some (.macroInstance data))
include hkind

/-- The body is laid beside the instance, its tunnels are collapsed and the instance goes. -/
theorem expandInstance_eq (hsource : macros.find? (·.name == data.macroGraph) = some source) :
    let e' := (copiedTunnels (e.addEmptyArrays inst).graph (source.macroBody data)
      (e.laid source (source.macroBody data) inst).graph).foldl (collapseTunnel inst)
        (e.laid source (source.macroBody data) inst)
    expandInstance macros false e inst = { e' with graph := e'.graph.removeNode inst } := by
  unfold expandInstance
  rw [hkind]
  dsimp only
  rw [hsource]
  rfl

theorem laid_ok {body : Graph} (hwf : e.graph.WellFormed) (hlinked : e.graph.Linked)
    (hbody : body.WellFormed) (hbodyLinked : body.Linked)
    (hquiet : (e.addEmptyArrays inst).log.numErrors ≤ e.log.numErrors) :
    Laid e.graph body inst (e.addEmptyArrays inst).graph (e.laid source body inst).graph where
  hostFormed := hwf
  hostLinked := hlinked
  live := by
    obtain ⟨node, hnode, -⟩ := Option.map_eq_some_iff.1 hkind
    rw [contains, hnode]
    rfl
  arrays := withArrays_addEmptyArrays hwf hlinked hquiet
  bodyFormed := hbody
  bodyLinked := hbodyLinked
  dressed := (dressed_laid e source body inst).1

/-- Where expanding an instance reports no error, the instance is replaced by the body: every
other node stays, every node of the body but the tunnels is copied, and pins are linked as the
wire paths through the boundary say. -/
theorem expanded_expandInstance
    (hsource : macros.find? (·.name == data.macroGraph) = some source)
    (hwf : e.graph.WellFormed) (hlinked : e.graph.Linked)
    (hsourceFormed : source.WellFormed) (hsourceLinked : source.Linked)
    (hquiet : (expandInstance macros false e inst).log.numErrors ≤ e.log.numErrors) :
    Expanded e.graph (source.macroBody data) inst
      (remapInto (e.addEmptyArrays inst).graph (source.macroBody data))
      (expandInstance macros false e inst).graph := by
  have hbody := hsourceFormed.macroBody data
  have hcollapse := le_numErrors_foldl (le_numErrors_collapseTunnel inst)
    (copiedTunnels (e.addEmptyArrays inst).graph (source.macroBody data)
      (e.laid source (source.macroBody data) inst).graph) (e.laid source (source.macroBody data) inst)
  have hsame := (dressed_laid e source (source.macroBody data) inst).2
  have harrays : e.log.numErrors ≤ (e.addEmptyArrays inst).log.numErrors :=
    le_numErrors_foldl (le_numErrors_addEmptyArray inst) _ e
  rw [expandInstance_eq hkind hsource] at hquiet ⊢
  dsimp only at hquiet ⊢
  have hlaid : Laid e.graph (source.macroBody data) inst (e.addEmptyArrays inst).graph
      (e.laid source (source.macroBody data) inst).graph :=
    laid_ok hkind hwf hlinked hbody (hsourceLinked.macroBody data) (by omega)
  have hnot (entry : Bool) : e.graph.kind? inst ≠ some (.tunnel entry) := by
    rw [hkind]
    exact fun heq ↦ NodeKind.noConfusion (Option.some.inj heq)
  have hready := hlaid.ready hnot
  have hinst : inst ∉ copiedTunnels (e.addEmptyArrays inst).graph (source.macroBody data)
      (e.laid source (source.macroBody data) inst).graph := by
    refine hlaid.not_mem_tunnels ?_
    rw [hlaid.arrays.nodes_size]
    exact Nat.lt_add_right _ (lt_of_isSome_node? hlaid.live)
  have hcollapsed := Collapsed.collapseAll hready (fun _ ↦ hlaid.kind_of_mem_tunnels)
    hlaid.nodup_tunnels hinst (by omega)
  have hlive : (e.laid source (source.macroBody data) inst).graph.contains inst = true := by
    rw [contains, hlaid.node_host (lt_of_isSome_node? hlaid.live), ← contains, hlaid.live]
  exact hlaid.expanded (hcollapsed.remove hlive hinst)

end Expanding

/-! ### A relay -/

/-- A macro that makes a call and passes a value on. -/
def relay : Graph :=
  let (entry, g) := (Graph.empty "Relay").spawn (.tunnel true)
  let (start, g) := g.allocPin entry .output { name := "Exec", ty := .exec }
  let (count, g) := g.allocPin entry .output { name := "Count", ty := .int }
  let (_, g) := g.spawn (.callFunction { function := "Inner" })
  let (exit, g) := g.spawn (.tunnel false)
  let (done, g) := g.allocPin exit .input { name := "Done", ty := .exec }
  let (total, g) := g.allocPin exit .input { name := "Total", ty := .int }
  (g.linkPairs [(start, ⟨2⟩), (⟨3⟩, done), (count, total)]).1

/-- A function that runs the macro with a literal and hands on what it returns. -/
def relaying : Expansion :=
  let (inst, g) := (Graph.empty "F").spawn (.macroInstance { macroGraph := "Relay" })
  let (start, g) := g.allocPin inst .input { name := "Exec", ty := .exec }
  let (_, g) := g.allocPin inst .input { name := "Count", ty := .int, defaultValue := "7" }
  let (_, g) := g.allocPin inst .input { name := "Items", ty := PinType.int.arrayOf }
  let (done, g) := g.allocPin inst .output { name := "Done", ty := .exec }
  let (total, g) := g.allocPin inst .output { name := "Total", ty := .int }
  let (_, g) := g.spawn (.functionEntry {})
  let (call, g) := g.spawn (.callFunction { function := "Show" })
  let (value, g) := g.allocPin call .input { name := "Value", ty := .int }
  { graph := (g.linkPairs [(⟨5⟩, start), (done, ⟨6⟩), (total, value)]).1, log := {} }

theorem expanded_expandInstance_relay :
    relaying.graph.kind? ⟨0⟩ = some (.macroInstance { macroGraph := "Relay" }) ∧
    [relay].find? (·.name == "Relay") = some relay ∧
    relaying.graph.WellFormed ∧ relaying.graph.Linked ∧ relay.WellFormed ∧ relay.Linked ∧
    (expandInstance [relay] false relaying ⟨0⟩).log.numErrors ≤ relaying.log.numErrors ∧
    Expanded relaying.graph (relay.macroBody { macroGraph := "Relay" }) ⟨0⟩
      (remapInto (relaying.addEmptyArrays ⟨0⟩).graph (relay.macroBody { macroGraph := "Relay" }))
      (expandInstance [relay] false relaying ⟨0⟩).graph := by
  have hkind : relaying.graph.kind? ⟨0⟩ = some (.macroInstance { macroGraph := "Relay" }) := rfl
  have hsource : [relay].find? (·.name == "Relay") = some relay := rfl
  have hwf : relaying.graph.WellFormed := by decide +kernel
  have hlinked : relaying.graph.Linked := by decide +kernel
  have hrelay : relay.WellFormed := by decide +kernel
  have hrelayLinked : relay.Linked := by decide +kernel
  have hquiet : (expandInstance [relay] false relaying ⟨0⟩).log.numErrors ≤
      relaying.log.numErrors := by decide +kernel
  exact ⟨hkind, hsource, hwf, hlinked, hrelay, hrelayLinked, hquiet,
    expanded_expandInstance hkind hsource hwf hlinked hrelay hrelayLinked hquiet⟩

/-! ### A stale instance -/

/-- A macro whose exit has no pins. -/
def answer : Graph :=
  ((Graph.empty "Answer").spawn (.tunnel false)).2

/-- A function with an instance of the macro that still has an output, wired to a call. -/
def stale : Expansion :=
  let (inst, g) := (Graph.empty "F").spawn (.macroInstance { macroGraph := "Answer" })
  let (value, g) := g.allocPin inst .output { name := "Value", ty := .int, defaultValue := "9" }
  let (call, g) := g.spawn (.callFunction { function := "Show" })
  let (arg, g) := g.allocPin call .input { name := "Value", ty := .int, defaultValue := "5" }
  { graph := (g.linkPairs [(value, arg)]).1, log := {} }

/-- An output of the instance without a counterpart in the body is dropped without an error: the
input it was wired to is left with its own literal. -/
theorem not_defaults_stale :
    stale.graph.kind? ⟨0⟩ = some (.macroInstance { macroGraph := "Answer" }) ∧
    stale.graph.WellFormed ∧ stale.graph.Linked ∧ answer.WellFormed ∧ answer.Linked ∧
    (expandInstance [answer] false stale ⟨0⟩).log.numErrors = 0 ∧
    (Place.host ⟨4⟩).Survives stale.graph (answer.macroBody { macroGraph := "Answer" }) ⟨0⟩ ∧
    (∀ a, Place.Wire stale.graph (answer.macroBody { macroGraph := "Answer" }) ⟨0⟩ a (.host ⟨4⟩) ↔
      a = .host ⟨0⟩) ∧
    (∀ x, ¬Place.Meets stale.graph (answer.macroBody { macroGraph := "Answer" }) ⟨0⟩ x
      (.host ⟨0⟩)) ∧
    (expandInstance [answer] false stale ⟨0⟩).graph.linksOf ⟨4⟩ = [] ∧
    (expandInstance [answer] false stale ⟨0⟩).graph.defaultsOf? ⟨4⟩ ≠
      (Place.host ⟨0⟩).defaults stale.graph (answer.macroBody { macroGraph := "Answer" }) := by
  have hlinked : stale.graph.Linked := by decide +kernel
  have hback : stale.graph.linksOf ⟨4⟩ = [⟨0⟩] := rfl
  have hbody (p : PinId) : (answer.macroBody { macroGraph := "Answer" }).pin? p = none := rfl
  have hfeeds : stale.graph.Feeds ⟨0⟩ ⟨4⟩ := ⟨_, rfl, rfl, List.mem_singleton.2 rfl⟩
  refine ⟨rfl, by decide +kernel, hlinked, by decide +kernel, by decide +kernel, by decide +kernel,
    ⟨_, rfl, by decide⟩, fun a ↦ ⟨fun hwire ↦ ?_, ?_⟩, fun x hmeets ↦ ?_, by decide +kernel,
    by decide +kernel⟩
  · cases hwire with
    | host h =>
      have hsource := (hlinked.feeds h).2.1
      rw [hback, List.mem_singleton] at hsource
      rw [hsource]
    | array h =>
      have hnone : stale.graph.unlinkedArrays ⟨0⟩ = [] := by decide +kernel
      rw [hnone] at h
      cases h
  · rintro rfl
    exact .host hfeeds
  · cases hmeets with
    | exit hpin =>
      rw [hbody] at hpin
      cases hpin

end Expansion

end VisualScript
