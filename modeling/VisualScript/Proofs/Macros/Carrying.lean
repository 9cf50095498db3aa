import VisualScript.Proofs.Macros.Telling

/-!
# Carrying wires over the boundary

Where the expansion of all macros succeeds, every wire to or from a pin of an instance
that a tunnel pin is identified with is carried over: what arrives at the boundary is
wired to all that lies behind it.  A comment that is put around a body changes nothing of
that.
-/

namespace VisualScript

namespace Graph

/-! ## Comments -/

/-- The graph `g'` is `g` with more nodes, none of which has a pin. -/
structure Commented (g g' : Graph) : Prop where
  wellFormed : g'.WellFormed
  pins : g'.pins = g.pins
  nodes : ∀ n, g.contains n = true → g'.node? n = g.node? n

namespace Commented

theorem refl {g : Graph} (h : g.WellFormed) : Commented g g := ⟨h, rfl, fun _ _ ↦ rfl⟩

/-- A comment box is spawned and moved. -/
theorem spawn {g : Graph} (h : g.WellFormed) (label : String) (x y : Int) :
    Commented g ((g.spawnIntermediate (.comment label)).2.setPosition
      (g.spawnIntermediate (.comment label)).1 x y) where
  wellFormed := keptAround_wellFormed.setPosition (h.spawnIntermediate (.comment label)) _ x y
  pins := rfl
  nodes n hn := by
    have hne : (⟨g.nodes.size⟩ : NodeId) ≠ n := by
      rintro rfl
      exact absurd (lt_of_isSome_node? hn) (Nat.lt_irrefl _)
    obtain ⟨i⟩ := n
    have hi : i ≠ g.nodes.size := fun heq ↦ hne (congrArg NodeId.mk heq.symm)
    simp [spawnIntermediate, Graph.spawn, NodeKind.startingPins, setPosition, modifyNode, node?, hi,
      hi.symm]

variable {g g' : Graph} (h : Commented g g') {n inst : NodeId} {p q : PinId}
include h

theorem pin?_eq (p : PinId) : g'.pin? p = g.pin? p := by rw [pin?, h.pins, pin?]

theorem feeds_iff : g'.Feeds p q ↔ g.Feeds p q := by rw [Feeds, h.pin?_eq, Feeds]

theorem linked (hg : g.Linked) : g'.Linked := by
  intro p q pin hpin hlink
  rw [h.pin?_eq] at hpin ⊢
  exact hg p q pin hpin hlink

theorem kind?_eq (hn : g.contains n = true) : g'.kind? n = g.kind? n := by
  rw [kind?, h.nodes n hn, kind?]

theorem pinsOf_eq (hn : g.contains n = true) : g'.pinsOf n = g.pinsOf n := by
  rw [pinsOf, h.nodes n hn, pinsOf]

theorem findPin?_eq (hn : g.contains n = true) (name : String) (d : Option Direction) :
    g'.findPin? n name d = g.findPin? n name d :=
  findPin?_congr (h.pinsOf_eq hn) (fun p _ ↦ congrArg _ (h.pin?_eq p)) name d

theorem tunnelsOf_eq {ids : List NodeId} (hids : ∀ n ∈ ids, g.contains n = true) :
    Expansion.tunnelsOf g' ids = Expansion.tunnelsOf g ids := by
  have hkinds : ids.filter (g'.kindIs · (·.isTunnel)) = ids.filter (g.kindIs · (·.isTunnel)) :=
    List.filter_congr fun n hn ↦ by rw [kindIs, h.kind?_eq (hids n hn), kindIs]
  have hentries (n : NodeId) (hn : n ∈ ids.filter (g.kindIs · (·.isTunnel))) :
      decide (g'.kind? n = some (.tunnel true)) = decide (g.kind? n = some (.tunnel true)) := by
    rw [h.kind?_eq (hids n (List.mem_filter.1 hn).1)]
  unfold Expansion.tunnelsOf
  rw [hkinds]
  dsimp only
  rw [List.filter_congr hentries, List.filter_congr fun n hn ↦ congrArg _ (hentries n hn)]

theorem ready {tunnels : List NodeId} (hinst : g.contains inst = true)
    (htunnels : ∀ n ∈ tunnels, g.contains n = true) (hready : Expansion.Ready g inst tunnels) :
    Expansion.Ready g' inst tunnels where
  wellFormed := h.wellFormed
  linked := h.linked hready.linked
  apart tunnel htunnel p hp q hq := by
    rw [h.pinsOf_eq (htunnels tunnel htunnel)] at hp
    rw [h.pinsOf_eq hinst] at hq
    rw [h.feeds_iff, h.feeds_iff]
    exact hready.apart tunnel htunnel p hp q hq
  kind entry := by
    rw [h.kind?_eq hinst]
    exact hready.kind entry

theorem joints_eq {tunnels : List NodeId} (hinst : g.contains inst = true)
    (htunnels : ∀ n ∈ tunnels, g.contains n = true) (ps : List PinId) :
    Expansion.joints g' inst tunnels ps = Expansion.joints g inst tunnels ps := by
  funext x y
  refine propext (exists_congr fun p ↦ and_congr_right fun _ ↦ ?_)
  refine exists_congr fun pin ↦ exists_congr fun entry ↦ exists_congr fun instPin ↦ ?_
  rw [h.pin?_eq, h.findPin?_eq hinst]
  refine and_congr_right fun _ ↦ and_congr_right fun hmem ↦ ?_
  rw [h.kind?_eq (htunnels _ hmem)]

end Commented

theorem contains_of_kind? {g : Graph} {n : NodeId} {kind : NodeKind} (h : g.kind? n = some kind) :
    g.contains n = true := by
  obtain ⟨node, hnode, -⟩ := Option.map_eq_some_iff.1 h
  rw [contains, hnode]
  rfl

namespace Laid

variable {host body g₁ u : Graph} {inst : NodeId} (h : Laid host body inst g₁ u)
include h

theorem contains_inst : u.contains inst = true := by
  rw [contains, h.node_host (lt_of_isSome_node? h.live), ← contains, h.live]

theorem contains_copy {n : NodeId} (hn : n ∈ body.order.filterMap (remapInto g₁ body).node?) :
    u.contains n = true := by
  obtain ⟨m, hm, hname⟩ := List.mem_filterMap.1 hn
  obtain ⟨node, hnode⟩ := Option.isSome_iff_exists.1 ((h.bodyFormed.mem_order m).1 hm)
  have hkind : u.kind? n = some node.kind := by
    rw [h.kind_body hm hname, Graph.kind?, hnode]
    rfl
  exact contains_of_kind? hkind

theorem contains_tunnel {n : NodeId} (hn : n ∈ copiedTunnels g₁ body u) : u.contains n = true := by
  obtain ⟨entry, hentry⟩ := h.kind_of_mem_tunnels hn
  exact contains_of_kind? hentry

theorem inst_notMem_tunnels : inst ∉ copiedTunnels g₁ body u := by
  refine h.not_mem_tunnels ?_
  rw [h.arrays.nodes_size]
  exact Nat.lt_add_right _ (lt_of_isSome_node? h.live)

end Laid

end Graph

namespace Expansion

open VisualScript.Graph

/-! ## The body beside the instance -/

/-- A body is moved, with a comment around it if the sections are kept. -/
theorem exists_dressed_placeCopies {e : Expansion} (hwf : e.graph.WellFormed) (source : Graph)
    (inst : NodeId) (copies : List NodeId) (keep : Bool) :
    ∃ g, Dressed copies e.graph g ∧
      Commented g (e.placeCopies source inst copies keep).graph := by
  cases keep with
  | false =>
    have hplaced := (dressed_placeCopies e source inst copies).1
    have hwf' := keptAround_wellFormed.placeCopies hwf source inst copies false
    exact ⟨_, hplaced, .refl hwf'⟩
  | true =>
    show ∃ g, Dressed copies e.graph g ∧
      Commented g (e.grid.placeSection e.graph copies ("Macro: " ++ source.name)).2.2
    unfold SpawnGrid.placeSection
    split
    · exact ⟨_, .refl _, .refl hwf⟩
    · exact ⟨_, .offsetNodes e.graph _ _ fun _ ↦ id,
        .spawn (keptAround_wellFormed.offsetNodes hwf copies _ _) _ _ _⟩

/-- The host with the arrays and the body in it, before a tunnel is collapsed. -/
def sectioned (e : Expansion) (source body : Graph) (inst : NodeId) (keep : Bool) : Expansion :=
  ({ e.addEmptyArrays inst with
    graph := ((e.addEmptyArrays inst).graph.mergeFragment body).2 }.recordCopies source body inst
      (remapInto (e.addEmptyArrays inst).graph body)).placeCopies source inst
        (body.order.filterMap (remapInto (e.addEmptyArrays inst).graph body).node?) keep

theorem tells_sectioned {e : Expansion} (hwf : e.graph.WellFormed) (source body : Graph)
    (inst : NodeId) (keep : Bool) : Tells e (e.sectioned source body inst keep) := by
  obtain ⟨g, harrays⟩ := addEmptyArrays_eq hwf inst
  refine .trans ?_ (tells_placeCopies _ source inst _ keep)
  refine .trans ?_ (tells_recordCopies _ source _ inst _)
  rw [harrays]
  exact ((Tells.refl e).graph _).graph _

/-- What expanding the instance into `g` does to the wires over its boundary. -/
structure Carries (host body : Graph) (inst : NodeId) (r : Remap) (g : Graph) : Prop where
  /-- A tunnel pin on the side of the body is identified with a pin of the instance. -/
  matched : ∀ (p : PinId) (pin : Pin) (entry : Bool), body.pin? p = some pin →
    body.kind? pin.owner = some (.tunnel entry) → pin.direction = innerSide entry →
      ∃ a, Place.Meets host body inst a (.body p) ∨ Place.Meets host body inst (.body p) a
  /-- What is wired to a pin of the boundary is wired to all that the pin it is identified with
  leads to. -/
  carried : ∀ a x y b : Place, Place.Wire host body inst a x → Place.Meets host body inst x y →
    WirePath (Place.Wire host body inst) (Place.Meets host body inst) y b →
    a.Survives host body inst → b.Survives host body inst →
      g.Feeds (a.name host inst r) (b.name host inst r)
  /-- Nothing else is wired. -/
  only : ∀ a b : Place, a.Survives host body inst → b.Survives host body inst →
    g.Feeds (a.name host inst r) (b.name host inst r) →
      WirePath (Place.Wire host body inst) (Place.Meets host body inst) a b

end Expansion

namespace Graph.Laid

open Expansion

section Carrying

variable {host body g₁ u u' g : Graph} {inst : NodeId} (h : Laid host body inst g₁ u)
  (hcommented : Commented u u')
include h hcommented

/-- Pins that are left are wired as the wire paths through the boundary say. -/
theorem feeds_collapsed {a b : Place} (hcollapsed : Collapsed u' inst (copiedTunnels g₁ body u)
      ((copiedTunnels g₁ body u).flatMap u'.pinsOf) (copiedTunnels g₁ body u ++ [inst])
      (fun q ↦ q ∈ (copiedTunnels g₁ body u).flatMap u'.pinsOf ∨ q ∈ u'.pinsOf inst) g)
    (ha : a.Survives host body inst) (hb : b.Survives host body inst) :
    g.Feeds (a.name host inst (remapInto g₁ body)) (b.name host inst (remapInto g₁ body)) ↔
      WirePath (Place.Wire host body inst) (Place.Meets host body inst) a b := by
  have hwires : u'.Feeds = u.Feeds := by
    funext p q
    exact propext hcommented.feeds_iff
  have hpins : (copiedTunnels g₁ body u).flatMap u'.pinsOf =
      (copiedTunnels g₁ body u).flatMap u.pinsOf :=
    List.flatMap_congr fun n hn ↦ hcommented.pinsOf_eq (h.contains_tunnel hn)
  rw [hcollapsed.feeds, hwires, hcommented.joints_eq h.contains_inst fun _ ↦ h.contains_tunnel,
    hpins, hcommented.pinsOf_eq h.contains_inst, h.renames.path_iff ha.known hb.known, not_or,
    not_or, ← h.survives_iff ha.known, ← h.survives_iff hb.known]
  exact ⟨fun hpath ↦ hpath.2.2, fun hpath ↦ ⟨ha, hb, hpath⟩⟩

/-- A tunnel pin that has a counterpart on the instance is identified with it. -/
theorem exists_meets {p : PinId} {pin : Pin} {entry : Bool} (hpin : body.pin? p = some pin)
    (hentry : body.kind? pin.owner = some (.tunnel entry)) (hside : pin.direction = innerSide entry)
    (hmatched : ∀ tunnel ∈ copiedTunnels g₁ body u, ∀ entry,
      u'.kind? tunnel = some (.tunnel entry) → ∀ p ∈ u'.pinsOf tunnel, Matched u' inst entry p) :
    ∃ a, Place.Meets host body inst a (.body p) ∨ Place.Meets host body inst (.body p) a := by
  obtain ⟨n, hn, -, howner⟩ := h.owner_body hpin
  have hmem := h.bodyFormed.owner_mem_order hpin
  have htunnel := h.mem_tunnels.2 ⟨pin.owner, hmem, hn, kindIs_tunnel.2 ⟨entry, hentry⟩⟩
  have hkind := (hcommented.kind?_eq (h.contains_tunnel htunnel)).trans
    ((h.kind_body hmem hn).trans hentry)
  have hp := (h.wellFormed.mem_pinsOf n _).2 howner
  rw [← hcommented.pinsOf_eq (h.contains_tunnel htunnel)] at hp
  obtain ⟨q, hq⟩ := hmatched n htunnel entry hkind _ hp _
    ((hcommented.pin?_eq _).trans (h.pin_body hpin).2.2) hside
  rw [hcommented.findPin?_eq h.contains_inst, h.findPin_inst] at hq
  cases entry with
  | true => exact ⟨_, .inl (.entry hpin hentry hside hq)⟩
  | false => exact ⟨_, .inr (.exit hpin hentry hside hq)⟩

/-- Once the tunnels are collapsed and the instance is removed, its wires are carried over. -/
theorem carries (hcollapsed : Collapsed u' inst (copiedTunnels g₁ body u)
      ((copiedTunnels g₁ body u).flatMap u'.pinsOf) (copiedTunnels g₁ body u ++ [inst])
      (fun q ↦ q ∈ (copiedTunnels g₁ body u).flatMap u'.pinsOf ∨ q ∈ u'.pinsOf inst) g)
    (hmatched : ∀ tunnel ∈ copiedTunnels g₁ body u, ∀ entry,
      u'.kind? tunnel = some (.tunnel entry) → ∀ p ∈ u'.pinsOf tunnel, Matched u' inst entry p) :
    Carries host body inst (remapInto g₁ body) g where
  matched _ _ _ hpin hentry hside := h.exists_meets hcommented hpin hentry hside hmatched
  carried _ _ _ _ hax hxy hyb ha hb :=
    (h.feeds_collapsed hcommented hcollapsed ha hb).2 (.through hax hxy hyb)
  only _ _ ha hb := (h.feeds_collapsed hcommented hcollapsed ha hb).1

end Carrying

end Graph.Laid

namespace Expansion

open VisualScript.Graph

section Expanding

variable {e : Expansion} {macros : List Graph} {keep : Bool} {inst : NodeId} {data : MacroData}
  {source : Graph} (hkind : e.graph.kind? inst = some (.macroInstance data))
include hkind

/-- The body is laid beside the instance, its tunnels are collapsed and the instance goes. -/
theorem expandInstance_eq_sectioned
    (hsource : macros.find? (·.name == data.macroGraph) = some source) :
    let u := e.sectioned source (source.macroBody data) inst keep
    let e' := (copiedTunnels (e.addEmptyArrays inst).graph (source.macroBody data) u.graph).foldl
      (collapseTunnel inst) u
    expandInstance macros keep e inst = { e' with graph := e'.graph.removeNode inst } := by
  unfold expandInstance
  rw [hkind]
  dsimp only
  rw [hsource]
  rfl

/-- The body is laid beside the instance, with a comment around it at most. -/
theorem exists_laid {body : Graph} (hwf : e.graph.WellFormed) (hlinked : e.graph.Linked)
    (hbody : body.WellFormed) (hbodyLinked : body.Linked) (source : Graph) (keep : Bool) :
    ∃ u, Laid e.graph body inst (e.addEmptyArrays inst).graph u ∧
      Commented u (e.sectioned source body inst keep).graph := by
  obtain ⟨g, harrays⟩ := addEmptyArrays_eq hwf inst
  have hquiet : (e.addEmptyArrays inst).log.numErrors ≤ e.log.numErrors := by rw [harrays]
  have hwith : WithArrays e.graph (e.graph.unlinkedArrays inst) (e.addEmptyArrays inst).graph :=
    withArrays_addEmptyArrays hwf hlinked hquiet
  have hmerged := hwith.wellFormed.mergeFragment hbody
  have hrecorded := dressed_recordCopies { e.addEmptyArrays inst with
    graph := ((e.addEmptyArrays inst).graph.mergeFragment body).2 } source body inst
      (remapInto (e.addEmptyArrays inst).graph body)
  have hwf' := keptAround_wellFormed.recordCopies (e := { e.addEmptyArrays inst with
    graph := ((e.addEmptyArrays inst).graph.mergeFragment body).2 }) hmerged source body inst
      (remapInto (e.addEmptyArrays inst).graph body)
  obtain ⟨u, hdressed, hcommented⟩ := exists_dressed_placeCopies hwf' source inst
    (body.order.filterMap (remapInto (e.addEmptyArrays inst).graph body).node?) keep
  exact ⟨u, ⟨hwf, hlinked, contains_of_kind? hkind, hwith, hbody, hbodyLinked,
    hrecorded.1.trans hdressed⟩, hcommented⟩

/-- Where expanding an instance reports no error, the wires over its boundary are carried over and
all other nodes stay. -/
theorem carries_expandInstance
    (hsource : macros.find? (·.name == data.macroGraph) = some source)
    (hwf : e.graph.WellFormed) (hlinked : e.graph.Linked)
    (hsourceFormed : source.WellFormed) (hsourceLinked : source.Linked)
    (hquiet : (expandInstance macros keep e inst).log.numErrors ≤ e.log.numErrors) :
    (expandInstance macros keep e inst).graph.Linked ∧
      (∀ n, e.graph.contains n = true → n ≠ inst →
        (expandInstance macros keep e inst).graph.node? n = e.graph.node? n) ∧
      Carries e.graph (source.macroBody data) inst
        (remapInto (e.addEmptyArrays inst).graph (source.macroBody data))
        (expandInstance macros keep e inst).graph := by
  obtain ⟨u, hlaid, hcommented⟩ := exists_laid hkind hwf hlinked (hsourceFormed.macroBody data)
    (hsourceLinked.macroBody data) source keep
  have hnot (entry : Bool) : e.graph.kind? inst ≠ some (.tunnel entry) := by
    rw [hkind]
    exact fun heq ↦ NodeKind.noConfusion (Option.some.inj heq)
  have hready := hcommented.ready hlaid.contains_inst (fun _ ↦ hlaid.contains_tunnel)
    (hlaid.ready hnot)
  have hsame : copiedTunnels (e.addEmptyArrays inst).graph (source.macroBody data)
      (e.sectioned source (source.macroBody data) inst keep).graph =
        copiedTunnels (e.addEmptyArrays inst).graph (source.macroBody data) u :=
    hcommented.tunnelsOf_eq fun n hn ↦ hlaid.contains_copy hn
  rw [expandInstance_eq_sectioned hkind hsource, hsame] at hquiet ⊢
  have hquiet' := Nat.le_trans hquiet
    (tells_sectioned hwf source (source.macroBody data) inst keep).errors
  have hkinds (tunnel : NodeId)
      (htunnel : tunnel ∈ copiedTunnels (e.addEmptyArrays inst).graph (source.macroBody data) u) :
      ∃ entry, (e.sectioned source (source.macroBody data) inst keep).graph.kind? tunnel =
        some (.tunnel entry) := by
    rw [hcommented.kind?_eq (hlaid.contains_tunnel htunnel)]
    exact hlaid.kind_of_mem_tunnels htunnel
  have hlive : (e.sectioned source (source.macroBody data) inst keep).graph.contains inst = true := by
    rw [contains, hcommented.nodes inst hlaid.contains_inst, ← contains, hlaid.contains_inst]
  have hcollapsed := (Collapsed.collapseAll hready hkinds hlaid.nodup_tunnels
    hlaid.inst_notMem_tunnels hquiet').remove hlive hlaid.inst_notMem_tunnels
  refine ⟨hcollapsed.linked, fun n hn hne ↦ ?_, hlaid.carries hcommented hcollapsed
    (matched_collapseTunnels hcommented.wellFormed hlaid.nodup_tunnels hlaid.inst_notMem_tunnels
      hquiet')⟩
  have hlt := lt_of_isSome_node? hn
  have hnode := hlaid.node_host hlt
  have hfresh := hlaid.not_mem_tunnels (n := n) (by rw [hlaid.arrays.nodes_size]; omega)
  rw [hcollapsed.nodes n (by simp [hfresh, hne]), hcommented.nodes n (by rwa [contains, hnode]),
    hnode]

end Expanding

/-! ## Runs -/

/-- The turns of a pass: each instance with the expansion that it is expanded in. -/
def turns (macros : List Graph) (keep : Bool) : List NodeId → Expansion → List (Expansion × NodeId)
  | [], _ => []
  | inst :: insts, e => (e, inst) :: turns macros keep insts (expandInstance macros keep e inst)

/-- The turns of all passes. -/
def allTurns (macros : List Graph) (keep : Bool) : Nat → Expansion → List (Expansion × NodeId)
  | 0, _ => []
  | passes + 1, e =>
    if e.instances.isEmpty then []
    else turns macros keep e.instances e ++
      allTurns macros keep passes (e.instances.foldl (expandInstance macros keep) e)

/-- An instance is expanded in this turn, and the wires over its boundary are carried over. -/
def Expands (macros : List Graph) (keep : Bool) (e : Expansion) (inst : NodeId) : Prop :=
  ∃ data source, e.graph.kind? inst = some (.macroInstance data) ∧
    macros.find? (·.name == data.macroGraph) = some source ∧
      Carries e.graph (source.macroBody data) inst
        (remapInto (e.addEmptyArrays inst).graph (source.macroBody data))
        (expandInstance macros keep e inst).graph

/-- The graph is one that the graph operations build, and some nodes of it are instances. -/
structure Sound (e : Expansion) (insts : List NodeId) : Prop where
  wellFormed : e.graph.WellFormed
  linked : e.graph.Linked
  instances : ∀ inst ∈ insts, ∃ data, e.graph.kind? inst = some (.macroInstance data)

theorem sound_instances {e : Expansion} (hwf : e.graph.WellFormed) (hlinked : e.graph.Linked) :
    e.Sound e.instances := by
  refine ⟨hwf, hlinked, fun inst hinst ↦ ?_⟩
  obtain ⟨kind, hkind, hinstance⟩ := hwf.mem_nodesWhere.1 hinst
  cases kind with
  | macroInstance data => exact ⟨data, hkind⟩
  | _ => cases hinstance

theorem nodup_instances {e : Expansion} (hwf : e.graph.WellFormed) : e.instances.Nodup := by
  rw [instances, hwf.nodesWhere_eq]
  exact hwf.nodup_order.filter _

section Run

variable {macros : List Graph} (hmacros : ∀ g ∈ macros, g.WellFormed ∧ g.Linked) {keep : Bool}
  {e : Expansion}
include hmacros

theorem wellFormed_expandInstance (hwf : e.graph.WellFormed) (keep : Bool) (inst : NodeId) :
    (expandInstance macros keep e inst).graph.WellFormed :=
  keptAround_wellFormed.expandInstance hwf (fun g hg data ↦ (hmacros g hg).1.macroBody data) keep inst

/-- One turn without an error expands its instance and leaves the others. -/
theorem expands_expandInstance {inst : NodeId} {insts : List NodeId} (h : e.Sound (inst :: insts))
    (hnodup : (inst :: insts).Nodup)
    (hquiet : (expandInstance macros keep e inst).log.numErrors ≤ e.log.numErrors) :
    (expandInstance macros keep e inst).Sound insts ∧ Expands macros keep e inst := by
  obtain ⟨data, hkind⟩ := h.instances inst List.mem_cons_self
  cases hsource : macros.find? (·.name == data.macroGraph) with
  | none =>
    have hfail : (expandInstance macros keep e inst).log.numErrors = e.log.numErrors + 1 := by
      unfold expandInstance
      rw [hkind]
      dsimp only
      rw [hsource]
      rfl
    omega
  | some source =>
    obtain ⟨hsourceFormed, hsourceLinked⟩ := hmacros source (List.mem_of_find?_eq_some hsource)
    obtain ⟨hlinked, hkept, hcarries⟩ := carries_expandInstance hkind hsource h.wellFormed h.linked
      hsourceFormed hsourceLinked hquiet
    refine ⟨⟨wellFormed_expandInstance hmacros h.wellFormed keep inst, hlinked, fun other hother ↦ ?_⟩,
      data, source, hkind, hsource, hcarries⟩
    obtain ⟨data', hkind'⟩ := h.instances other (List.mem_cons_of_mem inst hother)
    have hne : other ≠ inst := by
      rintro rfl
      exact (List.nodup_cons.1 hnodup).1 hother
    refine ⟨data', ?_⟩
    rw [Graph.kind?, hkept other (contains_of_kind? hkind') hne, ← Graph.kind?, hkind']

theorem tells_foldl_expandInstance (hwf : e.graph.WellFormed) (keep : Bool) (insts : List NodeId) :
    (insts.foldl (expandInstance macros keep) e).graph.WellFormed ∧
      Tells e (insts.foldl (expandInstance macros keep) e) := by
  induction insts generalizing e with
  | nil => exact ⟨hwf, .refl e⟩
  | cons inst insts ih =>
    obtain ⟨hformed, htells⟩ := ih (wellFormed_expandInstance hmacros hwf keep inst)
    exact ⟨hformed, (tells_expandInstance hwf macros keep inst).trans htells⟩

/-- All passes together succeed if and only if no error is logged. -/
theorem tells_expandPasses (hwf : e.graph.WellFormed) (keep : Bool) (passes : Nat) :
    Tells e (expandPasses macros keep passes e) := by
  induction passes generalizing e with
  | zero => exact .foldl tells_abandon _ e
  | succ passes ih =>
    unfold expandPasses
    split
    · exact .refl e
    · obtain ⟨hformed, htells⟩ := tells_foldl_expandInstance hmacros hwf keep e.instances
      exact htells.trans (ih hformed)

theorem expands_turns {insts : List NodeId} (h : e.Sound insts) (hnodup : insts.Nodup)
    (hquiet : (insts.foldl (expandInstance macros keep) e).log.numErrors ≤ e.log.numErrors) :
    (insts.foldl (expandInstance macros keep) e).graph.Linked ∧
      ∀ t ∈ turns macros keep insts e, Expands macros keep t.1 t.2 := by
  induction insts generalizing e with
  | nil => exact ⟨h.linked, fun t ht ↦ absurd ht List.not_mem_nil⟩
  | cons inst insts ih =>
    have hfirst := tells_expandInstance h.wellFormed macros keep inst
    have hwf := wellFormed_expandInstance hmacros h.wellFormed keep inst
    have hlater := (tells_foldl_expandInstance hmacros hwf keep insts).2.errors
    rw [List.foldl_cons] at hquiet ⊢
    obtain ⟨hsound, hturn⟩ :=
      expands_expandInstance hmacros h hnodup (Nat.le_trans hlater hquiet)
    obtain ⟨hlinked, hturns⟩ :=
      ih hsound (List.nodup_cons.1 hnodup).2 (Nat.le_trans hquiet hfirst.errors)
    refine ⟨hlinked, fun t ht ↦ ?_⟩
    rcases List.mem_cons.1 ht with rfl | ht
    · exact hturn
    · exact hturns t ht

/-- Passes without an error expand every instance that there is in its turn. -/
theorem expands_expandPasses (hwf : e.graph.WellFormed) (hlinked : e.graph.Linked) {passes : Nat}
    (hquiet : (expandPasses macros keep passes e).log.numErrors ≤ e.log.numErrors) :
    (expandPasses macros keep passes e).instances = [] ∧
      ∀ t ∈ allTurns macros keep passes e, Expands macros keep t.1 t.2 := by
  induction passes generalizing e with
  | zero =>
    refine ⟨?_, fun t ht ↦ absurd ht List.not_mem_nil⟩
    unfold expandPasses at hquiet ⊢
    cases hinstances : e.instances with
    | nil => exact hinstances
    | cons inst insts =>
      rw [hinstances, List.foldl_cons] at hquiet
      have hlater := (Tells.foldl tells_abandon insts (abandon e inst)).errors
      have hfail : (abandon e inst).log.numErrors = e.log.numErrors + 1 := rfl
      omega
  | succ passes ih =>
    unfold expandPasses at hquiet ⊢
    unfold allTurns
    split
    · next hempty => exact ⟨List.isEmpty_iff.1 hempty, fun t ht ↦ absurd ht List.not_mem_nil⟩
    · next hsome =>
      rw [if_neg hsome] at hquiet
      obtain ⟨hformed, htells⟩ := tells_foldl_expandInstance hmacros hwf keep e.instances
      have hlater := (tells_expandPasses hmacros hformed keep passes).errors
      obtain ⟨hlinked', hturns⟩ := expands_turns hmacros (sound_instances hwf hlinked)
        (nodup_instances hwf) (Nat.le_trans hlater hquiet)
      obtain ⟨hnone, hrest⟩ := ih hformed hlinked' (Nat.le_trans hquiet htells.errors)
      refine ⟨hnone, fun t ht ↦ ?_⟩
      rcases List.mem_append.1 ht with ht | ht
      · exact hturns t ht
      · exact hrest t ht

end Run

end Expansion

/-- The expansion of all macros succeeds if and only if it logs no error.  Then no instance is left,
every tunnel pin on the side of the body has found its counterpart, and in every turn each wire to
or from a pin of the instance that has a counterpart is carried over to what lies behind it. -/
theorem carries_expandMacros {host : Graph} {macros : List Graph} (hwf : host.WellFormed)
    (hlinked : host.Linked) (hmacros : ∀ g ∈ macros, g.WellFormed ∧ g.Linked) (log : MessageLog)
    (keep : Bool) :
    let e := expandMacros host macros log keep
    (e.ok = true ↔ e.log.numErrors ≤ log.numErrors) ∧
      (e.ok = true → e.instances = [] ∧
        ∀ t ∈ Expansion.allTurns macros keep Expansion.maxPasses { graph := host, log },
          Expansion.Expands macros keep t.1 t.2) := by
  have htells : Expansion.Tells { graph := host, log } (expandMacros host macros log keep) :=
    Expansion.tells_expandPasses hmacros hwf keep Expansion.maxPasses
  have hok := htells.ok.trans (and_iff_right rfl)
  exact ⟨hok, fun h ↦ Expansion.expands_expandPasses hmacros hwf hlinked (hok.1 h)⟩

theorem carries_expandMacros_relay :
    let host := Expansion.relaying.graph
    let macros := [Expansion.relay]
    host.WellFormed ∧ host.Linked ∧ (∀ g ∈ macros, g.WellFormed ∧ g.Linked) ∧
      (Expansion.allTurns macros true Expansion.maxPasses { graph := host, log := {} }).map Prod.snd =
        [⟨0⟩] ∧
      (expandMacros host macros {} true).instances = [] ∧
      ∀ t ∈ Expansion.allTurns macros true Expansion.maxPasses { graph := host, log := {} },
        Expansion.Expands macros true t.1 t.2 := by
  intro host macros
  have hwf : host.WellFormed := by decide +kernel
  have hlinked : host.Linked := by decide +kernel
  have hmacros : ∀ g ∈ macros, g.WellFormed ∧ g.Linked := by decide +kernel
  have hok : (expandMacros host macros {} true).ok = true := by decide +kernel
  exact ⟨hwf, hlinked, hmacros, by decide +kernel,
    (carries_expandMacros hwf hlinked hmacros {} true).2 hok⟩

/-- An output of an instance without a counterpart in the body is dropped with its wire, and the
expansion succeeds without an error. -/
theorem not_carries_stale :
    let host := Expansion.stale.graph
    let e := expandMacros host [Expansion.answer] {} false
    host.WellFormed ∧ host.Linked ∧ Expansion.answer.WellFormed ∧ Expansion.answer.Linked ∧
      host.kind? ⟨0⟩ = some (.macroInstance { macroGraph := "Answer" }) ∧
      ⟨0⟩ ∈ host.pinsOf ⟨0⟩ ∧ host.Feeds ⟨0⟩ ⟨4⟩ ∧ (∀ p, Expansion.answer.pin? p = none) ∧
      e.ok = true ∧ e.log.messages = [] ∧ (e.graph.pin? ⟨4⟩).isSome = true ∧
      e.graph.linksOf ⟨4⟩ = [] := by
  refine ⟨by decide +kernel, by decide +kernel, by decide +kernel, by decide +kernel, rfl,
    by decide +kernel, ⟨_, rfl, rfl, List.mem_singleton.2 rfl⟩, fun _ ↦ rfl, by decide +kernel,
    by decide +kernel, by decide +kernel, by decide +kernel⟩

end VisualScript
