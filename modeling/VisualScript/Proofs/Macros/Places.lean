import VisualScript.Proofs.Macros.Copies

/-!
# The host and the body side by side

Before anything is spliced, the host with its empty arrays and the body of the macro
stand side by side: their wires are those each has by itself, and a tunnel pin is
identified with the first pin of the instance that has its name on the other side.
Merging gives every pin one name and keeps the wires and the identifications.
-/

namespace VisualScript

/-- A pin of the host, a pin of the body, or the output of the empty array for an input. -/
inductive Place
  | host (p : PinId)
  | body (p : PinId)
  | array (p : PinId)

namespace Place

section Union

variable (host body : Graph) (inst : NodeId)

/-- The wires of the host with its empty arrays and those of the body. -/
inductive Wire : Place → Place → Prop
  | host {p q : PinId} (h : host.Feeds p q) : Wire (.host p) (.host q)
  | body {p q : PinId} (h : body.Feeds p q) : Wire (.body p) (.body q)
  | array {p : PinId} (h : p ∈ host.unlinkedArrays inst) : Wire (.array p) (.host p)

/-- An output of an entry is identified with the first input of the instance that has its name,
and the first output of the instance that has the name of an input of an exit with that. -/
inductive Meets : Place → Place → Prop
  | entry {p a : PinId} {pin : Pin} (hpin : body.pin? p = some pin)
      (hkind : body.kind? pin.owner = some (.tunnel true)) (hside : pin.direction = .output)
      (hfind : host.findPin? inst pin.name (some .input) = some a) : Meets (.host a) (.body p)
  | exit {p b : PinId} {pin : Pin} (hpin : body.pin? p = some pin)
      (hkind : body.kind? pin.owner = some (.tunnel false)) (hside : pin.direction = .input)
      (hfind : host.findPin? inst pin.name (some .output) = some b) : Meets (.body p) (.host b)

/-- The pins there are. -/
def Known : Place → Prop
  | .host p => ∃ pin, host.pin? p = some pin
  | .body p => ∃ pin, body.pin? p = some pin
  | .array p => p ∈ host.unlinkedArrays inst

/-- The pins that are neither on the instance nor on a tunnel of the body. -/
def Survives : Place → Prop
  | .host p => ∃ pin, host.pin? p = some pin ∧ pin.owner ≠ inst
  | .body p => ∃ pin, body.pin? p = some pin ∧ body.kindIs pin.owner (·.isTunnel) = false
  | .array p => p ∈ host.unlinkedArrays inst

/-- What a pin stands for while it has no links. -/
def defaults : Place → Option (String × Option String)
  | .host p => host.defaultsOf? p
  | .body p => body.defaultsOf? p
  | .array _ => none

end Union

/-- The name of a pin once the arrays and the body are added to the host. -/
def name (host : Graph) (inst : NodeId) (r : Remap) : Place → PinId
  | .host p => p
  | .body p => (r.pin? p).getD p
  | .array p => ⟨host.pins.size + (host.unlinkedArrays inst).idxOf p⟩

theorem Survives.known {host body : Graph} {inst : NodeId} {a : Place}
    (h : a.Survives host body inst) : a.Known host body inst := by
  cases a with
  | host p =>
    obtain ⟨pin, hpin, -⟩ := h
    exact ⟨pin, hpin⟩
  | body p =>
    obtain ⟨pin, hpin, -⟩ := h
    exact ⟨pin, hpin⟩
  | array p => exact h

theorem Meets.known {host body : Graph} {inst : NodeId} {a b : Place}
    (h : Meets host body inst a b) : a.Known host body inst ∧ b.Known host body inst := by
  have hinst {name : String} {d : Direction} {p : PinId}
      (hfind : host.findPin? inst name (some d) = some p) : ∃ pin, host.pin? p = some pin := by
    obtain ⟨pin, hpin, -⟩ := Graph.directionOf?_eq_some.1 (Graph.findPin?_eq_some hfind).2
    exact ⟨pin, hpin⟩
  cases h with
  | entry hpin _ _ hfind => exact ⟨hinst hfind, _, hpin⟩
  | exit hpin _ _ hfind => exact ⟨⟨_, hpin⟩, hinst hfind⟩

end Place

namespace Graph

theorem kindIs_tunnel {g : Graph} {n : NodeId} :
    g.kindIs n (·.isTunnel) = true ↔ ∃ entry, g.kind? n = some (.tunnel entry) := by
  unfold kindIs
  constructor
  · intro hkind
    obtain ⟨kind, hkind', htunnel⟩ := (Option.any_eq_true _ _).1 hkind
    cases kind with
    | tunnel entry => exact ⟨entry, hkind'⟩
    | _ => cases htunnel
  · rintro ⟨entry, hkind⟩
    rw [hkind]
    rfl

theorem mem_tunnelsOf {g : Graph} {ids : List NodeId} {n : NodeId} :
    n ∈ Expansion.tunnelsOf g ids ↔ n ∈ ids ∧ g.kindIs n (·.isTunnel) = true := by
  simp only [Expansion.tunnelsOf, List.mem_append, List.mem_filter, Bool.not_eq_true',
    decide_eq_true_eq, decide_eq_false_iff_not]
  tauto

/-! ## Paths under other names -/

section Image

variable {α β : Type} {wire joint : α → α → Prop} {wire' joint' : β → β → Prop} {f : α → β}
  {K : α → Prop} {a b : α}

/-- A renaming of the places that keeps wires, joints and differences. -/
structure Renames (wire joint : α → α → Prop) (wire' joint' : β → β → Prop) (f : α → β)
    (K : α → Prop) : Prop where
  injective : ∀ a b, K a → K b → f a = f b → a = b
  wires : ∀ p q, wire' p q ↔ ∃ a b, wire a b ∧ f a = p ∧ f b = q
  joints : ∀ x y, joint' x y ↔ ∃ a b, joint a b ∧ f a = x ∧ f b = y
  wire_known : ∀ a b, wire a b → K a ∧ K b
  joint_known : ∀ a b, joint a b → K a ∧ K b

namespace Renames

variable (h : Renames wire joint wire' joint' f K)
include h

theorem wire_iff (ha : K a) (hb : K b) : wire' (f a) (f b) ↔ wire a b := by
  rw [h.wires]
  constructor
  · rintro ⟨c, d, hcd, hc, hd⟩
    obtain rfl := h.injective c a (h.wire_known c d hcd).1 ha hc
    obtain rfl := h.injective d b (h.wire_known c d hcd).2 hb hd
    exact hcd
  · exact fun hab ↦ ⟨a, b, hab, rfl, rfl⟩

theorem path_of_image {p q : β} (hpath : WirePath wire' joint' p q) (ha : K a) (hp : f a = p) :
    ∃ b, K b ∧ f b = q ∧ WirePath wire joint a b := by
  induction hpath generalizing a with
  | wire hwire =>
    obtain ⟨c, d, hcd, hc, rfl⟩ := (h.wires _ _).1 hwire
    obtain rfl := h.injective c a (h.wire_known c d hcd).1 ha (hc.trans hp.symm)
    exact ⟨d, (h.wire_known c d hcd).2, rfl, .wire hcd⟩
  | through hwire hjoint _ ih =>
    obtain ⟨c, d, hcd, hc, rfl⟩ := (h.wires _ _).1 hwire
    obtain rfl := h.injective c a (h.wire_known c d hcd).1 ha (hc.trans hp.symm)
    obtain ⟨x, y, hxy, hx, rfl⟩ := (h.joints _ _).1 hjoint
    obtain rfl := h.injective x d (h.joint_known x y hxy).1 (h.wire_known c d hcd).2 hx
    obtain ⟨b, hb, hq, hpath⟩ := ih (h.joint_known x y hxy).2 rfl
    exact ⟨b, hb, hq, .through hcd hxy hpath⟩

theorem path_iff (ha : K a) (hb : K b) :
    WirePath wire' joint' (f a) (f b) ↔ WirePath wire joint a b := by
  constructor
  · intro hpath
    obtain ⟨c, hc, heq, hplaces⟩ := h.path_of_image hpath ha rfl
    obtain rfl := h.injective c b hc hb heq
    exact hplaces
  · exact fun hpath ↦ hpath.map f (fun p q hpq ↦ (h.wires _ _).2 ⟨p, q, hpq, rfl, rfl⟩)
      fun x y hxy ↦ (h.joints _ _).2 ⟨x, y, hxy, rfl, rfl⟩

/-- Where a path starts is a place too. -/
theorem startsAt_of_image {x : β} (hb : K b) (hstart : WirePath.StartsAt wire' joint' x (f b)) :
    ∃ a, K a ∧ f a = x ∧ WirePath.StartsAt wire joint a b := by
  obtain ⟨hnone, y, hjoint, hpath⟩ := hstart
  obtain ⟨c, d, hcd, rfl, rfl⟩ := (h.joints _ _).1 hjoint
  obtain ⟨hc, hd⟩ := h.joint_known c d hcd
  refine ⟨c, hc, rfl, fun s hs ↦ ?_, d, hcd, (h.path_iff hd hb).1 hpath⟩
  exact hnone (f s) ((h.wire_iff (h.wire_known s c hs).1 hc).2 hs)

end Renames

end Image

/-! ## Side by side -/

/-- The host with its empty arrays, `g₁`, and the body are merged into `u`. -/
structure Laid (host body : Graph) (inst : NodeId) (g₁ u : Graph) : Prop where
  hostFormed : host.WellFormed
  hostLinked : host.Linked
  live : host.contains inst = true
  arrays : WithArrays host (host.unlinkedArrays inst) g₁
  bodyFormed : body.WellFormed
  bodyLinked : body.Linked
  dressed : Dressed (body.order.filterMap (remapInto g₁ body).node?) (g₁.mergeFragment body).2 u

/-- The copies of the tunnels of a body. -/
abbrev copiedTunnels (host body u : Graph) : List NodeId :=
  Expansion.tunnelsOf u (body.order.filterMap (remapInto host body).node?)

namespace Laid

variable {host body g₁ u : Graph} {inst : NodeId} (h : Laid host body inst g₁ u)
  {p q : PinId} {n : NodeId} {a b : Place}
include h

theorem wellFormed : u.WellFormed := by
  refine SameBooks.wellFormed ⟨h.dressed.order, fun n ↦ ?_, fun p ↦ ?_⟩
    (h.arrays.wellFormed.mergeFragment h.bodyFormed)
  · have hnodes := congrArg (Option.map fun x : NodeId × NodeKind × List PinId ↦ (x.1, x.2.2))
      (h.dressed.nodes n)
    rw [Option.map_map, Option.map_map] at hnodes
    exact hnodes
  · rw [ownerOf?, h.dressed.pin?_eq, ownerOf?]

theorem linked : u.Linked :=
  h.dressed.linked (h.arrays.linked.mergeFragment h.bodyFormed h.bodyLinked)

theorem nodup_arrays : (host.unlinkedArrays inst).Nodup :=
  ((h.hostFormed.nodup_pinsOf inst).filter _).filter _

/-! ### Pins -/

/-- A pin of the host is the same but for its links. -/
theorem pin_host (hp : p.index < host.pins.size) :
    (u.pin? p).map Pin.unwired = (host.pin? p).map Pin.unwired ∧
      u.defaultsOf? p = host.defaultsOf? p := by
  have hlt : p.index < g₁.pins.size := by
    rw [h.arrays.pins_size]
    omega
  have hpin : u.pin? p = g₁.pin? p :=
    (h.dressed.pin?_eq p).trans (pin?_mergeFragment_host hlt h.bodyFormed)
  rw [hpin, defaultsOf?, hpin, ← defaultsOf?]
  exact h.arrays.pins p hp

/-- A pin of the body under its new name. -/
theorem pin_body {pin : Pin} (hpin : body.pin? p = some pin) :
    g₁.pins.size ≤ (Place.name host inst (remapInto g₁ body) (.body p)).index ∧
      (remapInto g₁ body).pin? p = some (Place.name host inst (remapInto g₁ body) (.body p)) ∧
      u.pin? (Place.name host inst (remapInto g₁ body) (.body p)) =
        some ((remapInto g₁ body).renamePin p
          (((remapInto g₁ body).node? pin.owner).getD pin.owner) pin) := by
  obtain ⟨p', hp', hlt, hpin'⟩ := pin?_mergeFragment_body g₁ h.bodyFormed hpin
  rw [Place.name, hp', Option.getD_some]
  exact ⟨hlt, rfl, (h.dressed.pin?_eq p').trans hpin'⟩

/-- Different pins have different names. -/
theorem name_injective (ha : a.Known host body inst) (hb : b.Known host body inst)
    (heq : a.name host inst (remapInto g₁ body) = b.name host inst (remapInto g₁ body)) :
    a = b := by
  have hindex := congrArg PinId.index heq
  have hsize := h.arrays.pins_size
  have hbody {p : PinId} (hp : Place.Known host body inst (.body p)) :
      host.pins.size + (host.unlinkedArrays inst).length ≤
        (Place.name host inst (remapInto g₁ body) (.body p)).index := by
    obtain ⟨pin, hpin⟩ := hp
    have hle := (h.pin_body hpin).1
    omega
  have harray {p : PinId} (hp : Place.Known host body inst (.array p)) :
      (Place.name host inst (remapInto g₁ body) (.array p)).index <
        host.pins.size + (host.unlinkedArrays inst).length :=
    Nat.add_lt_add_left (List.idxOf_lt_length_of_mem hp) _
  have hhost {p : PinId} (hp : Place.Known host body inst (.host p)) :
      (Place.name host inst (remapInto g₁ body) (.host p)).index < host.pins.size := by
    obtain ⟨pin, hpin⟩ := hp
    exact lt_of_pin?_eq_some hpin
  have hle (p : PinId) : host.pins.size ≤
      (Place.name host inst (remapInto g₁ body) (.array p)).index := Nat.le_add_right _ _
  cases a with
  | host p =>
    have hp := hhost ha
    cases b with
    | host q => exact congrArg Place.host heq
    | body q =>
      have hq := hbody hb
      omega
    | array q =>
      have hq := hle q
      omega
  | body p =>
    have hp := hbody ha
    cases b with
    | host q =>
      have hq := hhost hb
      omega
    | body q =>
      obtain ⟨pin, hpin⟩ := ha
      obtain ⟨pin', hpin'⟩ := hb
      obtain ⟨i, hi⟩ := List.getElem?_of_mem (h.bodyFormed.mem_livePins.2 ⟨pin, hpin⟩)
      obtain ⟨j, hj⟩ := List.getElem?_of_mem (h.bodyFormed.mem_livePins.2 ⟨pin', hpin'⟩)
      have hp' := (h.pin_body hpin).2.1.symm.trans (pin?_remapInto h.bodyFormed hi)
      have hq' := (h.pin_body hpin').2.1.symm.trans (pin?_remapInto h.bodyFormed hj)
      rw [heq, hq', Option.some.injEq, PinId.mk.injEq] at hp'
      obtain rfl : j = i := by omega
      exact congrArg Place.body (Option.some.inj (hi.symm.trans hj))
    | array q =>
      have hq := harray hb
      omega
  | array p =>
    have hp := harray ha
    cases b with
    | host q =>
      have hq := hhost hb
      have hp' := hle p
      omega
    | body q =>
      have hq := hbody hb
      omega
    | array q =>
      have hidx : (host.unlinkedArrays inst).idxOf p = (host.unlinkedArrays inst).idxOf q :=
        Nat.add_left_cancel hindex
      have hget := List.getElem?_idxOf ha
      rw [hidx, List.getElem?_idxOf hb] at hget
      exact congrArg Place.array (Option.some.inj hget).symm

/-- Every pin is one of those side by side. -/
theorem exists_place {pin : Pin} (hpin : u.pin? p = some pin) :
    ∃ a : Place, a.Known host body inst ∧ a.name host inst (remapInto g₁ body) = p := by
  rw [h.dressed.pin?_eq] at hpin
  rcases pin?_mergeFragment_cases h.bodyFormed hpin with hold | ⟨p', pin', hname, hpin', -⟩
  · by_cases hp : p.index < host.pins.size
    · have hface := (h.arrays.pins p hp).1
      rw [hold, Option.map_some] at hface
      obtain ⟨pin', hpin', -⟩ := Option.map_eq_some_iff.1 hface.symm
      exact ⟨.host p, ⟨pin', hpin'⟩, rfl⟩
    · have hlt := lt_of_pin?_eq_some hold
      rw [h.arrays.pins_size] at hlt
      have hi : p.index - host.pins.size < (host.unlinkedArrays inst).length := by omega
      refine ⟨.array (host.unlinkedArrays inst)[p.index - host.pins.size],
        List.getElem_mem hi, ?_⟩
      rw [Place.name, h.nodup_arrays.idxOf_getElem, Nat.add_sub_cancel' (Nat.not_lt.1 hp)]
  · exact ⟨.body p', ⟨pin', hpin'⟩, by rw [Place.name, hname, Option.getD_some]⟩

/-! ### Owners -/

theorem owner_host (hp : p.index < host.pins.size) : u.ownerOf? p = host.ownerOf? p := by
  have howner := congrArg (Option.map Pin.owner) (h.pin_host hp).1
  rw [Option.map_map, Option.map_map] at howner
  exact howner

theorem owner_body {pin : Pin} (hpin : body.pin? p = some pin) :
    ∃ n, (remapInto g₁ body).node? pin.owner = some n ∧ g₁.nodes.size ≤ n.index ∧
      u.ownerOf? (Place.name host inst (remapInto g₁ body) (.body p)) = some n := by
  obtain ⟨n, hn, hle⟩ := isSome_node?_remapInto g₁ h.bodyFormed (h.bodyFormed.owner_mem_order hpin)
  refine ⟨n, hn, hle, ?_⟩
  rw [ownerOf?_of_pin? (h.pin_body hpin).2.2, Remap.renamePin, hn, Option.getD_some]

theorem owner_array (hp : p ∈ host.unlinkedArrays inst) :
    u.ownerOf? (Place.name host inst (remapInto g₁ body) (.array p)) =
      some ⟨host.nodes.size + (host.unlinkedArrays inst).idxOf p⟩ := by
  obtain ⟨pin, -, -, hpins, -⟩ := h.arrays.arrays _ p (List.getElem?_idxOf hp)
  have hmem : Place.name host inst (remapInto g₁ body) (.array p) ∈
      g₁.pinsOf ⟨host.nodes.size + (host.unlinkedArrays inst).idxOf p⟩ := by
    rw [hpins]
    exact List.mem_singleton.2 rfl
  have hlt' : (Place.name host inst (remapInto g₁ body) (.array p)).index < g₁.pins.size := by
    rw [h.arrays.pins_size]
    exact Nat.add_lt_add_left (List.idxOf_lt_length_of_mem hp) _
  rw [ownerOf?, h.dressed.pin?_eq, pin?_mergeFragment_host hlt' h.bodyFormed, ← ownerOf?,
    (h.arrays.wellFormed.mem_pinsOf _ _).1 hmem]

/-! ### Nodes -/

/-- A node of the host is the same. -/
theorem node_host (hn : n.index < host.nodes.size) : u.node? n = host.node? n := by
  have hlt : n.index < g₁.nodes.size := by
    rw [h.arrays.nodes_size]
    omega
  rw [h.dressed.others, node?_mergeFragment_host body hlt, h.arrays.nodes n hn]
  intro hmem
  obtain ⟨m, hm, hname⟩ := List.mem_filterMap.1 hmem
  obtain ⟨n', hn', hle⟩ := isSome_node?_remapInto g₁ h.bodyFormed hm
  cases hname.symm.trans hn'
  omega

theorem kind_body {n' : NodeId} (hn : n ∈ body.order)
    (hname : (remapInto g₁ body).node? n = some n') : u.kind? n' = body.kind? n := by
  obtain ⟨node, hnode⟩ := Option.isSome_iff_exists.1 ((h.bodyFormed.mem_order n).1 hn)
  obtain ⟨n'', hname', -, hnode'⟩ := node?_mergeFragment_body g₁ h.bodyFormed hnode
  cases hname.symm.trans hname'
  rw [h.dressed.kind?_eq, kind?, hnode', kind?, hnode]
  rfl

theorem findPin_inst (name : String) (d : Option Direction) :
    u.findPin? inst name d = host.findPin? inst name d := by
  refine findPin?_congr ?_ (fun q hq ↦ ?_) name d
  · rw [pinsOf, h.node_host (lt_of_isSome_node? h.live), pinsOf]
  · obtain ⟨pin, hpin, -⟩ := ownerOf?_eq_some.1 ((h.hostFormed.mem_pinsOf inst q).1 hq)
    exact (h.pin_host (lt_of_pin?_eq_some hpin)).1

/-! ### Wires -/

theorem wire_known (hab : Place.Wire host body inst a b) :
    a.Known host body inst ∧ b.Known host body inst := by
  have hends {g : Graph} (hg : g.Linked) {p q : PinId} (hpq : g.Feeds p q) :
      (∃ pin, g.pin? p = some pin) ∧ ∃ pin, g.pin? q = some pin := by
    obtain ⟨pin, hpin, -⟩ := directionOf?_eq_some.1 (hg.feeds hpq).1
    obtain ⟨pin', hpin', -⟩ := hpq
    exact ⟨⟨pin', hpin'⟩, pin, hpin⟩
  cases hab with
  | host hpq => exact hends h.hostLinked hpq
  | body hpq => exact hends h.bodyLinked hpq
  | array hp =>
    obtain ⟨-, pin, hpin, -⟩ := mem_filteredPins.1 (List.mem_filter.1 hp).1
    exact ⟨hp, pin, hpin⟩

/-- The wires are those of the host, the arrays and the body. -/
theorem feeds_iff : u.Feeds p q ↔ ∃ a b, Place.Wire host body inst a b ∧
    a.name host inst (remapInto g₁ body) = p ∧ b.name host inst (remapInto g₁ body) = q := by
  rw [h.dressed.feeds_iff, feeds_mergeFragment h.bodyFormed, h.arrays.feeds, or_assoc]
  constructor
  · rintro (hpq | ⟨i, hi, rfl⟩ | ⟨p', q', hpq, hp, hq⟩)
    · exact ⟨.host p, .host q, .host hpq, rfl, rfl⟩
    · obtain ⟨hlt, rfl⟩ := List.getElem?_eq_some_iff.1 hi
      refine ⟨.array _, .host _, .array (List.getElem_mem hlt), ?_, rfl⟩
      rw [Place.name, h.nodup_arrays.idxOf_getElem]
    · refine ⟨.body p', .body q', .body hpq, ?_, ?_⟩
      · rw [Place.name, hp, Option.getD_some]
      · rw [Place.name, hq, Option.getD_some]
  · rintro ⟨a, b, hab, rfl, rfl⟩
    have hknown := h.wire_known hab
    cases hab with
    | host hpq => exact .inl hpq
    | array hp => exact .inr (.inl ⟨_, List.getElem?_idxOf hp, rfl⟩)
    | body hpq =>
      obtain ⟨⟨pin, hpin⟩, pin', hpin'⟩ := hknown
      exact .inr (.inr ⟨_, _, hpq, (h.pin_body hpin).2.1, (h.pin_body hpin').2.1⟩)

/-! ### Tunnels -/

theorem mem_tunnels {n' : NodeId} :
    n' ∈ copiedTunnels g₁ body u ↔
      ∃ n ∈ body.order, (remapInto g₁ body).node? n = some n' ∧
        body.kindIs n (·.isTunnel) = true := by
  rw [copiedTunnels, mem_tunnelsOf, List.mem_filterMap]
  constructor
  · rintro ⟨⟨n, hn, hname⟩, hkind⟩
    rw [kindIs, h.kind_body hn hname] at hkind
    exact ⟨n, hn, hname, hkind⟩
  · rintro ⟨n, hn, hname, hkind⟩
    refine ⟨⟨n, hn, hname⟩, ?_⟩
    rw [kindIs, h.kind_body hn hname]
    exact hkind

/-- Tunnels are numbered on from what was there before. -/
theorem not_mem_tunnels (hn : n.index < g₁.nodes.size) : n ∉ copiedTunnels g₁ body u := by
  intro hmem
  obtain ⟨m, hm, hname, -⟩ := h.mem_tunnels.1 hmem
  obtain ⟨n', hn', hle⟩ := isSome_node?_remapInto g₁ h.bodyFormed hm
  cases hname.symm.trans hn'
  omega

theorem kind_of_mem_tunnels (hn : n ∈ copiedTunnels g₁ body u) :
    ∃ entry, u.kind? n = some (.tunnel entry) := by
  obtain ⟨m, hm, hname, hkind⟩ := h.mem_tunnels.1 hn
  obtain ⟨entry, hentry⟩ := kindIs_tunnel.1 hkind
  exact ⟨entry, (h.kind_body hm hname).trans hentry⟩

theorem nodup_tunnels :
    (copiedTunnels g₁ body u).Nodup := by
  have hcopies : (body.order.filterMap (remapInto g₁ body).node?).Nodup := by
    rw [filterMap_node?_remapInto h.bodyFormed]
    refine List.nodup_range.map fun i j hij ↦ ?_
    have hindex := congrArg NodeId.index hij
    simpa using hindex
  refine List.Nodup.append ((hcopies.filter _).filter _) ((hcopies.filter _).filter _) ?_
  intro n hn hn'
  have hentry := (List.mem_filter.1 hn).2
  have hexit := (List.mem_filter.1 hn').2
  rw [hentry] at hexit
  cases hexit

/-- The pins that are left when tunnels and instance are gone. -/
theorem survives_iff (ha : a.Known host body inst) : a.Survives host body inst ↔
    a.name host inst (remapInto g₁ body) ∉
      (copiedTunnels g₁ body u).flatMap u.pinsOf ∧
    a.name host inst (remapInto g₁ body) ∉ u.pinsOf inst := by
  have hinst : inst.index < host.nodes.size := lt_of_isSome_node? h.live
  have hsize := h.arrays.nodes_size
  have hat {q : PinId} {n : NodeId} (howner : u.ownerOf? q = some n) :
      (q ∉ (copiedTunnels g₁ body u).flatMap u.pinsOf ∧ q ∉ u.pinsOf inst) ↔
        n ∉ copiedTunnels g₁ body u ∧ n ≠ inst := by
    rw [List.mem_flatMap]
    simp only [h.wellFormed.mem_pinsOf, howner, Option.some.injEq]
    refine and_congr (not_congr ⟨?_, fun hn ↦ ⟨n, hn, rfl⟩⟩) Iff.rfl
    rintro ⟨m, hm, rfl⟩
    exact hm
  cases a with
  | host p =>
    obtain ⟨pin, hpin⟩ := ha
    have howner := ownerOf?_of_pin? hpin
    have hlive : pin.owner.index < host.nodes.size :=
      lt_of_isSome_node? ((h.hostFormed.mem_order _).1 (h.hostFormed.owner_mem_order hpin))
    rw [← h.owner_host (lt_of_pin?_eq_some hpin)] at howner
    rw [Place.name, hat howner, and_iff_right (h.not_mem_tunnels (by omega))]
    constructor
    · rintro ⟨pin', hpin', hne⟩
      cases hpin.symm.trans hpin'
      exact hne
    · exact fun hne ↦ ⟨pin, hpin, hne⟩
  | body p =>
    obtain ⟨pin, hpin⟩ := ha
    obtain ⟨n, hname, hle, howner⟩ := h.owner_body hpin
    have hne : n ≠ inst := by
      rintro rfl
      omega
    rw [hat howner, and_iff_left hne]
    constructor
    · rintro ⟨pin', hpin', hkind⟩ hmem
      obtain ⟨m, hm, hname', hkind'⟩ := h.mem_tunnels.1 hmem
      cases hpin.symm.trans hpin'
      obtain rfl := node?_remapInto_inj g₁ h.bodyFormed hm (h.bodyFormed.owner_mem_order hpin)
        (hname'.trans hname.symm)
      rw [hkind] at hkind'
      cases hkind'
    · intro hnot
      refine ⟨pin, hpin, ?_⟩
      rw [← Bool.not_eq_true]
      exact fun hkind ↦ hnot
        (h.mem_tunnels.2 ⟨pin.owner, h.bodyFormed.owner_mem_order hpin, hname, hkind⟩)
  | array p =>
    have hlt := List.idxOf_lt_length_of_mem ha
    rw [hat (h.owner_array ha)]
    refine iff_of_true ha ⟨h.not_mem_tunnels ?_, ?_⟩
    · rw [hsize]
      exact Nat.add_lt_add_left hlt _
    · intro heq
      have hindex := congrArg NodeId.index heq
      dsimp only at hindex
      omega

/-- A pin of a copy is a pin of the body. -/
theorem exists_body (howner : u.ownerOf? p = some n) (hn : g₁.nodes.size ≤ n.index) :
    ∃ p' pin, body.pin? p' = some pin ∧
      Place.name host inst (remapInto g₁ body) (.body p') = p := by
  have hsize := h.arrays.nodes_size
  obtain ⟨pin, hpin, -⟩ := ownerOf?_eq_some.1 howner
  obtain ⟨a, ha, rfl⟩ := h.exists_place hpin
  cases a with
  | body p' => exact ⟨p', ha.choose, ha.choose_spec, rfl⟩
  | host p' =>
    obtain ⟨pin', hpin'⟩ := ha
    have hold := (h.owner_host (lt_of_pin?_eq_some hpin')).symm.trans howner
    rw [ownerOf?_of_pin? hpin', Option.some.injEq] at hold
    have hlive : n.index < host.nodes.size := hold ▸
      lt_of_isSome_node? ((h.hostFormed.mem_order _).1 (h.hostFormed.owner_mem_order hpin'))
    omega
  | array p' =>
    have hold := (h.owner_array ha).symm.trans howner
    have hlt := List.idxOf_lt_length_of_mem ha
    have hindex := congrArg NodeId.index (Option.some.inj hold)
    dsimp only at hindex
    omega

/-- The tunnels are wired to the body only. -/
theorem ready (hkind : ∀ entry, host.kind? inst ≠ some (.tunnel entry)) : Expansion.Ready u inst
    (copiedTunnels g₁ body u) where
  wellFormed := h.wellFormed
  linked := h.linked
  kind entry := by
    rw [kind?, h.node_host (lt_of_isSome_node? h.live), ← kind?]
    exact hkind entry
  apart tunnel htunnel p hp q hq := by
    obtain ⟨m, hm, hname, -⟩ := h.mem_tunnels.1 htunnel
    obtain ⟨n', hn', hle⟩ := isSome_node?_remapInto g₁ h.bodyFormed hm
    cases hname.symm.trans hn'
    obtain ⟨p', pin, hpin, rfl⟩ := h.exists_body ((h.wellFormed.mem_pinsOf _ p).1 hp) hle
    rw [pinsOf, h.node_host (lt_of_isSome_node? h.live), ← pinsOf, h.hostFormed.mem_pinsOf] at hq
    obtain ⟨pin', hpin', -⟩ := ownerOf?_eq_some.1 hq
    -- a wire leads from a copy to a copy or between pins of the host
    constructor
    · rw [h.feeds_iff]
      rintro ⟨a, b, hab, ha, hb⟩
      obtain ⟨hka, hkb⟩ := h.wire_known hab
      obtain rfl := h.name_injective (b := .body p') hka ⟨pin, hpin⟩ ha
      obtain rfl := h.name_injective (b := .host q) hkb ⟨pin', hpin'⟩ hb
      cases hab
    · rw [h.feeds_iff]
      rintro ⟨a, b, hab, ha, hb⟩
      obtain ⟨hka, hkb⟩ := h.wire_known hab
      obtain rfl := h.name_injective (b := .host q) hka ⟨pin', hpin'⟩ ha
      obtain rfl := h.name_injective (b := .body p') hkb ⟨pin, hpin⟩ hb
      cases hab

/-- The joints of the tunnels are the pins that are identified. -/
theorem joints_iff {x y : PinId} : Expansion.joints u inst
    (copiedTunnels g₁ body u)
    ((copiedTunnels g₁ body u).flatMap u.pinsOf) x y ↔
      ∃ a b, Place.Meets host body inst a b ∧
        a.name host inst (remapInto g₁ body) = x ∧ b.name host inst (remapInto g₁ body) = y := by
  constructor
  · rintro ⟨p, -, pin, entry, instPin, hpin, htunnel, hkind, hside, hfind, hends⟩
    obtain ⟨m, hm, hname, -⟩ := h.mem_tunnels.1 htunnel
    obtain ⟨n', hn', hle⟩ := isSome_node?_remapInto g₁ h.bodyFormed hm
    cases hname.symm.trans hn'
    obtain ⟨p', pin', hpin', rfl⟩ := h.exists_body (ownerOf?_of_pin? hpin) hle
    obtain ⟨n, hn, -, howner⟩ := h.owner_body hpin'
    cases howner.symm.trans (ownerOf?_of_pin? hpin)
    rw [h.kind_body (h.bodyFormed.owner_mem_order hpin') hn] at hkind
    cases (h.pin_body hpin').2.2.symm.trans hpin
    rw [h.findPin_inst] at hfind
    cases entry with
    | true =>
      obtain ⟨rfl, rfl⟩ := Prod.ext_iff.1 hends
      exact ⟨_, _, .entry hpin' hkind hside hfind, rfl, rfl⟩
    | false =>
      obtain ⟨rfl, rfl⟩ := Prod.ext_iff.1 hends
      exact ⟨_, _, .exit hpin' hkind hside hfind, rfl, rfl⟩
  · have hjoin {p a : PinId} {pin : Pin} {entry : Bool} (hpin : body.pin? p = some pin)
        (hkind : body.kind? pin.owner = some (.tunnel entry))
        (hside : pin.direction = Expansion.innerSide entry)
        (hfind : host.findPin? inst pin.name (some (Expansion.innerSide entry).opposite) = some a) :
        Expansion.joints u inst
          (copiedTunnels g₁ body u)
          ((copiedTunnels g₁ body u).flatMap u.pinsOf)
          (jointEnds entry a (Place.name host inst (remapInto g₁ body) (.body p))).1
          (jointEnds entry a (Place.name host inst (remapInto g₁ body) (.body p))).2 := by
      obtain ⟨n, hn, -, howner⟩ := h.owner_body hpin
      have hmem := h.bodyFormed.owner_mem_order hpin
      have htunnel := h.mem_tunnels.2 ⟨pin.owner, hmem, hn, kindIs_tunnel.2 ⟨entry, hkind⟩⟩
      rw [← h.findPin_inst] at hfind
      rw [← h.kind_body hmem hn] at hkind
      have hpin' := (h.pin_body hpin).2.2
      rw [hn, Option.getD_some] at hpin'
      refine ⟨_, List.mem_flatMap.2 ⟨n, htunnel, (h.wellFormed.mem_pinsOf n _).2 howner⟩,
        _, entry, a, hpin', htunnel, hkind, hside, hfind, rfl⟩
    rintro ⟨a, b, hab, rfl, rfl⟩
    cases hab with
    | entry hpin hkind hside hfind => exact hjoin hpin hkind hside hfind
    | exit hpin hkind hside hfind => exact hjoin hpin hkind hside hfind

/-- Merging renames the places. -/
theorem renames : Renames (Place.Wire host body inst) (Place.Meets host body inst) u.Feeds
    (Expansion.joints u inst
      (copiedTunnels g₁ body u)
      ((copiedTunnels g₁ body u).flatMap u.pinsOf))
    (Place.name host inst (remapInto g₁ body)) (Place.Known host body inst) where
  injective _ _ ha hb heq := h.name_injective ha hb heq
  wires _ _ := h.feeds_iff
  joints _ _ := h.joints_iff
  wire_known _ _ hab := h.wire_known hab
  joint_known _ _ hab := hab.known

end Laid

end Graph

end VisualScript
