import VisualScript.Proofs.Graph.Expansion

/-!
# Pins and links of small graphs

What the pins of a node say about the node, and how single pins and links are added.
-/

namespace VisualScript

namespace Graph

variable {g g' : Graph}

/-! ## New links -/

section Link

variable {p q : PinId} {pin pin' : Pin} (h : g.makeLink p q = .ok g') (hp : g.pin? p = some pin)
  (hq : g.pin? q = some pin') (hlinks : pin.links = []) (hlinks' : pin'.links = [])
include h hp hq hlinks hlinks'

/-- A link between pins that have none. -/
theorem pin?_makeLink (r : PinId) :
    g'.pin? r = if r = p then some { pin with links := [q] }
      else if r = q then some { pin' with links := [p] } else g.pin? r := by
  obtain ⟨pin₀, pin₁, hpin, hpin', hdirection, -, hlink⟩ := makeLink_eq_ok h
  cases hp.symm.trans hpin
  cases hq.symm.trans hpin'
  have hne : p ≠ q := by
    rintro rfl
    cases hpin.symm.trans hpin'
    exact hdirection rfl
  rcases hlink with ⟨hold, -⟩ | ⟨-, rfl⟩
  · rw [hlinks] at hold
    cases hold
  · rw [pin?_modifyPin, pin?_modifyPin]
    by_cases hrp : r = p
    · subst hrp
      rw [if_neg hne.symm, if_pos rfl, if_pos rfl, hp, Option.map_some, hlinks]
      rfl
    · rw [if_neg hrp, if_neg (Ne.symm hrp)]
      by_cases hrq : r = q
      · subst hrq
        rw [if_pos rfl, if_pos rfl, hq, Option.map_some, hlinks']
        rfl
      · rw [if_neg hrq, if_neg (Ne.symm hrq)]

/-- Pins that are linked already stay as they are. -/
theorem pin?_makeLink_of_linked (r : PinId) (linked : Pin) (hr : g.pin? r = some linked)
    (hne : linked.links ≠ []) : g'.pin? r = some linked := by
  rw [pin?_makeLink h hp hq hlinks hlinks', if_neg, if_neg, hr]
  · rintro rfl
    cases hr.symm.trans hq
    exact hne hlinks'
  · rintro rfl
    cases hr.symm.trans hp
    exact hne hlinks

end Link

theorem findPin_eq_ok {n : NodeId} {name : String} {direction : Option Direction} {p : PinId} :
    g.findPin n name direction = .ok p ↔ g.findPin? n name direction = some p := by
  unfold findPin
  cases g.findPin? n name direction <;> simp

theorem connect_eq_makeLink {source target : NodeId} {output input : String} {p q : PinId}
    (hp : g.findPin? source output (some .output) = some p)
    (hq : g.findPin? target input (some .input) = some q) :
    g.connect source output target input = g.makeLink p q := by
  rw [connect, findPin_eq_ok.2 hp, findPin_eq_ok.2 hq]
  rfl

/-! ## New pins -/

/-- The graph got one more pin. -/
structure AddsPin (n : NodeId) (p : PinId) (pin : Pin) (g g' : Graph) : Prop where
  order : g'.order = g.order
  kind? : ∀ m, g'.kind? m = g.kind? m
  pinsOf : ∀ m, g'.pinsOf m = if n = m then g.pinsOf m ++ [p] else g.pinsOf m
  fresh : g.pin? p = none
  pin? : ∀ r, g'.pin? r = if r = p then some pin else g.pin? r

theorem kind?_allocPin (g : Graph) (n m : NodeId) (direction : Direction) (desc : PinDescription) :
    (g.allocPin n direction desc).2.kind? m = g.kind? m := by
  rw [Graph.kind?, node?_allocPin, Graph.kind?]
  split
  · rw [Option.map_map]
    rfl
  · rfl

theorem addsPin_of_addPin {n : NodeId} {direction : Direction} {desc : PinDescription} {p : PinId}
    (h : g.addPin n direction desc = .ok (p, g')) : AddsPin n p
      { id := p, owner := n, direction, name := desc.name, ty := desc.ty,
        defaultValue := desc.defaultValue } g g' := by
  unfold addPin at h
  split at h
  · next hn =>
    obtain ⟨rfl, rfl⟩ := Prod.mk.inj (Except.ok.inj h)
    exact ⟨rfl, fun m ↦ kind?_allocPin g n m direction desc, pinsOf_allocPin hn direction desc,
      pin?_fresh g, pin?_allocPin g n direction desc⟩
  · cases h

/-! ## The pins of a node -/

/-- The node has these pins. -/
structure HasPins (g : Graph) (n : NodeId) (pins : List Pin) : Prop where
  pinsOf : g.pinsOf n = pins.map (·.id)
  pin? : ∀ pin ∈ pins, g.pin? pin.id = some pin

namespace HasPins

variable {n : NodeId} {pins : List Pin} (h : g.HasPins n pins)
include h

theorem filteredPins (direction : Direction) (exec : Bool) : g.filteredPins n direction exec =
    (pins.filter fun pin ↦ pin.direction = direction && pin.isExec == exec).map (·.id) := by
  rw [Graph.filteredPins, h.pinsOf, List.filter_map]
  exact congrArg _ (List.filter_congr fun pin hpin ↦ by
    rw [Function.comp_apply, h.pin? pin hpin, Option.any_some])

theorem findPin? (name : String) (direction : Option Direction) : g.findPin? n name direction =
    (pins.find? fun pin ↦ pin.name == name && direction.all (· = pin.direction)).map (·.id) := by
  rw [Graph.findPin?, h.pinsOf, List.find?_map]
  exact congrArg _ (List.find?_congr fun pin hpin ↦ by
    rw [Function.comp_apply, pinMatches, h.pin? pin hpin, Option.any_some])

end HasPins

/-- Running goes from the node straight to another. -/
def GoesOn (g : Graph) (n m : NodeId) : Prop :=
  ∃ p q, g.findPin? n PinName.thenOut (some .output) = some p ∧
    p ∈ g.filteredPins n .output true ∧ g.linksOf p = [q] ∧ g.ownerOf? q = some m

end Graph

/-!
## New nodes

A node that is spawned comes last, under a name that the graph never gave out, and its pins are
those that its kind starts with, numbered on from the pins of the graph.
-/

namespace Graph

/-- Pins of the node `n` as they are described, numbered from `first` on. -/
def freshPins (n : NodeId) : Nat → List (Direction × PinDescription) → List Pin
  | _, [] => []
  | first, (direction, desc) :: rest =>
    { id := ⟨first⟩, owner := n, name := desc.name, direction, ty := desc.ty
      defaultValue := desc.defaultValue } :: freshPins n (first + 1) rest

section Fresh

variable {n : NodeId} {first : Nat} {descs : List (Direction × PinDescription)} {pin : Pin}

theorem of_mem_freshPins (h : pin ∈ freshPins n first descs) :
    first ≤ pin.id.index ∧ pin.owner = n ∧ pin.links = [] ∧
      ∃ desc ∈ descs, pin.direction = desc.1 ∧ pin.name = desc.2.name ∧ pin.ty = desc.2.ty := by
  induction descs generalizing first with
  | nil => cases h
  | cons desc descs ih =>
    rcases List.mem_cons.1 h with rfl | h
    · exact ⟨Nat.le_refl _, rfl, rfl, desc, List.mem_cons_self, rfl, rfl, rfl⟩
    · obtain ⟨hle, howner, hlinks, desc', hdesc', heq⟩ := ih h
      exact ⟨Nat.le_of_succ_le hle, howner, hlinks, desc', List.mem_cons_of_mem _ hdesc', heq⟩

end Fresh

/-- The graph got pins on the node `n`, which is there. -/
structure AddsPins (n : NodeId) (pins : List Pin) (g g' : Graph) : Prop where
  order : g'.order = g.order
  nodes_size : g'.nodes.size = g.nodes.size
  node? : ∀ m, m ≠ n → g'.node? m = g.node? m
  kind? : g'.kind? n = g.kind? n
  pinsOf : g'.pinsOf n = g.pinsOf n ++ pins.map (·.id)
  pin? : ∀ p pin, g'.pin? p = some pin ↔ g.pin? p = some pin ∨ pin ∈ pins ∧ pin.id = p

theorem addsPins_allocPins {g : Graph} {n : NodeId} (hn : g.contains n = true)
    (descs : List (Direction × PinDescription)) :
    AddsPins n (freshPins n g.pins.size descs) g
      (descs.foldl (fun g d ↦ (g.allocPin n d.1 d.2).2) g) := by
  induction descs generalizing g with
  | nil => exact ⟨rfl, rfl, fun _ _ ↦ rfl, rfl, (List.append_nil _).symm, by simp [freshPins]⟩
  | cons desc descs ih =>
    obtain ⟨direction, desc⟩ := desc
    have hrest := ih (g := (g.allocPin n direction desc).2) (by rw [contains_allocPin, hn])
    have hsize : (g.allocPin n direction desc).2.pins.size = g.pins.size + 1 := Slots.size_push _ _
    rw [hsize] at hrest
    refine ⟨hrest.order, hrest.nodes_size.trans (Slots.size_modify _ _ _), fun m hm ↦ ?_, ?_, ?_,
      fun p pin ↦ ?_⟩
    · rw [List.foldl_cons, hrest.node? m hm, node?_allocPin, if_neg hm.symm]
    · rw [List.foldl_cons, hrest.kind?, kind?_allocPin]
    · rw [List.foldl_cons, hrest.pinsOf, pinsOf_allocPin hn, if_pos rfl, List.append_assoc]
      rfl
    · rw [List.foldl_cons, hrest.pin?, pin?_allocPin, freshPins, List.mem_cons]
      split
      · next heq =>
        subst heq
        have hnone := pin?_fresh g
        constructor
        · rintro (heq | ⟨hmem, hid⟩)
          · exact .inr ⟨.inl (Option.some.inj heq).symm, by rw [← Option.some.inj heq]⟩
          · exact .inr ⟨.inr hmem, hid⟩
        · rintro (hpin | ⟨rfl | hmem, hid⟩)
          · rw [hnone] at hpin
            cases hpin
          · exact .inl rfl
          · exact .inr ⟨hmem, hid⟩
      · next hne =>
        refine or_congr_right ⟨fun ⟨hmem, hid⟩ ↦ ⟨.inr hmem, hid⟩, ?_⟩
        rintro ⟨rfl | hmem, hid⟩
        · exact absurd hid.symm hne
        · exact ⟨hmem, hid⟩

/-- The graph got a node of the kind. -/
structure Spawned (kind : NodeKind) (pins : List Pin) (g g' : Graph) : Prop where
  order : g'.order = g.order ++ [⟨g.nodes.size⟩]
  nodes_size : g'.nodes.size = g.nodes.size + 1
  node? : ∀ m : NodeId, m ≠ ⟨g.nodes.size⟩ → g'.node? m = g.node? m
  kind? : g'.kind? ⟨g.nodes.size⟩ = some kind
  pinsOf : g'.pinsOf ⟨g.nodes.size⟩ = pins.map (·.id)
  pin? : ∀ p pin, g'.pin? p = some pin ↔ g.pin? p = some pin ∨ pin ∈ pins ∧ pin.id = p

/-- The pins that a node of the kind starts with if it comes next. -/
abbrev newPins (g : Graph) (kind : NodeKind) : List Pin :=
  freshPins ⟨g.nodes.size⟩ g.pins.size kind.startingPins

theorem spawned_spawnIntermediate (g : Graph) (kind : NodeKind) :
    Spawned kind (g.newPins kind) g (g.spawnIntermediate kind).2 := by
  -- the node as it comes in, before it gets its pins
  let bare : Graph := { g with
    nodes := g.nodes.push { id := ⟨g.nodes.size⟩, kind, pins := [] }
    order := g.order ++ [⟨g.nodes.size⟩] }
  have hnode (m : NodeId) : bare.node? m =
      if m = ⟨g.nodes.size⟩ then some { id := ⟨g.nodes.size⟩, kind, pins := [] } else g.node? m := by
    obtain ⟨i⟩ := m
    simp [bare, Graph.node?]
  have hcontains : bare.contains ⟨g.nodes.size⟩ = true := by
    rw [contains, hnode, if_pos rfl]
    rfl
  have hmark {g₁ : Graph} (h : AddsPins ⟨g.nodes.size⟩ (g.newPins kind) bare g₁) :
      Spawned kind (g.newPins kind) g
        (g₁.modifyNode ⟨g.nodes.size⟩ fun n ↦ { n with isIntermediate := true }) := by
    refine ⟨h.order, ?_, fun m hm ↦ ?_, ?_, ?_, h.pin?⟩
    · exact (Slots.size_modify _ _ _).trans (h.nodes_size.trans (Slots.size_push _ _))
    · rw [node?_modifyNode, if_neg hm.symm, h.node? m hm, hnode, if_neg hm]
    · rw [Graph.kind?, node?_modifyNode, if_pos rfl, Option.map_map]
      refine h.kind?.trans ?_
      rw [Graph.kind?, hnode, if_pos rfl]
      rfl
    · have hpins := h.pinsOf
      rw [Graph.pinsOf, Graph.pinsOf, hnode, if_pos rfl] at hpins
      rw [Graph.pinsOf, node?_modifyNode, if_pos rfl, Option.map_map]
      exact hpins
  exact hmark (addsPins_allocPins hcontains kind.startingPins)

namespace Spawned

variable {g g' : Graph} {kind : NodeKind} (h : Spawned kind (g.newPins kind) g g')
include h

/-- The pins that were there are the same. -/
theorem pin?_of_lt {p : PinId} (hp : p.index < g.pins.size) : g'.pin? p = g.pin? p := by
  refine Option.ext fun pin ↦ ?_
  rw [h.pin? p pin]
  refine or_iff_left ?_
  rintro ⟨hpin, rfl⟩
  exact absurd (of_mem_freshPins hpin).1 (Nat.not_le.2 hp)

end Spawned

end Graph

end VisualScript
