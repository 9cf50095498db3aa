import VisualScript.Graph.Fragment
import Mathlib.Data.List.Nodup

/-!
# Well-formed graphs

In a well-formed graph the order, the nodes and the pins tell the same story: the
order names every live node once, and a node lists just the pins that it owns.
Every edit keeps a graph well-formed.
-/

namespace VisualScript.Graph

/-- The order, the nodes and the pins agree with each other. -/
structure WellFormed (g : Graph) : Prop where
  nodup_order : g.order.Nodup
  mem_order : ∀ n, n ∈ g.order ↔ (g.node? n).isSome = true
  id_eq : ∀ n node, g.node? n = some node → node.id = n
  nodup_pinsOf : ∀ n, (g.pinsOf n).Nodup
  mem_pinsOf : ∀ n p, p ∈ g.pinsOf n ↔ g.ownerOf? p = some n

variable {g : Graph} {n : NodeId} {p : PinId}

theorem mem_linkedNodes : n ∈ g.linkedNodes p ↔ ∃ q ∈ g.linksOf p, g.ownerOf? q = some n :=
  List.mem_filterMap

theorem mem_linksOf {q : PinId} : q ∈ g.linksOf p ↔ ∃ pin, g.pin? p = some pin ∧ q ∈ pin.links := by
  unfold linksOf
  cases g.pin? p with
  | none => simp
  | some pin => simp

theorem ownerOf?_eq_some : g.ownerOf? p = some n ↔ ∃ pin, g.pin? p = some pin ∧ pin.owner = n :=
  Option.map_eq_some_iff

theorem ownerOf?_of_pin? {pin : Pin} (h : g.pin? p = some pin) : g.ownerOf? p = some pin.owner :=
  ownerOf?_eq_some.2 ⟨pin, h, rfl⟩

theorem mem_filteredPins {direction : Direction} {exec : Bool} :
    p ∈ g.filteredPins n direction exec ↔
      p ∈ g.pinsOf n ∧ ∃ pin, g.pin? p = some pin ∧ pin.direction = direction ∧
        pin.isExec = exec := by
  simp [filteredPins, List.mem_filter, Option.any_eq_true]

/-- Whether a node is pure is up to its kind. -/
theorem isPure_of_kind? {kind : NodeKind} (hkind : g.kind? n = some kind) :
    g.isPure n = kind.isPure := by
  obtain ⟨node, hnode, rfl⟩ := Option.map_eq_some_iff.1 hkind
  rw [isPure, hnode, Option.any_some, Node.isPure]

theorem WellFormed.mem_order_of_kind? (h : g.WellFormed) {kind : NodeKind}
    (hkind : g.kind? n = some kind) : n ∈ g.order := by
  obtain ⟨node, hnode, -⟩ := Option.map_eq_some_iff.1 hkind
  exact (h.mem_order n).2 (Option.isSome_iff_exists.2 ⟨node, hnode⟩)

theorem WellFormed.mem_order_of_mem_pinsOf (h : g.WellFormed) (hp : p ∈ g.pinsOf n) :
    n ∈ g.order := by
  refine (h.mem_order n).2 (Option.isSome_iff_ne_none.2 fun hnone ↦ ?_)
  rw [pinsOf, hnone] at hp
  cases hp

/-- The owner of a pin is one of the nodes. -/
theorem WellFormed.owner_mem_order (h : g.WellFormed) {pin : Pin} (hpin : g.pin? p = some pin) :
    pin.owner ∈ g.order :=
  h.mem_order_of_mem_pinsOf ((h.mem_pinsOf _ p).2 (ownerOf?_of_pin? hpin))

/-- A pin is listed by one node. -/
theorem WellFormed.eq_of_mem_pinsOf (h : g.WellFormed) {m : NodeId} (hm : p ∈ g.pinsOf m)
    (hn : p ∈ g.pinsOf n) : m = n :=
  Option.some.inj (((h.mem_pinsOf m p).1 hm).symm.trans ((h.mem_pinsOf n p).1 hn))

/-- A pin that a node lists belongs to it. -/
theorem WellFormed.owner_eq (h : g.WellFormed) {pin : Pin} (hmem : p ∈ g.pinsOf n)
    (hpin : g.pin? p = some pin) : pin.owner = n :=
  Option.some.inj ((ownerOf?_of_pin? hpin).symm.trans ((h.mem_pinsOf n p).1 hmem))

/-! ## Edits in place -/

/-- The order is the same, and so are the pins that nodes list and the owners of pins. -/
structure SameBooks (g g' : Graph) : Prop where
  order : g'.order = g.order
  nodes : ∀ n, (g'.node? n).map (fun x ↦ (x.id, x.pins)) = (g.node? n).map fun x ↦ (x.id, x.pins)
  owners : ∀ p, g'.ownerOf? p = g.ownerOf? p

namespace SameBooks

theorem refl (g : Graph) : SameBooks g g := ⟨rfl, fun _ ↦ rfl, fun _ ↦ rfl⟩

theorem trans {g g' g'' : Graph} (h : SameBooks g g') (h' : SameBooks g' g'') :
    SameBooks g g'' :=
  ⟨h'.order.trans h.order, fun n ↦ (h'.nodes n).trans (h.nodes n),
    fun p ↦ (h'.owners p).trans (h.owners p)⟩

theorem foldl {α : Type} {f : Graph → α → Graph} (hf : ∀ g a, SameBooks g (f g a)) (l : List α)
    (g : Graph) : SameBooks g (l.foldl f g) := by
  induction l generalizing g with
  | nil => exact refl g
  | cons a l ih => exact (hf g a).trans (ih (f g a))

theorem modifyPin (g : Graph) (p : PinId) {f : Pin → Pin} (hf : ∀ pin, (f pin).owner = pin.owner) :
    SameBooks g (g.modifyPin p f) where
  order := rfl
  nodes _ := rfl
  owners q := by
    simp only [ownerOf?, pin?_modifyPin]
    split
    · cases g.pin? q with
      | none => rfl
      | some pin => exact congrArg some (hf pin)
    · rfl

theorem modifyNode (g : Graph) (n : NodeId) {f : Node → Node}
    (hf : ∀ node, (f node).id = node.id ∧ (f node).pins = node.pins) :
    SameBooks g (g.modifyNode n f) where
  order := rfl
  nodes m := by
    rw [node?_modifyNode]
    split
    · cases g.node? m with
      | none => rfl
      | some node => exact congrArg some (Prod.ext (hf node).1 (hf node).2)
    · rfl
  owners _ := rfl

section Books

variable {g g' : Graph} (h : SameBooks g g')
include h

theorem isSome_node? (n : NodeId) : (g'.node? n).isSome = (g.node? n).isSome := by
  have hnode := congrArg Option.isSome (h.nodes n)
  simpa using hnode

theorem pinsOf_eq (n : NodeId) : g'.pinsOf n = g.pinsOf n := by
  have hpins := congrArg (fun x ↦ (x.map Prod.snd).getD []) (h.nodes n)
  rw [Option.map_map, Option.map_map] at hpins
  exact hpins

theorem wellFormed (hg : g.WellFormed) : g'.WellFormed where
  nodup_order := h.order ▸ hg.nodup_order
  mem_order n := by rw [h.order, hg.mem_order, h.isSome_node?]
  id_eq n node hnode := by
    have hsame := h.nodes n
    rw [hnode] at hsame
    obtain ⟨old, hold, heq⟩ := Option.map_eq_some_iff.1 hsame.symm
    exact (congrArg Prod.fst heq).symm.trans (hg.id_eq n old hold)
  nodup_pinsOf n := h.pinsOf_eq n ▸ hg.nodup_pinsOf n
  mem_pinsOf n p := by rw [h.pinsOf_eq, hg.mem_pinsOf, h.owners]

end Books

end SameBooks

theorem sameBooks_setPosition (g : Graph) (n : NodeId) (x y : Int) :
    SameBooks g (g.setPosition n x y) := .modifyNode g n fun _ ↦ ⟨rfl, rfl⟩

theorem sameBooks_setDefaults (g : Graph) (p : PinId) (value : String) (object : Option String) :
    SameBooks g (g.setDefaults p value object) := .modifyPin g p fun _ ↦ rfl

/-! ## Links -/

/-- A link is made between pins of different directions and nodes, unless it is there. -/
theorem makeLink_eq_ok {g g' : Graph} {a b : PinId} (h : g.makeLink a b = .ok g') :
    ∃ pa pb, g.pin? a = some pa ∧ g.pin? b = some pb ∧ pa.direction ≠ pb.direction ∧
      pa.owner ≠ pb.owner ∧ (b ∈ pa.links ∧ g' = g ∨ b ∉ pa.links ∧
        g' = (g.modifyPin a fun p ↦ { p with links := p.links ++ [b] }).modifyPin b
          fun p ↦ { p with links := p.links ++ [a] }) := by
  unfold makeLink pin at h
  cases ha : g.pin? a with
  | none =>
    rw [ha] at h
    cases h
  | some pa =>
    cases hb : g.pin? b with
    | none =>
      rw [ha, hb] at h
      cases h
    | some pb =>
      rw [ha, hb] at h
      by_cases hdirection : pa.direction = pb.direction
      · simp [hdirection, bind, Except.bind, throw, throwThe, MonadExceptOf.throw] at h
      · by_cases howner : pa.owner = pb.owner
        · simp [hdirection, howner, bind, Except.bind, throw, throwThe, MonadExceptOf.throw] at h
        · refine ⟨pa, pb, rfl, rfl, hdirection, howner, ?_⟩
          by_cases hlink : b ∈ pa.links
          · simp [hdirection, howner, hlink, bind, Except.bind, pure, Except.pure] at h
            exact .inl ⟨hlink, h.symm⟩
          · simp [hdirection, howner, hlink, bind, Except.bind, pure, Except.pure] at h
            exact .inr ⟨hlink, h.symm⟩

theorem sameBooks_makeLink {g g' : Graph} {a b : PinId} (h : g.makeLink a b = .ok g') :
    SameBooks g g' := by
  obtain ⟨pa, pb, -, -, -, -, ⟨-, rfl⟩ | ⟨-, rfl⟩⟩ := makeLink_eq_ok h
  · exact .refl g'
  · refine .trans (.modifyPin g a ?_) (.modifyPin _ b ?_)
    · exact fun _ ↦ rfl
    · exact fun _ ↦ rfl

theorem sameBooks_breakLink (g : Graph) (a b : PinId) : SameBooks g (g.breakLink a b) := by
  refine .trans (.modifyPin g a ?_) (.modifyPin _ b ?_)
  · exact fun _ ↦ rfl
  · exact fun _ ↦ rfl

theorem sameBooks_breakPinLinks (g : Graph) (p : PinId) : SameBooks g (g.breakPinLinks p) :=
  .foldl (fun g q ↦ sameBooks_breakLink g p q) _ g

theorem sameBooks_breakNodeLinks (g : Graph) (n : NodeId) : SameBooks g (g.breakNodeLinks n) :=
  .foldl sameBooks_breakPinLinks _ g

/-! ## Adding -/

section Adding

variable {g : Graph} {n : NodeId}

theorem pin?_fresh (g : Graph) : g.pin? ⟨g.pins.size⟩ = none :=
  Slots.get?_eq_none_of_size_le (Nat.le_refl _)

theorem node?_fresh (g : Graph) : g.node? ⟨g.nodes.size⟩ = none :=
  Slots.get?_eq_none_of_size_le (Nat.le_refl _)

theorem pin?_allocPin (g : Graph) (n : NodeId) (direction : Direction) (desc : PinDescription)
    (p : PinId) : (g.allocPin n direction desc).2.pin? p =
      if p = ⟨g.pins.size⟩ then some {
        id := ⟨g.pins.size⟩, owner := n, direction, name := desc.name, ty := desc.ty,
        defaultValue := desc.defaultValue }
      else g.pin? p := by
  obtain ⟨i⟩ := p
  simp [allocPin, pin?, modifyNode]

theorem node?_allocPin (g : Graph) (n : NodeId) (direction : Direction) (desc : PinDescription)
    (m : NodeId) : (g.allocPin n direction desc).2.node? m =
      if n = m then (g.node? m).map fun node ↦ { node with pins := node.pins ++ [⟨g.pins.size⟩] }
      else g.node? m :=
  node?_modifyNode _ n m _

theorem contains_allocPin (g : Graph) (n : NodeId) (direction : Direction) (desc : PinDescription)
    (m : NodeId) : (g.allocPin n direction desc).2.contains m = g.contains m := by
  simp only [contains, node?_allocPin]
  split
  · exact Option.isSome_map
  · rfl

theorem pinsOf_allocPin (hn : g.contains n = true) (direction : Direction) (desc : PinDescription)
    (m : NodeId) : (g.allocPin n direction desc).2.pinsOf m =
      if n = m then g.pinsOf m ++ [⟨g.pins.size⟩] else g.pinsOf m := by
  simp only [pinsOf, node?_allocPin]
  split
  · next heq =>
    obtain ⟨node, hnode⟩ := Option.isSome_iff_exists.1 (heq ▸ hn)
    simp [hnode]
  · rfl

/-- A pin that is added to a node of the graph keeps it well-formed. -/
theorem WellFormed.allocPin (h : g.WellFormed) (hn : g.contains n = true) (direction : Direction)
    (desc : PinDescription) : (g.allocPin n direction desc).2.WellFormed := by
  have hfresh (m : NodeId) : (⟨g.pins.size⟩ : PinId) ∉ g.pinsOf m := by
    intro hmem
    have howner := (h.mem_pinsOf m _).1 hmem
    rw [ownerOf?, pin?_fresh] at howner
    cases howner
  refine ⟨h.nodup_order, fun m ↦ ?_, fun m node hnode ↦ ?_, fun m ↦ ?_, fun m p ↦ ?_⟩
  · exact (h.mem_order m).trans (by rw [← contains, ← contains, contains_allocPin])
  · rw [node?_allocPin] at hnode
    split at hnode
    · obtain ⟨old, hold, rfl⟩ := Option.map_eq_some_iff.1 hnode
      exact h.id_eq m old hold
    · exact h.id_eq m node hnode
  · rw [pinsOf_allocPin hn]
    split
    · rw [← List.concat_eq_append]
      exact (h.nodup_pinsOf m).concat (hfresh m)
    · exact h.nodup_pinsOf m
  · rw [pinsOf_allocPin hn, ownerOf?, pin?_allocPin]
    by_cases hp : p = ⟨g.pins.size⟩
    · subst hp
      by_cases hm : n = m
      · simp [hm]
      · simp [hm, hfresh m]
    · have hold := h.mem_pinsOf m p
      rw [ownerOf?] at hold
      by_cases hm : n = m
      · simp [hm, hp, hold]
      · simp [hm, hp, hold]

/-- Pins that are added one after another keep a graph well-formed. -/
theorem WellFormed.allocPins (h : g.WellFormed) (hn : g.contains n = true)
    (pins : List (Direction × PinDescription)) :
    (pins.foldl (fun g p ↦ (g.allocPin n p.1 p.2).2) g).WellFormed := by
  induction pins generalizing g with
  | nil => exact h
  | cons p pins ih => exact ih (h.allocPin hn p.1 p.2) (by rw [contains_allocPin, hn])

theorem WellFormed.spawn (h : g.WellFormed) (kind : NodeKind) : (g.spawn kind).2.WellFormed := by
  have hnode (m : NodeId) : node? { g with
        nodes := g.nodes.push { id := ⟨g.nodes.size⟩, kind, pins := [] }
        order := g.order ++ [⟨g.nodes.size⟩] } m =
      if m = ⟨g.nodes.size⟩ then some { id := ⟨g.nodes.size⟩, kind, pins := [] } else g.node? m := by
    obtain ⟨i⟩ := m
    simp [node?]
  have hnew : (⟨g.nodes.size⟩ : NodeId) ∉ g.order := by
    rw [h.mem_order, node?_fresh]
    decide
  have hpins (p : PinId) : g.ownerOf? p ≠ some ⟨g.nodes.size⟩ := by
    intro howner
    have hmem := (h.mem_pinsOf _ p).2 howner
    rw [pinsOf, node?_fresh] at hmem
    cases hmem
  refine WellFormed.allocPins (n := ⟨g.nodes.size⟩) ⟨?_, fun m ↦ ?_, fun m node hm ↦ ?_,
    fun m ↦ ?_, fun m p ↦ ?_⟩ ?_ kind.startingPins
  · rw [← List.concat_eq_append]
    exact h.nodup_order.concat hnew
  · rw [hnode, List.mem_append, h.mem_order]
    split
    · next heq => simp [heq]
    · next hne => simp [hne]
  · rw [hnode] at hm
    split at hm
    · next heq =>
      cases hm
      exact heq.symm
    · exact h.id_eq m node hm
  · rw [pinsOf, hnode]
    split
    · exact List.nodup_nil
    · exact h.nodup_pinsOf m
  · rw [pinsOf, hnode]
    split
    · next heq =>
      subst heq
      constructor
      · intro hmem
        cases hmem
      · exact fun howner ↦ absurd howner (hpins p)
    · exact h.mem_pinsOf m p
  · rw [contains, hnode, if_pos rfl]
    rfl

theorem WellFormed.spawnIntermediate (h : g.WellFormed) (kind : NodeKind) :
    (g.spawnIntermediate kind).2.WellFormed :=
  (SameBooks.modifyNode _ _ fun _ ↦ by exact ⟨rfl, rfl⟩).wellFormed (h.spawn kind)

theorem WellFormed.addPin {g' : Graph} {p : PinId} (h : g.WellFormed) {direction : Direction}
    {desc : PinDescription} (hadd : g.addPin n direction desc = .ok (p, g')) : g'.WellFormed := by
  unfold Graph.addPin at hadd
  split at hadd
  · next hn =>
    cases hadd
    exact h.allocPin hn direction desc
  · cases hadd

end Adding

/-! ## Order -/

theorem mem_foldl_order {ids new : List NodeId} {n : NodeId} :
    n ∈ ids.foldl (fun new id ↦ if id ∈ new then new else new ++ [id]) new ↔ n ∈ new ∨ n ∈ ids := by
  induction ids generalizing new with
  | nil => simp
  | cons id ids ih =>
    rw [List.foldl_cons, ih]
    split
    · next hid =>
      constructor
      · exact fun h ↦ h.imp_right (List.mem_cons_of_mem id)
      · rintro (h | h)
        · exact .inl h
        · rcases List.mem_cons.1 h with rfl | h
          · exact .inl hid
          · exact .inr h
    · rw [List.mem_append, List.mem_singleton, List.mem_cons, or_assoc]

/-- What is in the order already is not put behind it again. -/
theorem foldl_order_eq {ids new : List NodeId} (h : ids.Nodup) :
    ids.foldl (fun new id ↦ if id ∈ new then new else new ++ [id]) new =
      new ++ ids.filter (· ∉ new) := by
  induction ids generalizing new with
  | nil => simp
  | cons id ids ih =>
    obtain ⟨hid, hids⟩ := List.nodup_cons.1 h
    rw [List.foldl_cons, ih hids]
    split
    · next hmem => rw [List.filter_cons_of_neg (by simpa using hmem)]
    · next hmem =>
      have hrest : ids.filter (· ∉ new ++ [id]) = ids.filter (· ∉ new) :=
        List.filter_congr fun n hn ↦ by
          have hne : n ≠ id := ne_of_mem_of_not_mem hn hid
          simp [hne]
      rw [List.filter_cons_of_pos (by simpa using hmem), hrest, List.append_assoc,
        List.singleton_append]

/-- The live nodes of the list come first, as often as it has them, and then the others. -/
theorem WellFormed.order_setOrder {g : Graph} (h : g.WellFormed) (ids : List NodeId) :
    (g.setOrder ids).order = ids.filter g.contains ++ g.order.filter (· ∉ ids) := by
  have hrest : g.order.filter (· ∉ ids.filter g.contains) = g.order.filter (· ∉ ids) :=
    List.filter_congr fun n hn ↦ by
      have hlive : g.contains n = true := (h.mem_order n).1 hn
      simp [hlive]
  rw [← hrest]
  exact foldl_order_eq h.nodup_order

theorem WellFormed.nodup_order_setOrder {g : Graph} (h : g.WellFormed) {ids : List NodeId} :
    (g.setOrder ids).order.Nodup ↔ (ids.filter g.contains).Nodup := by
  rw [h.order_setOrder]
  refine ⟨List.Nodup.of_append_left, fun hids ↦ ?_⟩
  refine hids.append (h.nodup_order.filter _) fun n hfirst hrest ↦ ?_
  exact of_decide_eq_true (List.mem_filter.1 hrest).2 (List.mem_filter.1 hfirst).1

theorem WellFormed.mem_order_setOrder {g : Graph} (h : g.WellFormed) {ids : List NodeId}
    {n : NodeId} : n ∈ (g.setOrder ids).order ↔ n ∈ g.order := by
  refine mem_foldl_order.trans (or_iff_right_of_imp fun hn ↦ ?_)
  exact (h.mem_order n).2 (List.mem_filter.1 hn).2

/-- Reordering by a list without repeats keeps a graph well-formed. -/
theorem WellFormed.setOrder {g : Graph} (h : g.WellFormed) {ids : List NodeId} (hids : ids.Nodup) :
    (g.setOrder ids).WellFormed where
  nodup_order := h.nodup_order_setOrder.2 (hids.filter _)
  mem_order n := h.mem_order_setOrder.trans (h.mem_order n)
  id_eq := h.id_eq
  nodup_pinsOf := h.nodup_pinsOf
  mem_pinsOf := h.mem_pinsOf

/-! ## Removing -/

theorem get?_foldl_free (ps : List PinId) (pins : Slots Pin) (p : PinId) :
    (ps.foldl (fun pins p ↦ pins.free p.index) pins).get? p.index =
      if p ∈ ps then none else pins.get? p.index := by
  induction ps generalizing pins with
  | nil => rfl
  | cons q ps ih =>
    rw [List.foldl_cons, ih, Slots.get?_free]
    by_cases hp : p ∈ ps
    · simp [hp]
    · by_cases hq : p = q
      · simp [hq]
      · have hindex : ¬q.index = p.index := fun heq ↦ hq (congrArg PinId.mk heq).symm
        simp [hp, hq, hindex]

section Removing

variable {g : Graph} {n : NodeId}

theorem node?_removeNode (hn : g.contains n = true) (m : NodeId) :
    (g.removeNode n).node? m = if n = m then none else (g.breakNodeLinks n).node? m := by
  obtain ⟨i⟩ := m
  obtain ⟨j⟩ := n
  simp only [removeNode, hn, if_true, node?, Slots.get?_free, NodeId.mk.injEq]

theorem pin?_removeNode (hn : g.contains n = true) (p : PinId) :
    (g.removeNode n).pin? p = if p ∈ g.pinsOf n then none else (g.breakNodeLinks n).pin? p := by
  rw [← (sameBooks_breakNodeLinks g n).pinsOf_eq]
  simp only [removeNode, hn, if_true]
  exact get?_foldl_free _ _ p

theorem order_removeNode (hn : g.contains n = true) :
    (g.removeNode n).order = g.order.filter (· ≠ n) := by
  simp only [removeNode, hn, if_true, (sameBooks_breakNodeLinks g n).order]

theorem removeNode_of_not_contains (hn : g.contains n = false) : g.removeNode n = g := by
  simp only [removeNode, hn, Bool.false_eq_true, if_false]

theorem node?_removeNode_self (g : Graph) (n : NodeId) : (g.removeNode n).node? n = none := by
  cases hn : g.contains n with
  | false =>
    rw [removeNode_of_not_contains hn]
    exact Option.not_isSome_iff_eq_none.1 (Bool.eq_false_iff.1 hn)
  | true => rw [node?_removeNode hn, if_pos rfl]

theorem WellFormed.removeNode (h : g.WellFormed) (n : NodeId) : (g.removeNode n).WellFormed := by
  cases hn : g.contains n with
  | false => rwa [removeNode_of_not_contains hn]
  | true =>
    have hbooks := sameBooks_breakNodeLinks g n
    have hbroken := hbooks.wellFormed h
    have hpins (m : NodeId) : (g.removeNode n).pinsOf m = if n = m then [] else g.pinsOf m := by
      rw [pinsOf, node?_removeNode hn]
      split
      · rfl
      · exact hbooks.pinsOf_eq m
    refine ⟨?_, fun m ↦ ?_, fun m node hnode ↦ ?_, fun m ↦ ?_, fun m p ↦ ?_⟩
    · rw [order_removeNode hn]
      exact h.nodup_order.filter _
    · rw [order_removeNode hn, List.mem_filter, node?_removeNode hn, h.mem_order]
      split
      · next heq => simp [heq]
      · next hne => simp [hbooks.isSome_node?, Ne.symm hne]
    · rw [node?_removeNode hn] at hnode
      split at hnode
      · cases hnode
      · exact hbroken.id_eq m node hnode
    · rw [hpins]
      split
      · exact List.nodup_nil
      · exact h.nodup_pinsOf m
    · rw [hpins, ownerOf?, pin?_removeNode hn]
      have howner := hbooks.owners p
      rw [ownerOf?] at howner
      by_cases hp : p ∈ g.pinsOf n
      · rw [if_pos hp]
        have hpn := (h.mem_pinsOf n p).1 hp
        by_cases hm : n = m
        · simp [hm]
        · have hne : p ∉ g.pinsOf m := fun hpm ↦
            hm (Option.some.inj (hpn.symm.trans ((h.mem_pinsOf m p).1 hpm)))
          simp [hm, hne]
      · rw [if_neg hp, howner, ← h.mem_pinsOf]
        split
        · next heq => simpa [heq] using heq ▸ hp
        · rfl

theorem node?_removePin {p : PinId} (hp : g.ownerOf? p = some n) (m : NodeId) :
    (g.removePin p).node? m =
      if n = m then ((g.breakPinLinks p).node? m).map fun node ↦
        { node with pins := node.pins.filter (· ≠ p) }
      else (g.breakPinLinks p).node? m := by
  simp only [removePin, hp]
  exact node?_modifyNode _ n m _

theorem pin?_removePin {p : PinId} (hp : g.ownerOf? p = some n) (q : PinId) :
    (g.removePin p).pin? q = if p = q then none else (g.breakPinLinks p).pin? q := by
  obtain ⟨i⟩ := p
  obtain ⟨j⟩ := q
  simp only [removePin, hp, pin?, Slots.get?_free, PinId.mk.injEq]
  rfl

theorem pin?_removePin_self (g : Graph) (p : PinId) : (g.removePin p).pin? p = none := by
  cases hp : g.ownerOf? p with
  | none =>
    simp only [removePin, hp]
    exact Option.map_eq_none_iff.1 hp
  | some n => rw [pin?_removePin hp, if_pos rfl]

theorem order_removePin (g : Graph) (p : PinId) : (g.removePin p).order = g.order := by
  unfold removePin
  split
  · rfl
  · exact (sameBooks_breakPinLinks g p).order

theorem pinsOf_removePin (h : g.WellFormed) {p : PinId} (hp : g.ownerOf? p = some n) (m : NodeId) :
    (g.removePin p).pinsOf m = (g.pinsOf m).filter (· ≠ p) := by
  have hbooks := sameBooks_breakPinLinks g p
  have hold := hbooks.pinsOf_eq m
  rw [pinsOf] at hold
  rw [pinsOf, node?_removePin hp]
  by_cases hm : n = m
  · rw [if_pos hm, ← hold]
    cases (g.breakPinLinks p).node? m <;> rfl
  · rw [if_neg hm, hold]
    refine (List.filter_eq_self.2 fun q hq ↦ decide_eq_true ?_).symm
    rintro rfl
    exact hm (Option.some.inj (hp.symm.trans ((h.mem_pinsOf m q).1 hq)))

theorem WellFormed.removePin (h : g.WellFormed) (p : PinId) : (g.removePin p).WellFormed := by
  cases hp : g.ownerOf? p with
  | none =>
    unfold Graph.removePin
    rwa [hp]
  | some n =>
    have hbooks := sameBooks_breakPinLinks g p
    refine ⟨?_, fun m ↦ ?_, fun m node hm ↦ ?_, fun m ↦ ?_, fun m q ↦ ?_⟩
    · rw [order_removePin]
      exact h.nodup_order
    · rw [order_removePin, h.mem_order, ← hbooks.isSome_node?, node?_removePin hp]
      split
      · rw [Option.isSome_map]
      · rfl
    · rw [node?_removePin hp] at hm
      split at hm
      · obtain ⟨old, hold, rfl⟩ := Option.map_eq_some_iff.1 hm
        exact (hbooks.wellFormed h).id_eq m old hold
      · exact (hbooks.wellFormed h).id_eq m node hm
    · rw [pinsOf_removePin h hp]
      exact (h.nodup_pinsOf m).filter _
    · have howner := hbooks.owners q
      rw [ownerOf?] at howner
      rw [pinsOf_removePin h hp, ownerOf?, pin?_removePin hp, List.mem_filter, h.mem_pinsOf]
      by_cases hq : p = q
      · simp [hq]
      · simp [hq, Ne.symm hq, howner]

end Removing

end VisualScript.Graph
