import VisualScript.Compile.Validate
import VisualScript.Proofs.Code.Inlining
import VisualScript.Proofs.Graph.Books
import VisualScript.Proofs.Graph.Fragment
import VisualScript.Proofs.Log

/-!
# Linking and unlinking

In a linked graph every link is recorded at both ends and joins an output of one
node to an input of another.  A graph without faults is linked, and every edit of
links keeps it so.
-/

namespace VisualScript.Graph

/-- Links are recorded at both ends and join pins of different nodes and directions. -/
def Linked (g : Graph) : Prop :=
  ∀ p q pin, g.pin? p = some pin → q ∈ pin.links → ∃ pin', g.pin? q = some pin' ∧
    p ∈ pin'.links ∧ pin'.owner ≠ pin.owner ∧ pin'.direction ≠ pin.direction

/-- The node of a pin and the direction in which the pin points. -/
def end? (g : Graph) (p : PinId) : Option (NodeId × Direction) :=
  (g.pin? p).map fun pin ↦ (pin.owner, pin.direction)

/-- The pins are on different nodes and point in different directions. -/
def Joins (g : Graph) (p q : PinId) : Prop :=
  ∃ x y, g.end? p = some x ∧ g.end? q = some y ∧ y.1 ≠ x.1 ∧ y.2 ≠ x.2

variable {g g' : Graph} {a b p q : PinId}

theorem Joins.symm (h : g.Joins p q) : g.Joins q p := by
  obtain ⟨x, y, hx, hy, howner, hdirection⟩ := h
  exact ⟨y, x, hy, hx, howner.symm, hdirection.symm⟩

theorem Joins.congr (h : g.Joins p q) (hp : g'.end? p = g.end? p) (hq : g'.end? q = g.end? q) :
    g'.Joins p q := by
  obtain ⟨x, y, hx, hy, hne⟩ := h
  exact ⟨x, y, hp.trans hx, hq.trans hy, hne⟩

theorem not_joins_self : ¬g.Joins p p := by
  rintro ⟨x, y, hx, hy, howner, -⟩
  rw [hx, Option.some.injEq] at hy
  exact howner (congrArg Prod.fst hy.symm)

theorem joins_of_pin? {pin pin' : Pin} (hp : g.pin? p = some pin) (hq : g.pin? q = some pin')
    (howner : pin'.owner ≠ pin.owner) (hdirection : pin'.direction ≠ pin.direction) :
    g.Joins p q := by
  refine ⟨(pin.owner, pin.direction), (pin'.owner, pin'.direction), ?_, ?_, howner, hdirection⟩
  · rw [end?, hp, Option.map_some]
  · rw [end?, hq, Option.map_some]

theorem linked_iff : g.Linked ↔ ∀ p q, q ∈ g.linksOf p → p ∈ g.linksOf q ∧ g.Joins p q := by
  constructor
  · intro h p q hq
    obtain ⟨pin, hpin, hlink⟩ := mem_linksOf.1 hq
    obtain ⟨pin', hpin', hback, hne⟩ := h p q pin hpin hlink
    exact ⟨mem_linksOf.2 ⟨pin', hpin', hback⟩, joins_of_pin? hpin hpin' hne.1 hne.2⟩
  · intro h p q pin hpin hlink
    obtain ⟨hback, x, y, hx, hy, hne⟩ := h p q (mem_linksOf.2 ⟨pin, hpin, hlink⟩)
    obtain ⟨pin', hpin', hlink'⟩ := mem_linksOf.1 hback
    simp only [end?, hpin, hpin', Option.map_some, Option.some.injEq] at hx hy
    subst hx hy
    exact ⟨pin', hpin', hlink', hne⟩

theorem Linked.symm (h : g.Linked) (hq : q ∈ g.linksOf p) : p ∈ g.linksOf q :=
  (linked_iff.1 h p q hq).1

theorem Linked.not_mem_linksOf_self (h : g.Linked) : p ∉ g.linksOf p :=
  fun hp ↦ not_joins_self (linked_iff.1 h p p hp).2

/-- Links may be taken away at both ends. -/
theorem Linked.congr (h : g.Linked)
    (hlinks : ∀ p q, q ∈ g'.linksOf p → q ∈ g.linksOf p ∧ p ∈ g'.linksOf q)
    (hends : ∀ p q, q ∈ g'.linksOf p → g'.end? p = g.end? p) : g'.Linked := by
  refine linked_iff.2 fun p q hq ↦ ?_
  obtain ⟨hold, hback⟩ := hlinks p q hq
  exact ⟨hback, (linked_iff.1 h p q hold).2.congr (hends p q hq) (hends q p hback)⟩

/-! ## Graphs without faults -/

/-- A well-formed graph in which no error is found is linked. -/
theorem WellFormed.linked (h : g.WellFormed) {schema : Schema} {log : MessageLog}
    (hlog : (g.validate schema log).numErrors ≤ log.numErrors) : g.Linked := by
  intro p q pin hpin hlink
  have hquiet (m : Message) (hm : m ∈ g.linkFaults schema p pin q) : m.severity ≠ .error := by
    refine MessageLog.severity_ne_error_of_pushAll hlog m ?_
    have howner := ownerOf?_of_pin? hpin
    have hmem : p ∈ g.pinsOf pin.owner := (h.mem_pinsOf _ p).2 howner
    refine List.mem_flatMap.2 ⟨pin.owner, h.mem_order_of_mem_pinsOf hmem, List.mem_append_left _ ?_⟩
    refine List.mem_flatMap.2 ⟨p, hmem, ?_⟩
    simp only [pinFaults, hpin, List.mem_append]
    exact .inl (.inl (.inl (List.mem_flatMap.2 ⟨q, hlink, hm⟩)))
  unfold linkFaults at hquiet
  cases hpin' : g.pin? q with
  | none =>
    rw [hpin'] at hquiet
    exact absurd rfl (hquiet _ List.mem_cons_self)
  | some pin' =>
    rw [hpin'] at hquiet
    simp only [List.mem_append] at hquiet
    refine ⟨pin', rfl, ?_, ?_, ?_⟩
    · by_contra hback
      rw [if_neg hback] at hquiet
      exact hquiet _ (.inl (.inl (.inl List.mem_cons_self))) rfl
    · intro howner
      rw [if_pos howner] at hquiet
      exact hquiet _ (.inl (.inl (.inr List.mem_cons_self))) rfl
    · intro hdirection
      rw [if_pos hdirection] at hquiet
      exact hquiet _ (.inl (.inr List.mem_cons_self)) rfl

/-! ## Making links -/

/-- Pins that can be linked are on different nodes and point in different directions. -/
theorem joins_of_makeLink (hmake : g.makeLink a b = .ok g') : g.Joins a b := by
  obtain ⟨pa, pb, ha, hb, hdirection, howner, -⟩ := makeLink_eq_ok hmake
  exact joins_of_pin? ha hb howner.symm hdirection.symm

/-- Pins of different nodes and directions can be linked. -/
theorem Joins.exists_makeLink (h : g.Joins a b) : ∃ g', g.makeLink a b = .ok g' := by
  obtain ⟨x, y, hx, hy, howner, hdirection⟩ := h
  obtain ⟨pa, hpa, rfl⟩ := Option.map_eq_some_iff.1 hx
  obtain ⟨pb, hpb, rfl⟩ := Option.map_eq_some_iff.1 hy
  dsimp only at howner hdirection
  unfold makeLink pin
  rw [hpa, hpb]
  simp only [bind, Except.bind, if_neg hdirection.symm, if_neg howner.symm]
  split
  · exact ⟨_, rfl⟩
  · exact ⟨_, rfl⟩

theorem linksOf_modifyPin (g : Graph) (a p : PinId) (f : Pin → Pin) :
    (g.modifyPin a f).linksOf p =
      if a = p then ((g.pin? p).map fun pin ↦ (f pin).links).getD [] else g.linksOf p := by
  unfold linksOf
  rw [pin?_modifyPin]
  split
  · rw [Option.map_map]
    rfl
  · rfl

theorem end?_modifyPin (g : Graph) (a p : PinId) {f : Pin → Pin}
    (hf : ∀ pin, (f pin).owner = pin.owner ∧ (f pin).direction = pin.direction) :
    (g.modifyPin a f).end? p = g.end? p := by
  unfold end?
  rw [pin?_modifyPin]
  split
  · cases g.pin? p with
    | none => rfl
    | some pin => exact congrArg some (Prod.ext (hf pin).1 (hf pin).2)
  · rfl

/-- Edits of pins that keep the links keep the graph linked. -/
theorem Linked.modifyPin (h : g.Linked) (a : PinId) {f : Pin → Pin}
    (hf : ∀ pin, (f pin).owner = pin.owner ∧ (f pin).direction = pin.direction ∧
      (f pin).links = pin.links) : (g.modifyPin a f).Linked := by
  have hlinks (p : PinId) : (g.modifyPin a f).linksOf p = g.linksOf p := by
    rw [linksOf_modifyPin]
    split
    · unfold linksOf
      cases g.pin? p with
      | none => rfl
      | some pin => exact (hf pin).2.2
    · rfl
  refine h.congr (fun p q hq ↦ ?_) fun p q _ ↦ end?_modifyPin g a p fun pin ↦ ⟨(hf pin).1, (hf pin).2.1⟩
  rw [hlinks] at hq ⊢
  exact ⟨hq, h.symm hq⟩

theorem mem_linksOf_makeLink (h : g.Linked) (hmake : g.makeLink a b = .ok g') :
    q ∈ g'.linksOf p ↔ q ∈ g.linksOf p ∨ (p = a ∧ q = b) ∨ (p = b ∧ q = a) := by
  obtain ⟨pa, pb, ha, hb, -, howner, ⟨hlink, rfl⟩ | ⟨-, rfl⟩⟩ := makeLink_eq_ok hmake
  · refine ⟨.inl, fun hq ↦ ?_⟩
    have hlinked : b ∈ g'.linksOf a := mem_linksOf.2 ⟨pa, ha, hlink⟩
    rcases hq with hq | ⟨rfl, rfl⟩ | ⟨rfl, rfl⟩
    · exact hq
    · exact hlinked
    · exact h.symm hlinked
  · have hne : b ≠ a := by
      rintro rfl
      cases ha.symm.trans hb
      exact howner rfl
    rw [linksOf_modifyPin, pin?_modifyPin, linksOf_modifyPin]
    unfold linksOf
    by_cases hpa : a = p
    · subst hpa
      simp [hne, Ne.symm hne, ha]
    · by_cases hpb : b = p
      · subst hpb
        simp [hpa, hne, hb]
      · simp [hpa, hpb, Ne.symm hpa, Ne.symm hpb]

theorem end?_makeLink (hmake : g.makeLink a b = .ok g') (p : PinId) : g'.end? p = g.end? p := by
  obtain ⟨pa, pb, -, -, -, -, ⟨-, rfl⟩ | ⟨-, rfl⟩⟩ := makeLink_eq_ok hmake
  · rfl
  · rw [end?_modifyPin, end?_modifyPin]
    · exact fun _ ↦ ⟨rfl, rfl⟩
    · exact fun _ ↦ ⟨rfl, rfl⟩

theorem Linked.makeLink (h : g.Linked) (hmake : g.makeLink a b = .ok g') : g'.Linked := by
  have hends := end?_makeLink hmake
  have hjoins := joins_of_makeLink hmake
  refine linked_iff.2 fun p q hq ↦ ?_
  rw [mem_linksOf_makeLink h hmake]
  rcases (mem_linksOf_makeLink h hmake).1 hq with hold | ⟨rfl, rfl⟩ | ⟨rfl, rfl⟩
  · obtain ⟨hback, hjoined⟩ := linked_iff.1 h p q hold
    exact ⟨.inl hback, hjoined.congr (hends p) (hends q)⟩
  · exact ⟨.inr (.inr ⟨rfl, rfl⟩), hjoins.congr (hends p) (hends q)⟩
  · exact ⟨.inr (.inl ⟨rfl, rfl⟩), hjoins.symm.congr (hends p) (hends q)⟩

/-! ## Breaking links -/

theorem mem_linksOf_breakLink : q ∈ (g.breakLink a b).linksOf p ↔
    q ∈ g.linksOf p ∧ ¬(p = a ∧ q = b) ∧ ¬(p = b ∧ q = a) := by
  have hunlink (g : Graph) (a b p : PinId) :
      (g.modifyPin a fun pin ↦ { pin with links := pin.links.filter (· ≠ b) }).linksOf p =
        if a = p then (g.linksOf p).filter (· ≠ b) else g.linksOf p := by
    rw [linksOf_modifyPin]
    unfold linksOf
    cases g.pin? p <;> rfl
  rw [breakLink, hunlink, hunlink]
  by_cases hpa : a = p
  · by_cases hpb : b = p
    · simp [hpa, hpb]
    · simp [hpa, hpb, Ne.symm hpb]
  · by_cases hpb : b = p
    · simp [hpa, hpb, Ne.symm hpa]
    · simp [hpa, hpb, Ne.symm hpa, Ne.symm hpb]

theorem end?_breakLink (g : Graph) (a b p : PinId) : (g.breakLink a b).end? p = g.end? p := by
  rw [breakLink, end?_modifyPin, end?_modifyPin]
  · exact fun _ ↦ ⟨rfl, rfl⟩
  · exact fun _ ↦ ⟨rfl, rfl⟩

theorem Linked.breakLink (h : g.Linked) (a b : PinId) : (g.breakLink a b).Linked := by
  refine h.congr (fun p q hq ↦ ?_) fun p q _ ↦ end?_breakLink g a b p
  obtain ⟨hq, hforth, hback⟩ := mem_linksOf_breakLink.1 hq
  refine ⟨hq, mem_linksOf_breakLink.2 ⟨h.symm hq, ?_, ?_⟩⟩
  · exact fun ⟨hqa, hpb⟩ ↦ hback ⟨hpb, hqa⟩
  · exact fun ⟨hqb, hpa⟩ ↦ hforth ⟨hpa, hqb⟩

/-- A pin is cut off from every other. -/
theorem mem_linksOf_breakPinLinks (h : g.Linked) :
    q ∈ (g.breakPinLinks a).linksOf p ↔ q ∈ g.linksOf p ∧ p ≠ a ∧ q ≠ a := by
  have hfold (others : List PinId) (g : Graph) :
      q ∈ (others.foldl (fun g b ↦ g.breakLink a b) g).linksOf p ↔
        q ∈ g.linksOf p ∧ ¬(p = a ∧ q ∈ others) ∧ ¬(q = a ∧ p ∈ others) := by
    induction others generalizing g with
    | nil => simp
    | cons b others ih =>
      rw [List.foldl_cons, ih, mem_linksOf_breakLink, List.mem_cons, List.mem_cons]
      tauto
  rw [breakPinLinks, hfold]
  refine and_congr_right fun hq ↦ ⟨fun ⟨hout, hin⟩ ↦ ⟨?_, ?_⟩, fun ⟨hp, hq⟩ ↦ ⟨?_, ?_⟩⟩
  · rintro rfl
    exact hout ⟨rfl, hq⟩
  · rintro rfl
    exact hin ⟨rfl, h.symm hq⟩
  · exact fun hpa ↦ hp hpa.1
  · exact fun hqa ↦ hq hqa.1

theorem end?_breakPinLinks (g : Graph) (a p : PinId) : (g.breakPinLinks a).end? p = g.end? p :=
  List.foldlRecOn (motive := fun g' : Graph ↦ g'.end? p = g.end? p) _ _ rfl
    fun g' hg' b _ ↦ (end?_breakLink g' a b p).trans hg'

theorem Linked.breakPinLinks (h : g.Linked) (a : PinId) : (g.breakPinLinks a).Linked := by
  refine h.congr (fun p q hq ↦ ?_) fun p q _ ↦ end?_breakPinLinks g a p
  obtain ⟨hold, hp, hq⟩ := (mem_linksOf_breakPinLinks h).1 hq
  exact ⟨hold, (mem_linksOf_breakPinLinks h).2 ⟨h.symm hold, hq, hp⟩⟩

/-- A node is cut off from every other. -/
theorem mem_linksOf_breakNodeLinks (h : g.Linked) {n : NodeId} :
    q ∈ (g.breakNodeLinks n).linksOf p ↔ q ∈ g.linksOf p ∧ p ∉ g.pinsOf n ∧ q ∉ g.pinsOf n := by
  have hfold (pins : List PinId) (g : Graph) (h : g.Linked) :
      q ∈ (pins.foldl Graph.breakPinLinks g).linksOf p ↔ q ∈ g.linksOf p ∧ p ∉ pins ∧ q ∉ pins := by
    induction pins generalizing g with
    | nil => simp
    | cons a pins ih =>
      rw [List.foldl_cons, ih _ (h.breakPinLinks a), mem_linksOf_breakPinLinks h, List.mem_cons,
        List.mem_cons]
      tauto
  exact hfold _ g h

theorem end?_breakNodeLinks (g : Graph) (n : NodeId) (p : PinId) :
    (g.breakNodeLinks n).end? p = g.end? p :=
  List.foldlRecOn (motive := fun g' : Graph ↦ g'.end? p = g.end? p) _ _ rfl
    fun g' hg' a _ ↦ (end?_breakPinLinks g' a p).trans hg'

/-! ## Removing -/

theorem mem_linksOf_removeNode (h : g.Linked) {n : NodeId} (hn : g.contains n = true) :
    q ∈ (g.removeNode n).linksOf p ↔ q ∈ g.linksOf p ∧ p ∉ g.pinsOf n ∧ q ∉ g.pinsOf n := by
  rw [← mem_linksOf_breakNodeLinks h, linksOf, pin?_removeNode hn]
  split
  · next hp => simp [mem_linksOf_breakNodeLinks h, hp]
  · rfl

theorem Linked.removeNode (h : g.Linked) (n : NodeId) : (g.removeNode n).Linked := by
  cases hn : g.contains n with
  | false => rwa [removeNode_of_not_contains hn]
  | true =>
    have hmem (p q : PinId) := mem_linksOf_removeNode h hn (p := p) (q := q)
    refine h.congr (fun p q hq ↦ ?_) fun p q hq ↦ ?_
    · obtain ⟨hold, hp, hq⟩ := (hmem p q).1 hq
      exact ⟨hold, (hmem q p).2 ⟨h.symm hold, hq, hp⟩⟩
    · obtain ⟨-, hp, -⟩ := (hmem p q).1 hq
      rw [end?, pin?_removeNode hn, if_neg hp]
      exact end?_breakNodeLinks g n p

theorem mem_linksOf_removePin (h : g.Linked) {a : PinId} {n : NodeId}
    (ha : g.ownerOf? a = some n) {p q : PinId} :
    q ∈ (g.removePin a).linksOf p ↔ q ∈ g.linksOf p ∧ p ≠ a ∧ q ≠ a := by
  rw [← mem_linksOf_breakPinLinks h, linksOf, pin?_removePin ha]
  split
  · next heq => simp [mem_linksOf_breakPinLinks h, heq]
  · rfl

theorem Linked.removePin (h : g.Linked) (a : PinId) : (g.removePin a).Linked := by
  cases ha : g.ownerOf? a with
  | none =>
    unfold Graph.removePin
    rwa [ha]
  | some n =>
    refine h.congr (fun p q hq ↦ ?_) fun p q hq ↦ ?_
    · obtain ⟨hold, hp, hq⟩ := (mem_linksOf_removePin h ha).1 hq
      exact ⟨hold, (mem_linksOf_removePin h ha).2 ⟨h.symm hold, hq, hp⟩⟩
    · obtain ⟨-, hp, -⟩ := (mem_linksOf_removePin h ha).1 hq
      rw [end?, pin?_removePin ha, if_neg (Ne.symm hp)]
      exact end?_breakPinLinks g a p

end VisualScript.Graph

/-!
## Links between nodes

Where exec links join impure nodes only, a node that reads from a pure node is
linked to it by data links.

A graph has finitely many slots, so whether it is well-formed, whether it is linked and
which nodes its exec links join can be decided by looking at them, and so can whether two
graphs are the same.
-/

namespace VisualScript

deriving instance DecidableEq for Slots

deriving instance DecidableEq for Graph

namespace Graph

/-- Links at exec pins join impure nodes only. -/
def ExecJoinsImpure (g : Graph) : Prop :=
  ∀ p q pin pin', g.pin? p = some pin → q ∈ pin.links → g.pin? q = some pin' →
    pin.isExec = true ∨ pin'.isExec = true →
      g.isPure pin.owner = false ∧ g.isPure pin'.owner = false

variable {g : Graph}

/-- The first link of a pin leads to the first linked node. -/
theorem Linked.head?_linkedNodes (h : g.Linked) (p : PinId) :
    (g.linkedNodes p).head? = (g.linksOf p).head?.bind g.ownerOf? := by
  unfold linkedNodes
  cases hlinks : g.linksOf p with
  | nil => rfl
  | cons q rest =>
    obtain ⟨pin, hpin, hq⟩ := mem_linksOf.1 (hlinks ▸ List.mem_cons_self : q ∈ g.linksOf p)
    obtain ⟨pin', hpin', -⟩ := h p q pin hpin hq
    have howner := ownerOf?_of_pin? hpin'
    rw [List.filterMap_cons_some howner, List.head?_cons, List.head?_cons, Option.bind_some, howner]

/-- What reads from a pure node is linked to it by data links only. -/
theorem readsPaired (hwf : g.WellFormed) (hlinked : g.Linked) (hexec : g.ExecJoinsImpure) :
    g.ReadsPaired := by
  intro n m hpure
  constructor
  · intro h
    obtain ⟨p, hp, hn⟩ := List.mem_flatMap.1 h
    obtain ⟨hmem, pin, hpin, hdirection, -⟩ := mem_filteredPins.1 hp
    obtain ⟨q, hq, howner⟩ := mem_linkedNodes.1 hn
    obtain ⟨_, hpin₀, hlink⟩ := mem_linksOf.1 hq
    cases hpin.symm.trans hpin₀
    obtain ⟨pin', hpin', hback, hne, hdirection'⟩ := hlinked p q pin hpin hlink
    obtain rfl := hwf.owner_eq hmem hpin
    obtain rfl : pin'.owner = n := Option.some.inj ((ownerOf?_of_pin? hpin').symm.trans howner)
    have hdata : pin'.isExec = false := by
      by_contra hexec'
      have himpure := (hexec p q pin pin' hpin hlink hpin' (.inr (by simpa using hexec'))).1
      rw [hpure] at himpure
      cases himpure
    refine List.mem_filter.2 ⟨List.mem_flatMap.2 ⟨q, ?_, ?_⟩, by simpa using hne.symm⟩
    · refine mem_filteredPins.2 ⟨(hwf.mem_pinsOf _ q).2 howner, pin', hpin', ?_, hdata⟩
      cases hd : pin'.direction with
      | input => rfl
      | output => exact absurd (hd.trans hdirection.symm) hdirection'
    · exact mem_linkedNodes.2 ⟨p, mem_linksOf.2 ⟨pin', hpin', hback⟩, ownerOf?_of_pin? hpin⟩
  · intro h
    obtain ⟨q, hq, hm⟩ := List.mem_flatMap.1 (List.mem_filter.1 h).1
    obtain ⟨hmem, pin', hpin', hdirection', -⟩ := mem_filteredPins.1 hq
    obtain ⟨p, hp, howner⟩ := mem_linkedNodes.1 hm
    obtain ⟨_, hpin₀, hlink⟩ := mem_linksOf.1 hp
    cases hpin'.symm.trans hpin₀
    obtain ⟨pin, hpin, hback, -, hdirection⟩ := hlinked q p pin' hpin' hlink
    obtain rfl : pin.owner = m := Option.some.inj ((ownerOf?_of_pin? hpin).symm.trans howner)
    have hdata : pin.isExec = false := by
      by_contra hexec'
      have himpure := (hexec p q pin pin' hpin hback hpin' (.inl (by simpa using hexec'))).1
      rw [hpure] at himpure
      cases himpure
    refine List.mem_flatMap.2 ⟨p, ?_, ?_⟩
    · refine mem_filteredPins.2 ⟨(hwf.mem_pinsOf _ p).2 howner, pin, hpin, ?_, hdata⟩
      cases hd : pin.direction with
      | output => rfl
      | input => exact absurd (hd.trans hdirection'.symm) hdirection
    · exact mem_linkedNodes.2 ⟨q, mem_linksOf.2 ⟨pin, hpin, hback⟩, (hwf.mem_pinsOf n q).1 hmem⟩

/-! ### Checking graphs -/

/-- A graph is well-formed if the order and the slots that are in use agree. -/
theorem wellFormed_iff : g.WellFormed ↔
    g.order.Nodup ∧ (∀ n ∈ g.order, (g.node? n).isSome = true) ∧
    (∀ i < g.nodes.size, ∀ node ∈ g.node? ⟨i⟩, node.id = ⟨i⟩ ∧ ⟨i⟩ ∈ g.order ∧
      node.pins.Nodup ∧ ∀ p ∈ node.pins, g.ownerOf? p = some ⟨i⟩) ∧
    ∀ i < g.pins.size, ∀ pin ∈ g.pin? ⟨i⟩, ⟨i⟩ ∈ g.pinsOf pin.owner := by
  have hpins {n : NodeId} {node : Node} (hnode : g.node? n = some node) : g.pinsOf n = node.pins := by
    rw [pinsOf, hnode]
    rfl
  constructor
  · intro h
    refine ⟨h.nodup_order, fun n hn ↦ (h.mem_order n).1 hn, fun i _ node hnode ↦ ?_,
      fun i _ pin hpin ↦ (h.mem_pinsOf _ _).2 (ownerOf?_of_pin? hpin)⟩
    refine ⟨h.id_eq _ node hnode, (h.mem_order _).2 (by rw [hnode]; rfl), ?_, fun p hp ↦ ?_⟩
    · rw [← hpins hnode]
      exact h.nodup_pinsOf _
    · rw [← hpins hnode, h.mem_pinsOf] at hp
      exact hp
  · rintro ⟨horder, hlive, hnodes, hpinned⟩
    have hnode {n : NodeId} {node : Node} (h : g.node? n = some node) := hnodes n.index
      (lt_of_isSome_node? (n := n) (by rw [h]; rfl)) node h
    refine ⟨horder, fun n ↦ ⟨hlive n, fun hn ↦ ?_⟩, fun n node h ↦ (hnode h).1, fun n ↦ ?_,
      fun n p ↦ ⟨fun hp ↦ ?_, fun hp ↦ ?_⟩⟩
    · obtain ⟨node, h⟩ := Option.isSome_iff_exists.1 hn
      exact (hnode h).2.1
    · cases h : g.node? n with
      | none =>
        rw [pinsOf, h]
        exact List.nodup_nil
      | some node =>
        rw [hpins h]
        exact (hnode h).2.2.1
    · cases h : g.node? n with
      | none =>
        rw [pinsOf, h] at hp
        cases hp
      | some node =>
        rw [hpins h] at hp
        exact (hnode h).2.2.2 p hp
    · obtain ⟨pin, hpin, rfl⟩ := ownerOf?_eq_some.1 hp
      exact hpinned p.index (lt_of_pin?_eq_some hpin) pin hpin

instance (g : Graph) : Decidable g.WellFormed := decidable_of_iff _ wellFormed_iff.symm

/-- A graph is linked if the slots that are in use are. -/
theorem linked_iff_slots : g.Linked ↔ ∀ i < g.pins.size, ∀ pin ∈ g.pin? ⟨i⟩, ∀ q ∈ pin.links,
    ∃ pin' ∈ g.pin? q, ⟨i⟩ ∈ pin'.links ∧ pin'.owner ≠ pin.owner ∧
      pin'.direction ≠ pin.direction := by
  constructor
  · exact fun h i _ pin hpin q hq ↦ h ⟨i⟩ q pin hpin hq
  · exact fun h p q pin hpin hq ↦ h p.index (lt_of_pin?_eq_some hpin) pin hpin q hq

instance (g : Graph) : Decidable g.Linked := decidable_of_iff _ linked_iff_slots.symm

/-- Exec links join impure nodes if those between the slots that are in use do. -/
theorem execJoinsImpure_iff : g.ExecJoinsImpure ↔ ∀ i < g.pins.size, ∀ pin ∈ g.pin? ⟨i⟩,
    ∀ q ∈ pin.links, ∀ pin' ∈ g.pin? q, pin.isExec = true ∨ pin'.isExec = true →
      g.isPure pin.owner = false ∧ g.isPure pin'.owner = false := by
  constructor
  · exact fun h i _ pin hpin q hq pin' hpin' ↦ h ⟨i⟩ q pin pin' hpin hq hpin'
  · exact fun h p q pin pin' hpin hq hpin' ↦
      h p.index (lt_of_pin?_eq_some hpin) pin hpin q hq pin' hpin'

instance (g : Graph) : Decidable g.ExecJoinsImpure := decidable_of_iff _ execJoinsImpure_iff.symm

end Graph

end VisualScript
