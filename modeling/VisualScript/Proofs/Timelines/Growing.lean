import VisualScript.Proofs.Graph.Linking
import VisualScript.Proofs.Graph.Moving

/-!
# Graphs with timelines that grow

While timelines are expanded nodes come in beside those that are there, and those keep their
pins.  Links come from events and from the pins of timeline nodes, which have different names.
-/

namespace VisualScript

namespace Graph

/-! ## Growing -/

/-- Nodes that were there stay as they are, and so do their pins but for the links. -/
structure Grows (g g' : Graph) : Prop extends Widens g g' where
  nodes : ∀ n : NodeId, n.index < g.nodes.size → g'.node? n = g.node? n
  faces : ∀ p : PinId, p.index < g.pins.size →
    (g'.pin? p).map Pin.unwired = (g.pin? p).map Pin.unwired
  defaults : ∀ p : PinId, p.index < g.pins.size → g'.defaultsOf? p = g.defaultsOf? p
  timelines : ∀ n T, g'.kind? n = some (.timeline T) → n.index < g.nodes.size

namespace Grows

variable {g g' g'' : Graph} {n : NodeId} {d : Direction} {name : String} {p : PinId}

theorem refl (g : Graph) : Grows g g :=
  ⟨.refl g, fun _ _ ↦ rfl, fun _ _ ↦ rfl, fun _ _ ↦ rfl, fun _ _ ↦ lt_size_of_kind?⟩

section Reading

variable (h : Grows g g')
include h

theorem kind?_eq (hn : n.index < g.nodes.size) : g'.kind? n = g.kind? n := by
  rw [Graph.kind?, h.nodes n hn, Graph.kind?]

theorem kind? {kind : NodeKind} (hn : g.kind? n = some kind) : g'.kind? n = some kind :=
  (h.kind?_eq (lt_size_of_kind? hn)).trans hn

theorem timeline? {T : String} (hn : g'.kind? n = some (.timeline T)) :
    g.kind? n = some (.timeline T) :=
  (h.kind?_eq (h.timelines n T hn)).symm.trans hn

theorem pinAt (hp : g.PinAt n d name p) : g'.PinAt n d name p := hp.congr (h.faces p hp.lt_size)

theorem directionOf? (hp : g.directionOf? p = some d) : g'.directionOf? p = some d := by
  obtain ⟨pin, hpin, rfl⟩ := directionOf?_eq_some.1 hp
  exact (h.pinAt ⟨pin, hpin, rfl, rfl, rfl⟩).directionOf?

/-- Nodes that were there get no pins. -/
theorem pinAt_iff (hwf : g.WellFormed) (hwf' : g'.WellFormed) (hn : n.index < g.nodes.size) :
    g'.PinAt n d name p ↔ g.PinAt n d name p := by
  refine ⟨fun hp ↦ ?_, h.pinAt⟩
  have hmem := (hwf'.mem_pinsOf n p).2 hp.ownerOf?
  rw [Graph.pinsOf, h.nodes n hn, ← Graph.pinsOf, hwf.mem_pinsOf] at hmem
  obtain ⟨pin, hpin, -⟩ := ownerOf?_eq_some.1 hmem
  exact hp.congr (h.faces p (lt_of_pin?_eq_some hpin)).symm

end Reading

theorem trans (h : Grows g g') (h' : Grows g' g'') : Grows g g'' where
  toWidens := h.toWidens.trans h'.toWidens
  nodes n hn := (h'.nodes n (Nat.lt_of_lt_of_le hn h.size_nodes)).trans (h.nodes n hn)
  faces p hp := (h'.faces p (Nat.lt_of_lt_of_le hp h.size_pins)).trans (h.faces p hp)
  defaults p hp := (h'.defaults p (Nat.lt_of_lt_of_le hp h.size_pins)).trans (h.defaults p hp)
  timelines n T hn := h.timelines n T (h'.timeline? hn)

/-! ### Edits -/

theorem spawn (h : Grows g g') {kind : NodeKind} (hkind : ∀ T, kind ≠ .timeline T) (x y : Int) :
    Grows g ((g'.spawnIntermediate kind).2.setPosition ⟨g'.nodes.size⟩ x y) := by
  have hspawned := (spawned_spawnIntermediate g' kind).setPosition x y
  have hwidens : Widens g' ((g'.spawnIntermediate kind).2.setPosition ⟨g'.nodes.size⟩ x y) :=
    (Widens.spawnIntermediate g' kind).trans (.modifyNode _ _ _)
  have hpin (p : PinId) (hp : p.index < g.pins.size) :=
    hspawned.pin?_of_lt (Nat.lt_of_lt_of_le hp h.size_pins)
  refine ⟨h.toWidens.trans hwidens, fun n hn ↦ ?_, fun p hp ↦ ?_, fun p hp ↦ ?_, fun n T hn ↦ ?_⟩
  · refine (hspawned.node? n ?_).trans (h.nodes n hn)
    rintro rfl
    exact absurd hn (Nat.not_lt.2 h.size_nodes)
  · rw [hpin p hp]
    exact h.faces p hp
  · rw [defaultsOf?, hpin p hp, ← defaultsOf?]
    exact h.defaults p hp
  · by_cases hnew : n = ⟨g'.nodes.size⟩
    · subst hnew
      exact absurd (Option.some.inj (hspawned.kind?.symm.trans hn)) (hkind T)
    · rw [Graph.kind?, hspawned.node? n hnew] at hn
      exact h.timelines n T hn

/-- Links may be made and moved if only new pins get other defaults. -/
theorem rewire (h : Grows g g') (hwidens : Widens g' g'') (hfaces : SameFaces g' g'')
    (hdefaults : ∀ p : PinId, p.index < g.pins.size → g''.defaultsOf? p = g'.defaultsOf? p) :
    Grows g g'' where
  toWidens := h.toWidens.trans hwidens
  nodes n hn := (hfaces.nodes n).trans (h.nodes n hn)
  faces p hp := (hfaces.pins p).trans (h.faces p hp)
  defaults p hp := (hdefaults p hp).trans (h.defaults p hp)
  timelines n T hn := h.timelines n T ((hfaces.kind?_eq n).symm.trans hn)

theorem addPin (h : Grows g g') {desc : PinDescription} (hn : g.nodes.size ≤ n.index)
    (hadd : g'.addPin n d desc = .ok (p, g'')) : Grows g g'' := by
  have hadds := addsPin_of_addPin hadd
  have hwidens := Widens.addPin hadd
  have halloc : g'.allocPin n d desc = (p, g'') := by
    unfold Graph.addPin at hadd
    split at hadd
    · exact Except.ok.inj hadd
    · cases hadd
  have hpin (q : PinId) (hq : q.index < g.pins.size) : g''.pin? q = g'.pin? q := by
    rw [hadds.pin?, if_neg]
    rintro rfl
    obtain rfl : q = ⟨g'.pins.size⟩ := (congrArg Prod.fst halloc).symm
    exact absurd hq (Nat.not_lt.2 h.size_pins)
  refine ⟨h.toWidens.trans hwidens, fun m hm ↦ ?_, fun q hq ↦ ?_, fun q hq ↦ ?_, fun m T hm ↦ ?_⟩
  · obtain rfl : (g'.allocPin n d desc).2 = g'' := congrArg Prod.snd halloc
    rw [node?_allocPin, if_neg, h.nodes m hm]
    rintro rfl
    exact absurd hm (Nat.not_lt.2 hn)
  · rw [hpin q hq]
    exact h.faces q hq
  · rw [defaultsOf?, hpin q hq, ← defaultsOf?]
    exact h.defaults q hq
  · exact h.timelines m T ((hadds.kind? m).symm.trans hm)

end Grows

/-! ## Graphs with timelines -/

/-- Running goes on from the node and is not led to it. -/
structure Begins (g : Graph) (n : NodeId) : Prop where
  goesOn : ∃ p, g.PinAt n .output PinName.thenOut p
  noInput : ∀ name p, ¬g.PinAt n .input name p

/-- Events begin something, and the pins of timeline nodes are told apart by their names. -/
structure Playable (g : Graph) : Prop where
  wellFormed : g.WellFormed
  linked : g.Linked
  events : ∀ n e, g.kind? n = some (.event e) → g.Begins n
  names : ∀ n T, g.kind? n = some (.timeline T) → g.NamesPins n

variable {g g' g'' : Graph} {n m : NodeId} {d : Direction} {x : String} {p q t : PinId}
  {kind : NodeKind}

theorem Spawned.begins {e : EventData} (h : Spawned (.event e) (g.newPins (.event e)) g g')
    (hg : g.WellFormed) : g'.Begins ⟨g.nodes.size⟩ where
  goesOn := h.exists_pinAt (NodeKind.execOut PinName.thenOut) List.mem_cons_self
  noInput name p hp := by
    obtain ⟨desc, hdesc, hdirection, -⟩ := h.of_pinAt hg hp
    rw [List.mem_singleton.1 hdesc] at hdirection
    cases hdirection

namespace Playable

/-- A node may be new or get pins if it is no timeline and begins something if it is an event. -/
theorem edit (h : g.Playable) (hwf : g'.WellFormed) (hlinked : g'.Linked)
    (hnodes : ∀ n kind, g'.kind? n = some kind →
      (g.kind? n = some kind ∧ ∀ d name p, g'.PinAt n d name p ↔ g.PinAt n d name p) ∨
        (∀ T, kind ≠ .timeline T) ∧ ∀ e, kind = .event e → g'.Begins n) : g'.Playable where
  wellFormed := hwf
  linked := hlinked
  events n e hn := by
    rcases hnodes n _ hn with ⟨hold, hpins⟩ | ⟨-, hnew⟩
    · have hbegins := h.events n e hold
      refine ⟨hbegins.goesOn.imp fun p hp ↦ (hpins _ _ p).2 hp, fun name p hp ↦ ?_⟩
      exact hbegins.noInput name p ((hpins _ _ p).1 hp)
    · exact hnew e rfl
  names n T hn d name p q hp hq := by
    rcases hnodes n _ hn with ⟨hold, hpins⟩ | ⟨hnew, -⟩
    · exact h.names n T hold ((hpins d name p).1 hp) ((hpins d name q).1 hq)
    · exact absurd rfl (hnew T)

theorem rewire (h : g.Playable) (hfaces : SameFaces g g') (hlinked : g'.Linked) : g'.Playable :=
  h.edit (hfaces.sameBooks.wellFormed h.wellFormed) hlinked fun n _ hn ↦
    .inl ⟨(hfaces.kind?_eq n).symm.trans hn, fun _ _ _ ↦ hfaces.pinAt_iff⟩

theorem spawn (h : g.Playable) (hkind : ∀ T, kind ≠ .timeline T) (x y : Int) :
    ((g.spawnIntermediate kind).2.setPosition ⟨g.nodes.size⟩ x y).Playable := by
  have hspawned := (spawned_spawnIntermediate g kind).setPosition x y
  refine h.edit ?_ (hspawned.linked h.linked) fun n kind' hn ↦ ?_
  · exact (sameBooks_setPosition _ _ x y).wellFormed (h.wellFormed.spawnIntermediate kind)
  · by_cases hnew : n = ⟨g.nodes.size⟩
    · subst hnew
      obtain rfl := Option.some.inj (hspawned.kind?.symm.trans hn)
      refine .inr ⟨hkind, ?_⟩
      rintro e rfl
      exact hspawned.begins h.wellFormed
    · refine .inl ⟨?_, fun _ _ _ ↦ hspawned.pinAt_iff_of_ne hnew⟩
      rw [← hn, Graph.kind?, Graph.kind?, hspawned.node? n hnew]

theorem addPin (h : g.Playable) {desc : PinDescription} (hn : g.kind? n = some kind)
    (htimeline : ∀ T, kind ≠ .timeline T) (hevent : ∀ e, kind ≠ .event e)
    (hadd : g.addPin n d desc = .ok (p, g')) : g'.Playable := by
  have hadds := addsPin_of_addPin hadd
  refine h.edit (h.wellFormed.addPin hadd) (hadds.linked rfl h.linked) fun m kind' hm ↦ ?_
  rw [hadds.kind?] at hm
  by_cases hmn : m = n
  · subst hmn
    obtain rfl := Option.some.inj (hn.symm.trans hm)
    exact .inr ⟨htimeline, fun e he ↦ absurd he (hevent e)⟩
  · exact .inl ⟨hm, fun _ _ _ ↦ hadds.pinAt_iff_of_ne rfl hmn⟩

end Playable

/-! ### Checking graphs -/

theorem begins_iff : g.Begins n ↔
    (∃ i < g.pins.size, ∃ pin ∈ g.pin? ⟨i⟩, pin.owner = n ∧ pin.direction = .output ∧
      pin.name = PinName.thenOut) ∧
    ∀ i < g.pins.size, ∀ pin ∈ g.pin? ⟨i⟩, pin.owner = n → pin.direction ≠ .input := by
  constructor
  · rintro ⟨⟨p, hp⟩, hnone⟩
    refine ⟨⟨p.index, hp.lt_size, hp⟩, fun i _ pin hpin howner hdirection ↦ ?_⟩
    exact hnone pin.name ⟨i⟩ ⟨pin, hpin, howner, hdirection, rfl⟩
  · rintro ⟨⟨i, -, hp⟩, hnone⟩
    refine ⟨⟨⟨i⟩, hp⟩, fun name p hp ↦ ?_⟩
    have hlt := hp.lt_size
    obtain ⟨pin, hpin, howner, hdirection, -⟩ := hp
    exact hnone p.index hlt pin hpin howner hdirection

instance (g : Graph) (n : NodeId) : Decidable (g.Begins n) := decidable_of_iff _ begins_iff.symm

theorem namesPins_iff : g.NamesPins n ↔ ∀ i < g.pins.size, ∀ pin ∈ g.pin? ⟨i⟩, pin.owner = n →
    ∀ j < g.pins.size, ∀ pin' ∈ g.pin? ⟨j⟩, pin'.owner = n → pin'.direction = pin.direction →
      pin'.name = pin.name → i = j := by
  constructor
  · intro h i _ pin hpin howner j _ pin' hpin' howner' hdirection hname
    have hp : g.PinAt n pin.direction pin.name ⟨i⟩ := ⟨pin, hpin, howner, rfl, rfl⟩
    exact congrArg PinId.index (h hp ⟨pin', hpin', howner', hdirection, hname⟩)
  · rintro h d name ⟨i⟩ ⟨j⟩ ⟨pin, hpin, howner, rfl, rfl⟩ ⟨pin', hpin', howner', hdirection, hname⟩
    have hi := h i (lt_of_pin?_eq_some hpin) pin hpin howner
    exact congrArg PinId.mk
      (hi j (lt_of_pin?_eq_some hpin') pin' hpin' howner' hdirection hname)

instance (g : Graph) (n : NodeId) : Decidable (g.NamesPins n) :=
  decidable_of_iff _ namesPins_iff.symm

/-- What is asked of a node of the kind. -/
def Fits (g : Graph) (n : NodeId) : NodeKind → Prop
  | .event _ => g.Begins n
  | .timeline _ => g.NamesPins n
  | _ => True

instance (g : Graph) (n : NodeId) : (kind : NodeKind) → Decidable (g.Fits n kind)
  | .event _ => inferInstanceAs (Decidable (g.Begins n))
  | .timeline _ => inferInstanceAs (Decidable (g.NamesPins n))
  | .functionEntry _ | .functionResult | .callFunction _ | .variableGet _ | .variableSet _
  | .temporaryVariable _ | .branch | .knot _ | .makeArray _ _ | .macroInstance _ | .tunnel _
  | .comment _ => isTrue trivial

theorem playable_iff : g.Playable ↔ g.WellFormed ∧ g.Linked ∧
    ∀ i < g.nodes.size, ∀ kind ∈ g.kind? ⟨i⟩, g.Fits ⟨i⟩ kind := by
  constructor
  · intro h
    refine ⟨h.wellFormed, h.linked, fun i _ kind hkind ↦ ?_⟩
    unfold Fits
    split
    · exact h.events ⟨i⟩ _ hkind
    · exact h.names ⟨i⟩ _ hkind
    · trivial
  · rintro ⟨hwf, hlinked, hfits⟩
    exact ⟨hwf, hlinked, fun n e hn ↦ hfits n.index (lt_size_of_kind? hn) _ hn,
      fun n T hn ↦ hfits n.index (lt_size_of_kind? hn) _ hn⟩

instance (g : Graph) : Decidable g.Playable := decidable_of_iff _ playable_iff.symm

/-- The pin is one of a timeline node. -/
def OnTimeline (g : Graph) (p : PinId) : Prop :=
  ∃ n T d name, g.kind? n = some (.timeline T) ∧ g.PinAt n d name p

/-- The pin is one of another node. -/
def OffTimeline (g : Graph) (p : PinId) : Prop :=
  ∃ n kind d name, g.kind? n = some kind ∧ (∀ T, kind ≠ .timeline T) ∧ g.PinAt n d name p

theorem OffTimeline.not_onTimeline (h : g.OffTimeline p) : ¬g.OnTimeline p := by
  rintro ⟨n, T, d, name, hkind, hp⟩
  obtain ⟨m, kind, d', name', hkind', hne, hp'⟩ := h
  obtain rfl := (hp.unique hp').1
  exact hne T (Option.some.inj (hkind'.symm.trans hkind))

theorem OffTimeline.grows (h : g.OffTimeline p) (hgrows : Grows g g') : g'.OffTimeline p := by
  obtain ⟨n, kind, d, name, hkind, hne, hp⟩ := h
  exact ⟨n, kind, d, name, hgrows.kind? hkind, hne, hgrows.pinAt hp⟩

/-! ## Edits in a row -/

/-- The graph has grown, `f` says where the links of each pin are now, and `joins` which links
are new. -/
structure Evolves (f : PinId → PinId) (joins : PinId → PinId → Prop) (g g' : Graph) : Prop where
  playable : g'.Playable
  grows : Grows g g'
  relinks : Relinks f joins g g'

namespace Evolves

variable {f : PinId → PinId} {joins : PinId → PinId → Prop}

theorem refl (hg : g.Playable) : Evolves id (fun _ _ ↦ False) g g := ⟨hg, .refl g, .refl g⟩

section Edit

variable (h : Evolves f joins g g')
include h

theorem spawn (hkind : ∀ T, kind ≠ .timeline T) (x y : Int) :
    Evolves f joins g ((g'.spawnIntermediate kind).2.setPosition ⟨g'.nodes.size⟩ x y) where
  playable := h.playable.spawn hkind x y
  grows := h.grows.spawn hkind x y
  relinks p q :=
    ((spawned_spawnIntermediate g' kind).setPosition x y).mem_linksOf_iff.trans (h.relinks p q)

theorem addPin {desc : PinDescription} (hn : g.nodes.size ≤ n.index)
    (hkind : g'.kind? n = some kind) (htimeline : ∀ T, kind ≠ .timeline T) (hevent : ∀ e, kind ≠ .event e)
    (hadd : g'.addPin n d desc = .ok (p, g'')) : Evolves f joins g g'' where
  playable := h.playable.addPin hkind htimeline hevent hadd
  grows := h.grows.addPin hn hadd
  relinks p q := ((addsPin_of_addPin hadd).mem_linksOf_iff rfl).trans (h.relinks p q)

theorem link {a b : PinId} (hmake : g'.makeLink a b = .ok g'') :
    Evolves f (fun p q ↦ joins p q ∨ p = a ∧ q = b) g g'' where
  playable := h.playable.rewire (sameFaces_makeLink hmake) (h.playable.linked.makeLink hmake)
  grows := h.grows.rewire (.makeLink hmake) (sameFaces_makeLink hmake) fun p _ ↦
    defaultsOf?_makeLink hmake p
  relinks := h.relinks.trans (.makeLink h.playable.linked hmake) fun _ _ _ ↦ ⟨rfl, rfl⟩

/-- Links may be moved to a new pin or to an output. -/
theorem move (hmoved : Moved p t g' g'') (hjoins : ∀ a b, joins a b → a ≠ p ∧ b ≠ p)
    (ht : g.pins.size ≤ t.index ∨ g'.directionOf? t = some .output) :
    Evolves (Function.update id p t ∘ f) joins g g'' where
  playable := h.playable.rewire hmoved.faces hmoved.linked
  grows := h.grows.rewire hmoved.widens hmoved.faces fun r hr ↦ by
    refine hmoved.others r (ht.imp_left ?_)
    rintro hle rfl
    exact absurd hr (Nat.not_lt.2 hle)
  relinks := by
    have hrelinks := h.relinks.trans hmoved.relinks fun a b hjoin ↦
      ⟨Function.update_of_ne (hjoins a b hjoin).1 _ _,
        Function.update_of_ne (hjoins a b hjoin).2 _ _⟩
    simpa only [or_false] using hrelinks

/-- What is linked to a pin that was there is no pin of a new node, if only pins of the same
direction have moved. -/
theorem ownerOf?_ne (hg : g.Playable) (hm : g.nodes.size ≤ m.index) (hp : g.directionOf? p = some d)
    (hmoved : ∀ a, f a ≠ a → g.directionOf? a = some d ∧ f a ≠ p)
    (hjoins : ∀ a b, joins a b → a ≠ p ∧ b ≠ p) (hq : q ∈ g'.linksOf p) :
    g'.ownerOf? q ≠ some m := by
  rcases (h.relinks p q).1 hq with ⟨a, b, hab, hfa, rfl⟩ | hjoin | hjoin
  · obtain rfl : a = p := by
      by_contra hne
      exact (hmoved a (hfa ▸ Ne.symm hne)).2 hfa
    obtain ⟨bpin, hbpin, hdirection⟩ := hg.linked.exists_pin?_ne hab hp
    have hfix : f b = b := by
      by_contra hne
      have hb : g.directionOf? b = some bpin.direction := directionOf?_eq_some.2 ⟨bpin, hbpin, rfl⟩
      exact hdirection (Option.some.inj (hb.symm.trans (hmoved b hne).1))
    have howner : g.ownerOf? b = some bpin.owner := ownerOf?_of_pin? hbpin
    have hsame : g'.ownerOf? b = g.ownerOf? b := by
      have hface := congrArg (Option.map Pin.owner) (h.grows.faces b (lt_of_pin?_eq_some hbpin))
      rw [Option.map_map, Option.map_map] at hface
      exact hface
    rw [hfix, hsame, howner]
    rintro ⟨rfl⟩
    exact absurd (hg.wellFormed.lt_size_of_ownerOf? howner) (Nat.not_lt.2 hm)
  · exact absurd rfl (hjoins p q hjoin).1
  · exact absurd rfl (hjoins q p hjoin).2

end Edit

end Evolves

end Graph

end VisualScript
