import VisualScript.Expand.Timelines
import VisualScript.Proofs.Graph.Linking
import VisualScript.Proofs.Macros.Copies

/-!
# Sequences of edits

However a graph is edited from the empty one on, its tables agree with each other,
links are recorded once at both ends, and a name that was taken away never comes
back.  Each edit keeps this, also one that stops halfway with an error.
-/

namespace VisualScript.Graph

/-! ## Names of merged pins -/

section Merging

variable {host body : Graph} {p q r : PinId}

/-- Only the pins of live nodes get new names. -/
theorem mem_livePins_of_remapInto (hp : (remapInto host body).pin? p = some r) :
    p ∈ body.livePins := by
  obtain ⟨i, hi, heq⟩ := List.mem_mapIdx.1 (Assoc.mem_of_lookup_setAll hp)
  rw [← (Prod.mk.inj heq).1]
  exact List.getElem_mem hi

theorem pin?_remapInto_inj (h : body.WellFormed) (hp : (remapInto host body).pin? p = some r)
    (hq : (remapInto host body).pin? q = some r) : p = q := by
  obtain ⟨i, hi⟩ := List.getElem?_of_mem (mem_livePins_of_remapInto hp)
  obtain ⟨j, hj⟩ := List.getElem?_of_mem (mem_livePins_of_remapInto hq)
  rw [pin?_remapInto h hi, ← hq, pin?_remapInto h hj, Option.some.injEq, PinId.mk.injEq] at hp
  obtain rfl : i = j := by omega
  exact Option.some.inj (hi.symm.trans hj)

end Merging

/-! ## Sound graphs -/

/-- Every pin is found under its own name and lists no link twice. -/
def Filed (g : Graph) : Prop :=
  ∀ p pin, g.pin? p = some pin → pin.id = p ∧ pin.links.Nodup

/-- The tables agree, and every link is recorded exactly once at both ends. -/
structure Sound (g : Graph) : Prop where
  wellFormed : g.WellFormed
  linked : g.Linked
  filed : g.Filed

section Filed

variable {g g' : Graph} {a b p : PinId}

/-- Pins may be taken away. -/
theorem Filed.mono (h : g.Filed) (hpins : ∀ p pin, g'.pin? p = some pin → g.pin? p = some pin) :
    g'.Filed := fun p pin hpin ↦ h p pin (hpins p pin hpin)

theorem Filed.modifyPin (h : g.Filed) {f : Pin → Pin} (hf : ∀ pin, g.pin? a = some pin →
    pin.links.Nodup → (f pin).id = pin.id ∧ (f pin).links.Nodup) : (g.modifyPin a f).Filed := by
  intro p pin hpin
  rw [pin?_modifyPin] at hpin
  split at hpin
  · next heq =>
    subst heq
    obtain ⟨old, hold, rfl⟩ := Option.map_eq_some_iff.1 hpin
    obtain ⟨hid, hnodup⟩ := h a old hold
    obtain ⟨hsame, hlinks⟩ := hf old hold hnodup
    exact ⟨hsame.trans hid, hlinks⟩
  · exact h p pin hpin

theorem Filed.makeLink (h : g.Filed) (hlinked : g.Linked) (hmake : g.makeLink a b = .ok g') :
    g'.Filed := by
  obtain ⟨pa, pb, ha, hb, -, howner, ⟨-, rfl⟩ | ⟨hnew, rfl⟩⟩ := makeLink_eq_ok hmake
  · exact h
  · have hne : a ≠ b := by
      rintro rfl
      cases ha.symm.trans hb
      exact howner rfl
    -- links are recorded at both ends, so `b` does not list `a` either
    have hback : a ∉ pb.links := by
      intro hlink
      obtain ⟨pa', ha', hlink', -⟩ := hlinked b a pb hb hlink
      cases ha.symm.trans ha'
      exact hnew hlink'
    have hfirst := h.modifyPin (a := a) (f := fun p ↦ { p with links := p.links ++ [b] })
      fun pin hpin hnodup ↦ by
        obtain rfl := Option.some.inj (ha.symm.trans hpin)
        exact ⟨rfl, List.concat_eq_append ▸ hnodup.concat hnew⟩
    refine hfirst.modifyPin fun pin hpin hnodup ↦ ?_
    rw [pin?_modifyPin, if_neg hne] at hpin
    obtain rfl := Option.some.inj (hb.symm.trans hpin)
    exact ⟨rfl, List.concat_eq_append ▸ hnodup.concat hback⟩

theorem Filed.breakLink (h : g.Filed) (a b : PinId) : (g.breakLink a b).Filed := by
  refine (h.modifyPin fun pin _ hnodup ↦ ?_).modifyPin fun pin _ hnodup ↦ ?_
  · exact ⟨rfl, hnodup.filter _⟩
  · exact ⟨rfl, hnodup.filter _⟩

theorem Filed.allocPin (h : g.Filed) (n : NodeId) (direction : Direction) (desc : PinDescription) :
    (g.allocPin n direction desc).2.Filed := by
  intro p pin hpin
  rw [pin?_allocPin] at hpin
  split at hpin
  · next heq =>
    cases hpin
    exact ⟨heq.symm, List.nodup_nil⟩
  · exact h p pin hpin

theorem Filed.mergeFragment {body : Graph} (h : g.Filed) (hwf : body.WellFormed)
    (hbody : body.Filed) : (g.mergeFragment body).2.Filed := by
  intro p pin hpin
  rcases pin?_mergeFragment_cases hwf hpin with hpin | ⟨p', pin', hp', hpin', rfl⟩
  · exact h p pin hpin
  · refine ⟨?_, (hbody p' pin' hpin').2.filterMap fun q q' r hq hq' ↦ ?_⟩
    · rw [Remap.renamePin, hp']
      rfl
    · exact pin?_remapInto_inj hwf hq hq'

end Filed

/-- A new pin has no links. -/
theorem Linked.allocPin {g : Graph} (h : g.Linked) (n : NodeId) (direction : Direction)
    (desc : PinDescription) : (g.allocPin n direction desc).2.Linked := by
  intro p q pin hpin hlink
  rw [pin?_allocPin] at hpin
  split at hpin
  · cases hpin
    cases hlink
  · obtain ⟨pin', hpin', hrest⟩ := h p q pin hpin hlink
    refine ⟨pin', ?_, hrest⟩
    rw [pin?_allocPin, if_neg, hpin']
    rintro rfl
    rw [pin?_fresh] at hpin'
    cases hpin'

theorem sound_empty (name : String) : (empty name).Sound where
  wellFormed := wellFormed_empty name
  linked p q pin hpin := by cases hpin
  filed p pin hpin := by cases hpin

/-! ## Names that were given out -/

/-- Names that were given out stay so, and those that find nothing never do again. -/
structure Later (g g' : Graph) : Prop where
  size_nodes : g.nodes.size ≤ g'.nodes.size
  size_pins : g.pins.size ≤ g'.pins.size
  node? : ∀ n : NodeId, n.index < g.nodes.size → g.node? n = none → g'.node? n = none
  pin? : ∀ p : PinId, p.index < g.pins.size → g.pin? p = none → g'.pin? p = none

namespace Later

variable {g g' g'' : Graph}

theorem refl (g : Graph) : Later g g := ⟨Nat.le_refl _, Nat.le_refl _, fun _ _ ↦ id, fun _ _ ↦ id⟩

theorem trans (h : Later g g') (h' : Later g' g'') : Later g g'' where
  size_nodes := h.size_nodes.trans h'.size_nodes
  size_pins := h.size_pins.trans h'.size_pins
  node? n hn hnone := h'.node? n (Nat.lt_of_lt_of_le hn h.size_nodes) (h.node? n hn hnone)
  pin? p hp hnone := h'.pin? p (Nat.lt_of_lt_of_le hp h.size_pins) (h.pin? p hp hnone)

/-- What was there at first and is gone stays away. -/
theorem node?_of_gone (h' : Later g' g'') (h : Later g g') {n : NodeId} (hlive : g.node? n ≠ none)
    (hgone : g'.node? n = none) : g''.node? n = none := by
  have hlt := lt_of_isSome_node? (Option.isSome_iff_ne_none.2 hlive)
  exact h'.node? n (Nat.lt_of_lt_of_le hlt h.size_nodes) hgone

theorem pin?_of_gone (h' : Later g' g'') (h : Later g g') {p : PinId} (hlive : g.pin? p ≠ none)
    (hgone : g'.pin? p = none) : g''.pin? p = none := by
  obtain ⟨pin, hpin⟩ := Option.ne_none_iff_exists'.1 hlive
  exact h'.pin? p (Nat.lt_of_lt_of_le (lt_of_pin?_eq_some hpin) h.size_pins) hgone

theorem foldl {α : Type} {f : Graph → α → Graph} (hf : ∀ g a, Later g (f g a)) (l : List α)
    (g : Graph) : Later g (l.foldl f g) := by
  induction l generalizing g with
  | nil => exact refl g
  | cons a l ih => exact (hf g a).trans (ih (f g a))

theorem modifyNode (g : Graph) (n : NodeId) (f : Node → Node) : Later g (g.modifyNode n f) where
  size_nodes := Nat.le_of_eq (Slots.size_modify _ _ _).symm
  size_pins := Nat.le_refl _
  node? m _ hnone := by simp [hnone]
  pin? _ _ := id

theorem modifyPin (g : Graph) (p : PinId) (f : Pin → Pin) : Later g (g.modifyPin p f) where
  size_nodes := Nat.le_refl _
  size_pins := Nat.le_of_eq (Slots.size_modify _ _ _).symm
  node? _ _ := id
  pin? q _ hnone := by simp [hnone]

theorem allocPin (g : Graph) (n : NodeId) (direction : Direction) (desc : PinDescription) :
    Later g (g.allocPin n direction desc).2 := by
  refine Later.trans (?_ : Later g { g with pins := g.pins.push _ }) (modifyNode _ n _)
  refine ⟨Nat.le_refl _, ?_, fun _ _ ↦ id, fun p hp hnone ↦ ?_⟩
  · exact (Slots.size_push g.pins _).symm ▸ Nat.le_succ _
  · exact (Slots.get?_push _ _ _).trans ((if_neg (Nat.ne_of_lt hp)).trans hnone)

theorem spawn (g : Graph) (kind : NodeKind) : Later g (g.spawn kind).2 := by
  refine Later.trans (?_ : Later g { g with nodes := g.nodes.push _, order := g.order ++ [_] })
    (foldl (fun g p ↦ allocPin g _ p.1 p.2) kind.startingPins _)
  refine ⟨?_, Nat.le_refl _, fun n hn hnone ↦ ?_, fun _ _ ↦ id⟩
  · exact (Slots.size_push g.nodes _).symm ▸ Nat.le_succ _
  · exact (Slots.get?_push _ _ _).trans ((if_neg (Nat.ne_of_lt hn)).trans hnone)

theorem makeLink {a b : PinId} (h : g.makeLink a b = .ok g') : Later g g' := by
  obtain ⟨-, -, -, -, -, -, ⟨-, rfl⟩ | ⟨-, rfl⟩⟩ := makeLink_eq_ok h
  · exact refl g'
  · exact (modifyPin g a _).trans (modifyPin _ b _)

theorem breakLink (g : Graph) (a b : PinId) : Later g (g.breakLink a b) :=
  (modifyPin g a _).trans (modifyPin _ b _)

theorem breakPinLinks (g : Graph) (p : PinId) : Later g (g.breakPinLinks p) :=
  foldl (fun g q ↦ breakLink g p q) _ g

theorem breakNodeLinks (g : Graph) (n : NodeId) : Later g (g.breakNodeLinks n) :=
  foldl breakPinLinks _ g

theorem freePins (ps : List PinId) (g : Graph) :
    Later g { g with pins := ps.foldl (fun pins p ↦ pins.free p.index) g.pins } where
  size_nodes := Nat.le_refl _
  size_pins := by
    have hsize : (ps.foldl (fun pins p ↦ pins.free p.index) g.pins).size = g.pins.size :=
      List.foldlRecOn (motive := fun pins : Slots Pin ↦ pins.size = g.pins.size) ps _ rfl
        fun pins hpins p _ ↦ (Slots.size_free pins _).trans hpins
    exact Nat.le_of_eq hsize.symm
  node? _ _ := id
  pin? p _ hnone := by
    refine (get?_foldl_free ps g.pins p).trans ?_
    split
    · rfl
    · exact hnone

theorem removeNode (g : Graph) (n : NodeId) : Later g (g.removeNode n) := by
  cases hn : g.contains n with
  | false =>
    rw [removeNode_of_not_contains hn]
    exact refl g
  | true =>
    have hbroken := breakNodeLinks g n
    have hfreed := hbroken.trans (freePins ((g.breakNodeLinks n).pinsOf n) (g.breakNodeLinks n))
    simp only [Graph.removeNode, hn, if_true]
    refine ⟨?_, hfreed.size_pins, fun m hm hnone ↦ ?_, hfreed.pin?⟩
    · exact hbroken.size_nodes.trans (Nat.le_of_eq (Slots.size_free _ _).symm)
    · refine (Slots.get?_free _ _ _).trans ?_
      split
      · rfl
      · exact hbroken.node? m hm hnone

theorem removePin (g : Graph) (p : PinId) : Later g (g.removePin p) := by
  unfold Graph.removePin
  split
  · exact refl g
  · exact ((breakPinLinks g p).trans (modifyNode _ _ _)).trans (freePins [p] _)

theorem mergeFragment (g fragment : Graph) : Later g (g.mergeFragment fragment).2 where
  size_nodes := (Slots.size_append _ _).symm ▸ Nat.le_add_right _ _
  size_pins := (Slots.size_append _ _).symm ▸ Nat.le_add_right _ _
  node? _ hn hnone := (node?_mergeFragment_host fragment hn).trans hnone
  pin? _ hp hnone := (Slots.get?_append _ _ _).trans ((if_pos hp).trans hnone)

end Later

/-! ## Edits -/

/-- The edit keeps a graph sound and gives out no name for a second time. -/
structure Keeps (g g' : Graph) : Prop where
  sound : g.Sound → g'.Sound
  later : Later g g'

namespace Keeps

variable {g g' g'' : Graph} {a b : PinId}

theorem refl (g : Graph) : Keeps g g := ⟨id, .refl g⟩

theorem trans (h : Keeps g g') (h' : Keeps g' g'') : Keeps g g'' :=
  ⟨h'.sound ∘ h.sound, h.later.trans h'.later⟩

theorem foldl {α : Type} {f : Graph → α → Graph} (hf : ∀ g a, Keeps g (f g a)) (l : List α)
    (g : Graph) : Keeps g (l.foldl f g) := by
  induction l generalizing g with
  | nil => exact refl g
  | cons a l ih => exact (hf g a).trans (ih (f g a))

theorem makeLink (h : g.makeLink a b = .ok g') : Keeps g g' where
  sound hg := {
    wellFormed := (sameBooks_makeLink h).wellFormed hg.wellFormed
    linked := hg.linked.makeLink h
    filed := hg.filed.makeLink hg.linked h }
  later := .makeLink h

theorem breakLink (g : Graph) (a b : PinId) : Keeps g (g.breakLink a b) where
  sound hg := {
    wellFormed := (sameBooks_breakLink g a b).wellFormed hg.wellFormed
    linked := hg.linked.breakLink a b
    filed := hg.filed.breakLink a b }
  later := .breakLink g a b

theorem breakPinLinks (g : Graph) (p : PinId) : Keeps g (g.breakPinLinks p) :=
  foldl (fun g q ↦ breakLink g p q) _ g

theorem breakNodeLinks (g : Graph) (n : NodeId) : Keeps g (g.breakNodeLinks n) :=
  foldl breakPinLinks _ g

theorem modifyPin (g : Graph) (p : PinId) {f : Pin → Pin} (hf : ∀ pin, (f pin).id = pin.id ∧
    (f pin).owner = pin.owner ∧ (f pin).direction = pin.direction ∧ (f pin).links = pin.links) :
    Keeps g (g.modifyPin p f) where
  sound hg := {
    wellFormed := (SameBooks.modifyPin g p fun pin ↦ (hf pin).2.1).wellFormed hg.wellFormed
    linked := hg.linked.modifyPin p fun pin ↦ (hf pin).2
    filed := hg.filed.modifyPin fun pin _ hnodup ↦ ⟨(hf pin).1, (hf pin).2.2.2 ▸ hnodup⟩ }
  later := .modifyPin g p f

theorem allocPin {n : NodeId} (hn : g.contains n = true) (direction : Direction)
    (desc : PinDescription) : Keeps g (g.allocPin n direction desc).2 where
  sound hg := {
    wellFormed := hg.wellFormed.allocPin hn direction desc
    linked := hg.linked.allocPin n direction desc
    filed := hg.filed.allocPin n direction desc }
  later := .allocPin g n direction desc

theorem spawn (g : Graph) (kind : NodeKind) : Keeps g (g.spawn kind).2 where
  sound hg := by
    have hpins : (g.spawn kind).2.Linked ∧ (g.spawn kind).2.Filed :=
      List.foldlRecOn kind.startingPins _ (motive := fun g : Graph ↦ g.Linked ∧ g.Filed)
        ⟨hg.linked, hg.filed⟩ fun g h p _ ↦ ⟨h.1.allocPin _ p.1 p.2, h.2.allocPin _ p.1 p.2⟩
    exact ⟨hg.wellFormed.spawn kind, hpins.1, hpins.2⟩
  later := .spawn g kind

theorem addPin {n : NodeId} {direction : Direction} {desc : PinDescription} {p : PinId}
    (h : g.addPin n direction desc = .ok (p, g')) : Keeps g g' := by
  unfold Graph.addPin at h
  split at h
  · next hn =>
    cases h
    exact allocPin hn direction desc
  · cases h

theorem removeNode (g : Graph) (n : NodeId) : Keeps g (g.removeNode n) where
  sound hg := {
    wellFormed := hg.wellFormed.removeNode n
    linked := hg.linked.removeNode n
    filed := by
      cases hn : g.contains n with
      | false =>
        rw [removeNode_of_not_contains hn]
        exact hg.filed
      | true =>
        refine ((breakNodeLinks g n).sound hg).filed.mono fun p pin hpin ↦ ?_
        rw [pin?_removeNode hn] at hpin
        split at hpin
        · cases hpin
        · exact hpin }
  later := .removeNode g n

theorem removePin (g : Graph) (p : PinId) : Keeps g (g.removePin p) where
  sound hg := {
    wellFormed := hg.wellFormed.removePin p
    linked := hg.linked.removePin p
    filed := by
      cases hp : g.ownerOf? p with
      | none =>
        unfold Graph.removePin
        rw [hp]
        exact hg.filed
      | some n =>
        refine ((breakPinLinks g p).sound hg).filed.mono fun q pin hpin ↦ ?_
        rw [pin?_removePin hp] at hpin
        split at hpin
        · cases hpin
        · exact hpin }
  later := .removePin g p

theorem connect {source target : NodeId} {output input : String}
    (h : g.connect source output target input = .ok g') : Keeps g g' := by
  unfold Graph.connect at h
  cases houtput : g.findPin source output (some .output) with
  | error e =>
    rw [houtput] at h
    cases h
  | ok a =>
    cases hinput : g.findPin target input (some .input) with
    | error e =>
      rw [houtput, hinput] at h
      cases h
    | ok b =>
      rw [houtput, hinput] at h
      exact makeLink h

theorem linkAll (g : Graph) (target : PinId) (ps : List PinId) :
    Keeps g (g.linkAll target ps).graph := by
  induction ps generalizing g with
  | nil => exact refl g
  | cons p ps ih =>
    unfold Graph.linkAll
    split
    · next g' hmake => exact (makeLink hmake).trans (ih g')
    · exact refl g

/-- Copying that stops halfway keeps the links made before, which are whole. -/
theorem copyPinLinks (g : Graph) (source target : PinId) :
    Keeps g (g.copyPinLinks source target).graph := by
  unfold Graph.copyPinLinks
  split
  · exact refl g
  · exact refl g
  · next pin _ _ _ =>
    have hlinks := linkAll g target pin.links
    split
    · next heq => exact heq ▸ hlinks
    · next g' heq =>
      rw [heq] at hlinks
      refine hlinks.trans (modifyPin g' target fun q ↦ ?_)
      split
      · exact ⟨rfl, rfl, rfl, rfl⟩
      · exact ⟨rfl, rfl, rfl, rfl⟩

theorem movePinLinks (g : Graph) (source target : PinId) :
    Keeps g (g.movePinLinks source target).graph := by
  have hcopy := copyPinLinks g source target
  unfold Graph.movePinLinks
  split
  · next heq => exact heq ▸ hcopy
  · next g' heq =>
    rw [heq] at hcopy
    exact hcopy.trans (breakPinLinks g' source)

theorem setOrder (g : Graph) {ids : List NodeId} (hids : ids.Nodup) : Keeps g (g.setOrder ids) where
  sound hg := ⟨hg.wellFormed.setOrder hids, hg.linked, hg.filed⟩
  later := ⟨Nat.le_refl _, Nat.le_refl _, fun _ _ ↦ id, fun _ _ ↦ id⟩

theorem mergeFragment (g : Graph) {fragment : Graph} (h : fragment.Sound) :
    Keeps g (g.mergeFragment fragment).2 where
  sound hg := {
    wellFormed := hg.wellFormed.mergeFragment h.wellFormed
    linked := hg.linked.mergeFragment h.wellFormed h.linked
    filed := hg.filed.mergeFragment h.wellFormed h.filed }
  later := .mergeFragment g fragment

end Keeps

/-! ## Running edits -/

/-- An edit by its arguments, any names among them. -/
inductive Op where
  | spawn (kind : NodeKind)
  | addPin (n : NodeId) (direction : Direction) (desc : PinDescription)
  | removePin (p : PinId)
  | removeNode (n : NodeId)
  | makeLink (a b : PinId)
  | connect (source : NodeId) (output : String) (target : NodeId) (input : String)
  | breakLink (a b : PinId)
  | breakPinLinks (p : PinId)
  | breakNodeLinks (n : NodeId)
  | copyPinLinks (source target : PinId)
  | movePinLinks (source target : PinId)
  | setOrder (ids : List NodeId) (nodup : ids.Nodup)
  /-- Merges the graph of that name which the edits build from nothing. -/
  | merge (name : String) (ops : List Op)

mutual

def Op.run (g : Graph) : Op → Edit
  | .spawn kind => ⟨(g.spawn kind).2, none⟩
  | .addPin n direction desc => .ofExcept g ((g.addPin n direction desc).map (·.2))
  | .removePin p => ⟨g.removePin p, none⟩
  | .removeNode n => ⟨g.removeNode n, none⟩
  | .makeLink a b => .ofExcept g (g.makeLink a b)
  | .connect source output target input => .ofExcept g (g.connect source output target input)
  | .breakLink a b => ⟨g.breakLink a b, none⟩
  | .breakPinLinks p => ⟨g.breakPinLinks p, none⟩
  | .breakNodeLinks n => ⟨g.breakNodeLinks n, none⟩
  | .copyPinLinks source target => g.copyPinLinks source target
  | .movePinLinks source target => g.movePinLinks source target
  | .setOrder ids _ => ⟨g.setOrder ids, none⟩
  | .merge name ops => ⟨(g.mergeFragment ((empty name).runAll ops)).2, none⟩

/-- Runs edits in turn; one that is refused does not stop the next. -/
def runAll (g : Graph) : List Op → Graph
  | [] => g
  | op :: ops => (op.run g).graph.runAll ops

end

theorem runAll_append (g : Graph) (ops ops' : List Op) :
    g.runAll (ops ++ ops') = (g.runAll ops).runAll ops' := by
  induction ops generalizing g with
  | nil => rfl
  | cons op ops ih =>
    rw [List.cons_append, runAll, ih, ← runAll]

theorem keeps_ofExcept {g : Graph} {r : Except CompileError Graph}
    (h : ∀ g', r = .ok g' → Keeps g g') : Keeps g (Edit.ofExcept g r).graph := by
  cases r with
  | ok g' => exact h g' rfl
  | error e => exact .refl g

mutual

theorem Op.keeps (g : Graph) : ∀ op : Op, Keeps g (op.run g).graph
  | .spawn kind => .spawn g kind
  | .addPin n direction desc => keeps_ofExcept fun g' h ↦ by
    cases hadd : g.addPin n direction desc with
    | error e =>
      rw [hadd] at h
      cases h
    | ok new =>
      rw [hadd] at h
      cases h
      exact .addPin hadd
  | .removePin p => .removePin g p
  | .removeNode n => .removeNode g n
  | .makeLink a b => keeps_ofExcept fun _ ↦ .makeLink
  | .connect source output target input => keeps_ofExcept fun _ ↦ .connect
  | .breakLink a b => .breakLink g a b
  | .breakPinLinks p => .breakPinLinks g p
  | .breakNodeLinks n => .breakNodeLinks g n
  | .copyPinLinks source target => .copyPinLinks g source target
  | .movePinLinks source target => .movePinLinks g source target
  | .setOrder ids nodup => .setOrder g nodup
  | .merge name ops => .mergeFragment g ((keeps_runAll (empty name) ops).sound (sound_empty name))

theorem keeps_runAll (g : Graph) : ∀ ops : List Op, Keeps g (g.runAll ops)
  | [] => .refl g
  | op :: ops => (op.keeps g).trans (keeps_runAll (op.run g).graph ops)

end

/-- Edits from the empty graph on leave a sound graph, and a node or pin that was there once and
was taken away never comes back under its name.  Removing takes a node away with all its pins. -/
theorem sound_runAll (name : String) (ops : List Op) :
    ((empty name).runAll ops).Sound ∧
      (∀ before between after, ops = before ++ between ++ after →
        (∀ n, ((empty name).runAll before).node? n ≠ none →
          ((empty name).runAll (before ++ between)).node? n = none →
            ((empty name).runAll ops).node? n = none) ∧
        ∀ p, ((empty name).runAll before).pin? p ≠ none →
          ((empty name).runAll (before ++ between)).pin? p = none →
            ((empty name).runAll ops).pin? p = none) ∧
      (∀ before n after, ops = before ++ .removeNode n :: after →
        ((empty name).runAll before).node? n ≠ none →
          ((empty name).runAll ops).node? n = none ∧
            ∀ p ∈ ((empty name).runAll before).pinsOf n, ((empty name).runAll ops).pin? p = none) ∧
      ∀ before p after, ops = before ++ .removePin p :: after →
        ((empty name).runAll before).pin? p ≠ none → ((empty name).runAll ops).pin? p = none := by
  have hlater (before after : List Op) :
      Later ((empty name).runAll before) ((empty name).runAll (before ++ after)) := by
    rw [runAll_append]
    exact (keeps_runAll _ after).later
  refine ⟨(keeps_runAll _ ops).sound (sound_empty name), ?_, ?_, ?_⟩
  · rintro before between after rfl
    have hbetween := hlater before between
    have hafter := hlater (before ++ between) after
    exact ⟨fun _ ↦ hafter.node?_of_gone hbetween, fun _ ↦ hafter.pin?_of_gone hbetween⟩
  · rintro before n after rfl hlive
    have hcontains : ((empty name).runAll before).contains n = true :=
      Option.isSome_iff_ne_none.2 hlive
    have hsound := (keeps_runAll _ before).sound (sound_empty name)
    have hremoved := (Op.removeNode n).keeps ((empty name).runAll before) |>.later
    have hafter := (keeps_runAll (((empty name).runAll before).removeNode n) after).later
    rw [runAll_append, runAll]
    refine ⟨hafter.node?_of_gone hremoved hlive (node?_removeNode_self _ n), fun p hp ↦ ?_⟩
    refine hafter.pin?_of_gone hremoved ?_ ((pin?_removeNode hcontains p).trans (if_pos hp))
    obtain ⟨pin, hpin, -⟩ := ownerOf?_eq_some.1 ((hsound.wellFormed.mem_pinsOf n p).1 hp)
    rw [hpin]
    exact Option.some_ne_none pin
  · rintro before p after rfl hlive
    have hremoved := (Op.removePin p).keeps ((empty name).runAll before) |>.later
    have hafter := (keeps_runAll (((empty name).runAll before).removePin p) after).later
    rw [runAll_append, runAll]
    exact hafter.pin?_of_gone hremoved hlive (pin?_removePin_self _ p)

/-- A pin is removed, and then its node.  The node that is made after them gets other names, and
so do its pins. -/
theorem sound_runAll_remove :
    let added : List Op := [.spawn .branch, .addPin ⟨0⟩ .input { name := "Extra", ty := .int }]
    let g := (empty "G").runAll added
    let g' := (empty "G").runAll (added ++ [.removePin ⟨4⟩, .removeNode ⟨0⟩, .spawn .branch])
    g.node? ⟨0⟩ ≠ none ∧ g.pinsOf ⟨0⟩ = [⟨0⟩, ⟨1⟩, ⟨2⟩, ⟨3⟩, ⟨4⟩] ∧ g'.Sound ∧
      g'.node? ⟨0⟩ = none ∧ (∀ p ∈ g.pinsOf ⟨0⟩, g'.pin? p = none) ∧ g'.order = [⟨1⟩] ∧
        g'.pinsOf ⟨1⟩ = [⟨5⟩, ⟨6⟩, ⟨7⟩, ⟨8⟩] := by
  intro added g g'
  have hlive : g.node? ⟨0⟩ ≠ none := by decide
  have hpins : g.pinsOf ⟨0⟩ = [⟨0⟩, ⟨1⟩, ⟨2⟩, ⟨3⟩, ⟨4⟩] := by decide
  obtain ⟨hsound, hnames, hnodes, hfreed⟩ := sound_runAll "G"
    (added ++ [.removePin ⟨4⟩, .removeNode ⟨0⟩, .spawn .branch])
  have hnode := (hnames added [.removePin ⟨4⟩, .removeNode ⟨0⟩] [.spawn .branch] rfl).1 ⟨0⟩ hlive
    (by decide)
  have hextra := hfreed added ⟨4⟩ [.removeNode ⟨0⟩, .spawn .branch] rfl (by decide)
  have hrest := (hnodes (added ++ [.removePin ⟨4⟩]) ⟨0⟩ [.spawn .branch] rfl (by decide)).2
  have hleft : ((empty "G").runAll (added ++ [.removePin ⟨4⟩])).pinsOf ⟨0⟩ =
      [⟨0⟩, ⟨1⟩, ⟨2⟩, ⟨3⟩] := by decide
  refine ⟨hlive, hpins, hsound, hnode, fun p hp ↦ ?_, by decide, by decide⟩
  rw [hpins, show [⟨0⟩, ⟨1⟩, ⟨2⟩, ⟨3⟩, ⟨4⟩] = [⟨0⟩, ⟨1⟩, ⟨2⟩, ⟨3⟩] ++ [(⟨4⟩ : PinId)] from rfl,
    List.mem_append, List.mem_singleton] at hp
  rcases hp with hp | rfl
  · exact hrest p (hleft ▸ hp)
  · exact hextra

/-!
## The order of the nodes

A list of nodes asks for an order: its live nodes as it mentions them first, and then the others
as they stood.  `setOrder` gives that order if the list mentions no live node twice.  A node that
is mentioned more often is listed as often, so that the order is no longer one of the live nodes;
the first mentions are as asked for in any case.
-/

variable {g : Graph}

/-- The order that a list asks for. -/
def reordered (g : Graph) (ids : List NodeId) : List NodeId :=
  (ids.filter g.contains).eraseDups ++ g.order.filter (· ∉ ids)

/-! ### First mentions -/

theorem nodup_eraseDups : (ids : List NodeId) → ids.eraseDups.Nodup
  | [] => by simp
  | id :: ids => by
    rw [List.eraseDups_cons, List.nodup_cons]
    refine ⟨fun hid ↦ ?_, nodup_eraseDups (ids.filter fun n ↦ !n == id)⟩
    simpa using (List.mem_filter.1 (List.mem_eraseDups.1 hid)).2
termination_by ids => ids.length
decreasing_by exact Nat.lt_succ_of_le (List.length_filter_le _ _)

theorem eraseDups_eq_self {ids : List NodeId} : ids.eraseDups = ids ↔ ids.Nodup := by
  refine ⟨fun heq ↦ heq ▸ nodup_eraseDups ids, fun h ↦ ?_⟩
  induction ids with
  | nil => rfl
  | cons id ids ih =>
    obtain ⟨hid, hids⟩ := List.nodup_cons.1 h
    have hrest : (ids.filter fun n ↦ !n == id) = ids :=
      List.filter_eq_self.2 fun n hn ↦ by
        have hne : n ≠ id := ne_of_mem_of_not_mem hn hid
        simpa using hne
    rw [List.eraseDups_cons, hrest, ih hids]

/-! ### The order asked for -/

/-- Without the second mentions, the order is the one asked for. -/
theorem eraseDups_order_setOrder (h : g.WellFormed) (ids : List NodeId) :
    (g.setOrder ids).order.eraseDups = g.reordered ids := by
  have hnew : (g.order.filter (· ∉ ids)).removeAll (ids.filter g.contains) =
      g.order.filter (· ∉ ids) :=
    List.filter_eq_self.2 fun n hn ↦ by
      have hmem : n ∉ ids := of_decide_eq_true (List.mem_filter.1 hn).2
      simp [hmem]
  rw [h.order_setOrder, List.eraseDups_append, hnew,
    eraseDups_eq_self.2 (h.nodup_order.filter _), reordered]

/-- It is an order of the live nodes. -/
theorem perm_reordered (h : g.WellFormed) (ids : List NodeId) : (g.reordered ids).Perm g.order := by
  rw [← eraseDups_order_setOrder h]
  refine (List.perm_ext_iff_of_nodup (nodup_eraseDups _) h.nodup_order).2 fun n ↦ ?_
  exact List.mem_eraseDups.trans h.mem_order_setOrder

/-- A live node is listed as often as it is mentioned, but at least once. -/
theorem count_order_setOrder (h : g.WellFormed) (ids : List NodeId) {n : NodeId}
    (hn : g.contains n = true) : (g.setOrder ids).order.count n = max 1 (ids.count n) := by
  have hone : g.order.count n = 1 := List.count_eq_one_of_mem h.nodup_order ((h.mem_order n).2 hn)
  rw [h.order_setOrder, List.count_append, List.count_filter hn]
  by_cases hmem : n ∈ ids
  · have hrest : (g.order.filter (· ∉ ids)).count n = 0 :=
      List.count_eq_zero.2 fun hrest ↦ of_decide_eq_true (List.mem_filter.1 hrest).2 hmem
    rw [hrest, Nat.add_zero, Nat.max_eq_right (List.count_pos_iff.2 hmem)]
  · rw [List.count_filter (by simpa using hmem), List.count_eq_zero.2 hmem, hone]
    rfl

/-! ### When it is given -/

/-- What a graph is ordered like once the order that `ids` asks for is set. -/
structure Reorders (g : Graph) (ids : List NodeId) (g' : Graph) : Prop where
  /-- The list asks for an order of the live nodes. -/
  asked : (g.reordered ids).Perm g.order
  /-- The first mentions come in that order. -/
  firsts : g'.order.eraseDups = g.reordered ids
  /-- Each live node is listed as often as it is mentioned, but at least once. -/
  count : ∀ n, g.contains n = true → g'.order.count n = max 1 (ids.count n)
  /-- The order is the one asked for if no live node is mentioned twice, -/
  order_iff : g'.order = g.reordered ids ↔ (ids.filter g.contains).Nodup
  /-- and otherwise it is no order of the live nodes. -/
  perm_iff : g'.order.Perm g.order ↔ (ids.filter g.contains).Nodup

theorem reorders_setOrder (h : g.WellFormed) (ids : List NodeId) :
    Reorders g ids (g.setOrder ids) where
  asked := perm_reordered h ids
  firsts := eraseDups_order_setOrder h ids
  count _ hn := count_order_setOrder h ids hn
  order_iff := by
    rw [← h.nodup_order_setOrder, ← eraseDups_eq_self, eraseDups_order_setOrder h]
    exact eq_comm
  perm_iff := by
    rw [← h.nodup_order_setOrder]
    refine ⟨fun hperm ↦ hperm.nodup_iff.2 h.nodup_order, fun hnodup ↦ ?_⟩
    rw [← eraseDups_eq_self.2 hnodup, eraseDups_order_setOrder h]
    exact perm_reordered h ids

/-- Four branches, the second of which is gone. -/
def thinned : Graph := (empty "Thinned").runAll
  [.spawn .branch, .spawn .branch, .spawn .branch, .spawn .branch, .removeNode ⟨1⟩]

/-- The node that is gone and the one that never was are left out. -/
theorem reorders_setOrder_thinned :
    thinned.WellFormed ∧
    Reorders thinned [⟨3⟩, ⟨1⟩, ⟨7⟩] (thinned.setOrder [⟨3⟩, ⟨1⟩, ⟨7⟩]) ∧
    (thinned.setOrder [⟨3⟩, ⟨1⟩, ⟨7⟩]).order = [⟨3⟩, ⟨0⟩, ⟨2⟩] := by
  have hwf : thinned.WellFormed := by decide
  exact ⟨hwf, reorders_setOrder hwf _, by decide⟩

/-- A node that is mentioned twice is listed twice. -/
theorem not_perm_order_setOrder :
    thinned.Sound ∧ (thinned.setOrder [⟨3⟩, ⟨3⟩]).order = [⟨3⟩, ⟨3⟩, ⟨0⟩, ⟨2⟩] ∧
    ¬∀ g : Graph, g.WellFormed → ∀ ids, (g.setOrder ids).order.Perm g.order := by
  refine ⟨(keeps_runAll _ _).sound (sound_empty _), by decide, fun hall ↦ ?_⟩
  have hlength := (hall thinned (by decide) [⟨3⟩, ⟨3⟩]).length_eq
  exact absurd hlength (by decide)

end VisualScript.Graph
