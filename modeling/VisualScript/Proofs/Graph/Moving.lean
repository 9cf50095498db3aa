import Mathlib.Logic.Function.Basic
import VisualScript.Proofs.Graph.Consolidation
import VisualScript.Proofs.Graph.Widening

/-!
# Moving links

Moving the links of a pin to another renames one end of each of them.  It succeeds if the other
pin points in the same direction and no link comes from the node of that pin.
-/

namespace VisualScript

/-- An edit that changes nothing in its slot changes nothing. -/
theorem Slots.modify_of_fixed {α : Type} {s : Slots α} {i : Nat} {f : α → α}
    (h : ∀ a, s.get? i = some a → f a = a) : s.modify i f = s := by
  refine congrArg Slots.mk (Array.ext_getElem? fun j ↦ ?_)
  rw [Array.getElem?_modify]
  split
  · next heq =>
    subst heq
    rw [get?] at h
    cases hcell : s.cells[i]? with
    | none => rfl
    | some cell =>
      cases cell with
      | none => rfl
      | some a =>
        rw [Option.map_some, Option.map_some, h a (by rw [hcell]; rfl)]
  · rfl

namespace Graph

variable {g g' g'' : Graph} {n : NodeId} {d : Direction} {name : String} {a b p q r t : PinId}

/-! ## Pins by name -/

/-- The pin is one of the node, in that direction and under that name. -/
def PinAt (g : Graph) (n : NodeId) (d : Direction) (name : String) (p : PinId) : Prop :=
  ∃ pin, g.pin? p = some pin ∧ pin.owner = n ∧ pin.direction = d ∧ pin.name = name

/-- The pins of the node that point in one direction have different names. -/
def NamesPins (g : Graph) (n : NodeId) : Prop :=
  ∀ ⦃d name p q⦄, g.PinAt n d name p → g.PinAt n d name q → p = q

namespace PinAt

theorem congr (h : g.PinAt n d name p)
    (hface : (g'.pin? p).map Pin.unwired = (g.pin? p).map Pin.unwired) : g'.PinAt n d name p := by
  obtain ⟨pin, hpin, rfl, rfl, rfl⟩ := h
  rw [hpin, Option.map_some] at hface
  obtain ⟨pin', hpin', heq⟩ := Option.map_eq_some_iff.1 hface
  refine ⟨pin', hpin', ?_, ?_, ?_⟩
  · exact (congrArg Pin.owner heq :)
  · exact (congrArg Pin.direction heq :)
  · exact (congrArg Pin.name heq :)

theorem ownerOf? (h : g.PinAt n d name p) : g.ownerOf? p = some n := by
  obtain ⟨pin, hpin, rfl, -, -⟩ := h
  exact ownerOf?_of_pin? hpin

theorem directionOf? (h : g.PinAt n d name p) : g.directionOf? p = some d := by
  obtain ⟨pin, hpin, -, rfl, -⟩ := h
  exact directionOf?_eq_some.2 ⟨pin, hpin, rfl⟩

theorem lt_size (h : g.PinAt n d name p) : p.index < g.pins.size := by
  obtain ⟨pin, hpin, -⟩ := h
  exact lt_of_pin?_eq_some hpin

/-- A pin is at one place only. -/
theorem unique {n' : NodeId} {d' : Direction} {name' : String} (h : g.PinAt n d name p)
    (h' : g.PinAt n' d' name' p) : n' = n ∧ d' = d ∧ name' = name := by
  obtain ⟨pin, hpin, rfl, rfl, rfl⟩ := h
  obtain ⟨pin', hpin', rfl, rfl, rfl⟩ := h'
  cases hpin.symm.trans hpin'
  exact ⟨rfl, rfl, rfl⟩

end PinAt

theorem SameFaces.pinAt_iff (h : SameFaces g g') : g'.PinAt n d name p ↔ g.PinAt n d name p :=
  ⟨fun hp ↦ hp.congr (h.pins p).symm, fun hp ↦ hp.congr (h.pins p)⟩

theorem pinMatches_iff (hp : g.ownerOf? p = some n) :
    g.pinMatches name (some d) p = true ↔ g.PinAt n d name p := by
  obtain ⟨pin, hpin, rfl⟩ := ownerOf?_eq_some.1 hp
  rw [pinMatches, hpin, Option.any_some, Option.all_some, Bool.and_eq_true, beq_iff_eq,
    decide_eq_true_eq]
  constructor
  · rintro ⟨hname, hdirection⟩
    exact ⟨pin, hpin, rfl, hdirection.symm, hname⟩
  · rintro ⟨pin', hpin', -, hdirection, hname⟩
    cases hpin.symm.trans hpin'
    exact ⟨hname, hdirection.symm⟩

theorem WellFormed.pinAt_of_findPin? (h : g.WellFormed)
    (hfind : g.findPin? n name (some d) = some p) : g.PinAt n d name p :=
  have howner := (h.mem_pinsOf n p).1 (List.mem_of_find?_eq_some hfind)
  (pinMatches_iff howner).1 (List.find?_some hfind)

theorem WellFormed.exists_findPin? (h : g.WellFormed) (hp : g.PinAt n d name p) :
    ∃ q, g.findPin? n name (some d) = some q := by
  refine Option.isSome_iff_exists.1 (List.find?_isSome.2 ⟨p, ?_, ?_⟩)
  · exact (h.mem_pinsOf n p).2 hp.ownerOf?
  · exact (pinMatches_iff hp.ownerOf?).2 hp

theorem WellFormed.findPin?_iff (h : g.WellFormed) (hnames : g.NamesPins n) :
    g.findPin? n name (some d) = some p ↔ g.PinAt n d name p := by
  refine ⟨h.pinAt_of_findPin?, fun hp ↦ ?_⟩
  obtain ⟨q, hq⟩ := h.exists_findPin? hp
  rw [hq, hnames hp (h.pinAt_of_findPin? hq)]

/-! ## Renaming links -/

/-- The links of `g'` are those of `g` with their ends renamed, and the ones that `joins` makes. -/
def Relinks (f : PinId → PinId) (joins : PinId → PinId → Prop) (g g' : Graph) : Prop :=
  ∀ p q, q ∈ g'.linksOf p ↔
    (∃ a b, b ∈ g.linksOf a ∧ f a = p ∧ f b = q) ∨ joins p q ∨ joins q p

namespace Relinks

variable {f f' : PinId → PinId} {joins joins' : PinId → PinId → Prop}

theorem refl (g : Graph) : Relinks id (fun _ _ ↦ False) g g := by
  intro p q
  rw [or_false, or_false]
  constructor
  · exact fun hq ↦ ⟨p, q, hq, rfl, rfl⟩
  · rintro ⟨_, _, hq, rfl, rfl⟩
    exact hq

/-- What was joined stays so if the later edit leaves it where it is. -/
theorem trans (h : Relinks f joins g g') (h' : Relinks f' joins' g' g'')
    (hfix : ∀ p q, joins p q → f' p = p ∧ f' q = q) :
    Relinks (f' ∘ f) (fun p q ↦ joins p q ∨ joins' p q) g g'' := by
  intro p q
  rw [h' p q]
  constructor
  · rintro (⟨a, b, hab, rfl, rfl⟩ | hjoin | hjoin)
    · rcases (h a b).1 hab with ⟨x, y, hxy, rfl, rfl⟩ | hjoin | hjoin
      · exact .inl ⟨x, y, hxy, rfl, rfl⟩
      · rw [(hfix a b hjoin).1, (hfix a b hjoin).2]
        exact .inr (.inl (.inl hjoin))
      · rw [(hfix b a hjoin).1, (hfix b a hjoin).2]
        exact .inr (.inr (.inl hjoin))
    · exact .inr (.inl (.inr hjoin))
    · exact .inr (.inr (.inr hjoin))
  · rintro (⟨a, b, hab, rfl, rfl⟩ | (hjoin | hjoin) | (hjoin | hjoin))
    · exact .inl ⟨f a, f b, (h _ _).2 (.inl ⟨a, b, hab, rfl, rfl⟩), rfl, rfl⟩
    · exact .inl ⟨p, q, (h p q).2 (.inr (.inl hjoin)), (hfix p q hjoin).1, (hfix p q hjoin).2⟩
    · exact .inr (.inl hjoin)
    · exact .inl ⟨p, q, (h p q).2 (.inr (.inr hjoin)), (hfix q p hjoin).2, (hfix q p hjoin).1⟩
    · exact .inr (.inr hjoin)

theorem makeLink (h : g.Linked) (hmake : g.makeLink a b = .ok g') :
    Relinks id (fun p q ↦ p = a ∧ q = b) g g' := by
  intro p q
  rw [mem_linksOf_makeLink h hmake]
  refine or_congr ⟨fun hq ↦ ⟨p, q, hq, rfl, rfl⟩, ?_⟩ (or_congr Iff.rfl and_comm)
  rintro ⟨_, _, hq, rfl, rfl⟩
  exact hq

end Relinks

/-! ## Making links -/

/-- Linked pins point in different directions. -/
theorem Linked.exists_pin?_ne (h : g.Linked) (hq : q ∈ g.linksOf p)
    (hp : g.directionOf? p = some d) : ∃ pin, g.pin? q = some pin ∧ pin.direction ≠ d := by
  obtain ⟨pin, hpin, hlink⟩ := mem_linksOf.1 hq
  obtain ⟨pin', hpin', -, -, hdirection⟩ := h p q pin hpin hlink
  obtain ⟨same, hsame, rfl⟩ := directionOf?_eq_some.1 hp
  cases hpin.symm.trans hsame
  exact ⟨pin', hpin', hdirection⟩

theorem SameFaces.end?_eq (h : SameFaces g g') (p : PinId) : g'.end? p = g.end? p :=
  h.map_eq (fun _ ↦ rfl) p

/-- The pin `t` got links to these pins. -/
structure LinkedTo (t : PinId) (ps : List PinId) (g g' : Graph) : Prop where
  faces : SameFaces g g'
  linked : g'.Linked
  defaultsOf? : ∀ p, g'.defaultsOf? p = g.defaultsOf? p
  mem_linksOf : ∀ p q, q ∈ g'.linksOf p ↔ q ∈ g.linksOf p ∨ p = t ∧ q ∈ ps ∨ q = t ∧ p ∈ ps

theorem exists_linkAll (h : g.Linked) {ps : List PinId} (hps : ∀ p ∈ ps, g.Joins t p) :
    ∃ g', g.linkAll t ps = ⟨g', none⟩ ∧ LinkedTo t ps g g' := by
  induction ps generalizing g with
  | nil => exact ⟨g, rfl, .refl g, h, fun _ ↦ rfl, fun p q ↦ by simp⟩
  | cons p ps ih =>
    obtain ⟨g₁, hmake⟩ := (hps p List.mem_cons_self).exists_makeLink
    have hfaces := sameFaces_makeLink hmake
    obtain ⟨g', hall, hlinked⟩ := ih (h.makeLink hmake) fun q hq ↦
      (hps q (List.mem_cons_of_mem p hq)).congr (hfaces.end?_eq t) (hfaces.end?_eq q)
    refine ⟨g', ?_, hfaces.trans hlinked.faces, hlinked.linked, fun q ↦ ?_, fun q r ↦ ?_⟩
    · unfold linkAll
      rw [hmake]
      exact hall
    · exact (hlinked.defaultsOf? q).trans (defaultsOf?_makeLink hmake q)
    · rw [hlinked.mem_linksOf, mem_linksOf_makeLink h hmake, List.mem_cons, List.mem_cons]
      tauto

/-! ## Moving them -/

/-- The pin `t` has got the links of `p` as well, and an input its defaults. -/
structure Copied (p t : PinId) (g g' : Graph) : Prop where
  linked : g'.Linked
  mem_linksOf : ∀ r s, s ∈ g'.linksOf r ↔
    s ∈ g.linksOf r ∨ r = t ∧ s ∈ g.linksOf p ∨ s = t ∧ r ∈ g.linksOf p
  others : ∀ r, r ≠ t ∨ g.directionOf? t = some .output → g'.defaultsOf? r = g.defaultsOf? r
  defaultsOf? : g.directionOf? t = some .input → g'.defaultsOf? t = g.defaultsOf? p

/-- The links of the pin `p` are at `t`.  An input has got the defaults as well. -/
structure Moved (p t : PinId) (g g' : Graph) : Prop where
  widens : Widens g g'
  faces : SameFaces g g'
  linked : g'.Linked
  relinks : Relinks (Function.update id p t) (fun _ _ ↦ False) g g'
  others : ∀ r, r ≠ t ∨ g.directionOf? t = some .output → g'.defaultsOf? r = g.defaultsOf? r
  defaultsOf? : g.directionOf? t = some .input → g'.defaultsOf? t = g.defaultsOf? p

/-- A pin that points in the same direction can be linked to the same pins of other nodes. -/
theorem PinAt.joins (h : g.Linked) {m : NodeId} {x y : String} (hp : g.PinAt n d x p)
    (ht : g.PinAt m d y t) (howner : ∀ q ∈ g.linksOf p, g.ownerOf? q ≠ some m) :
    ∀ q ∈ g.linksOf p, g.Joins t q := by
  intro q hq
  obtain ⟨tpin, htpin, rfl, rfl, rfl⟩ := ht
  obtain ⟨qpin, hqpin, hdirection⟩ := h.exists_pin?_ne hq hp.directionOf?
  refine joins_of_pin? htpin hqpin (fun heq ↦ howner q hq ?_) hdirection
  rw [ownerOf?_of_pin? hqpin, heq]

theorem exists_copyPinLinks (h : g.Linked) {pin tpin : Pin} (hpin : g.pin? p = some pin)
    (htpin : g.pin? t = some tpin) (hjoins : ∀ q ∈ g.linksOf p, g.Joins t q) :
    ∃ g', g.copyPinLinks p t = ⟨g', none⟩ ∧ Copied p t g g' := by
  have hlinks : g.linksOf p = pin.links := by
    rw [linksOf, hpin]
    rfl
  rw [hlinks] at hjoins
  obtain ⟨g₁, hall, hlinked⟩ := exists_linkAll h hjoins
  -- the target gets the defaults after the links
  let f : Pin → Pin := fun q ↦ if q.direction = .input then
    { q with defaultValue := pin.defaultValue, defaultObject := pin.defaultObject } else q
  have hcopy : g.copyPinLinks p t = ⟨g₁.modifyPin t f, none⟩ := by
    unfold copyPinLinks Graph.pin
    rw [hpin, htpin]
    dsimp only
    rw [hall]
  have hf (q : Pin) : (f q).owner = q.owner ∧ (f q).direction = q.direction ∧
      (f q).links = q.links := by
    dsimp only [f]
    split
    · exact ⟨rfl, rfl, rfl⟩
    · exact ⟨rfl, rfl, rfl⟩
  obtain ⟨tpin₁, htpin₁, hface⟩ : ∃ tpin₁, g₁.pin? t = some tpin₁ ∧
      tpin₁.direction = tpin.direction := by
    have hface := hlinked.faces.directionOf?_eq t
    rw [Graph.directionOf?, Graph.directionOf?, htpin, Option.map_some] at hface
    exact Option.map_eq_some_iff.1 hface
  have htarget : (g₁.modifyPin t f).defaultsOf? t =
      if tpin.direction = .input then g.defaultsOf? p else g.defaultsOf? t := by
    rw [← hlinked.defaultsOf? t, Graph.defaultsOf?, pin?_modifyPin, if_pos rfl, htpin₁,
      Option.map_some, Option.map_some, Graph.defaultsOf?, hpin, Graph.defaultsOf?, htpin₁]
    dsimp only [f]
    rw [hface]
    split
    · rfl
    · rfl
  have htd : g.directionOf? t = some tpin.direction :=
    directionOf?_eq_some.2 ⟨tpin, htpin, rfl⟩
  refine ⟨_, hcopy, hlinked.linked.modifyPin t hf, fun r s ↦ ?_, fun r hr ↦ ?_, fun ht ↦ ?_⟩
  · rw [hlinks, ← hlinked.mem_linksOf, linksOf_modifyPin]
    split
    · next heq =>
      subst heq
      rw [htpin₁, Option.map_some, Option.getD_some, (hf tpin₁).2.2, linksOf, htpin₁,
        Option.map_some, Option.getD_some]
    · rfl
  · by_cases hrt : r = t
    · subst hrt
      have hout := hr.resolve_left fun hne ↦ hne rfl
      rw [htd, Option.some.injEq] at hout
      rw [htarget, if_neg]
      rw [hout]
      exact Direction.noConfusion
    · rw [← hlinked.defaultsOf? r, Graph.defaultsOf?, pin?_modifyPin, if_neg (Ne.symm hrt),
        Graph.defaultsOf?]
  · rw [htd, Option.some.injEq] at ht
    rw [htarget, if_pos ht]

/-- Moving is copying and then breaking the links of the source. -/
theorem Copied.relinks (h : Copied p t g g') (hg : g.Linked) (hne : p ≠ t) :
    Relinks (Function.update id p t) (fun _ _ ↦ False) g (g'.breakPinLinks p) := by
  have hself (q : PinId) (hq : q ∈ g.linksOf p) : q ≠ p := by
    rintro rfl
    exact hg.not_mem_linksOf_self hq
  intro r s
  rw [mem_linksOf_breakPinLinks h.linked, h.mem_linksOf, or_false, or_false]
  constructor
  · rintro ⟨hrs | ⟨rfl, hs⟩ | ⟨rfl, hr⟩, hrp, hsp⟩
    · exact ⟨r, s, hrs, Function.update_of_ne hrp _ _, Function.update_of_ne hsp _ _⟩
    · exact ⟨p, s, hs, Function.update_self _ _ _, Function.update_of_ne hsp _ _⟩
    · exact ⟨r, p, hg.symm hr, Function.update_of_ne hrp _ _, Function.update_self _ _ _⟩
  · rintro ⟨a, b, hab, rfl, rfl⟩
    by_cases ha : a = p
    · subst ha
      have hb := hself b hab
      rw [Function.update_self, Function.update_of_ne hb]
      exact ⟨.inr (.inl ⟨rfl, hab⟩), hne.symm, hb⟩
    · by_cases hb : b = p
      · subst hb
        rw [Function.update_self, Function.update_of_ne ha]
        exact ⟨.inr (.inr ⟨rfl, hg.symm hab⟩), ha, hne.symm⟩
      · rw [Function.update_of_ne ha, Function.update_of_ne hb]
        exact ⟨.inl hab, ha, hb⟩

theorem exists_movePinLinks (h : g.Linked) {n m : NodeId} {x y : String} (hp : g.PinAt n d x p)
    (ht : g.PinAt m d y t) (hne : p ≠ t) (howner : ∀ q ∈ g.linksOf p, g.ownerOf? q ≠ some m) :
    ∃ g', g.movePinLinks p t = ⟨g', none⟩ ∧ Moved p t g g' := by
  have hjoins := hp.joins h ht howner
  obtain ⟨pin, hpin, -⟩ := hp
  obtain ⟨tpin, htpin, -⟩ := ht
  obtain ⟨g₁, hcopy, hcopied⟩ := exists_copyPinLinks h hpin htpin hjoins
  have hmove : g.movePinLinks p t = ⟨g₁.breakPinLinks p, none⟩ := by
    unfold movePinLinks
    rw [hcopy]
  have hfaces := sameFaces_movePinLinks g p t
  have hwidens := Widens.movePinLinks g p t
  rw [hmove] at hfaces hwidens
  refine ⟨_, hmove, hwidens, hfaces, hcopied.linked.breakPinLinks p, hcopied.relinks h hne,
    fun r hr ↦ ?_, fun ht ↦ ?_⟩
  · rw [defaultsOf?_breakPinLinks, hcopied.others r hr]
  · rw [defaultsOf?_breakPinLinks, hcopied.defaultsOf? ht]

/-- Without links an output has nothing to move. -/
theorem movePinLinks_unlinked {pin tpin : Pin} (hpin : g.pin? p = some pin)
    (hlinks : pin.links = []) (htpin : g.pin? t = some tpin) (hout : tpin.direction = .output) :
    g.movePinLinks p t = ⟨g, none⟩ := by
  have hkeep : (g.modifyPin t fun q ↦ if q.direction = .input then
      { q with defaultValue := pin.defaultValue, defaultObject := pin.defaultObject }
      else q) = g := by
    refine congrArg (fun pins ↦ { g with pins }) (Slots.modify_of_fixed fun q hq ↦ ?_)
    obtain rfl := Option.some.inj (htpin.symm.trans hq)
    rw [hout]
    rfl
  have hcopy : g.copyPinLinks p t = ⟨g, none⟩ := by
    unfold copyPinLinks Graph.pin
    rw [hpin, htpin]
    dsimp only
    rw [hlinks]
    exact congrArg (Edit.mk · none) hkeep
  unfold movePinLinks
  rw [hcopy]
  dsimp only
  rw [breakPinLinks, linksOf, hpin, Option.map_some, Option.getD_some, hlinks]
  rfl

/-! ## New nodes and pins -/

theorem exists_mem_freshPins {first : Nat} {descs : List (Direction × PinDescription)}
    {desc : Direction × PinDescription} (h : desc ∈ descs) : ∃ pin ∈ freshPins n first descs,
      pin.owner = n ∧ pin.direction = desc.1 ∧ pin.name = desc.2.name := by
  induction descs generalizing first with
  | nil => cases h
  | cons d descs ih =>
    rcases List.mem_cons.1 h with rfl | h
    · exact ⟨_, List.mem_cons_self, rfl, rfl, rfl⟩
    · obtain ⟨pin, hpin, hplace⟩ := ih h
      exact ⟨pin, List.mem_cons_of_mem _ hpin, hplace⟩

theorem WellFormed.lt_size_of_ownerOf? (h : g.WellFormed) (hp : g.ownerOf? p = some n) :
    n.index < g.nodes.size :=
  lt_of_isSome_node? ((h.mem_order n).1 (h.mem_order_of_mem_pinsOf ((h.mem_pinsOf n p).2 hp)))

namespace Spawned

variable {kind : NodeKind} (h : Spawned kind (g.newPins kind) g g')
include h

theorem mem_linksOf_iff : q ∈ g'.linksOf p ↔ q ∈ g.linksOf p := by
  rw [mem_linksOf, mem_linksOf]
  constructor
  · rintro ⟨pin, hpin, hq⟩
    rcases (h.pin? p pin).1 hpin with hold | ⟨hnew, -⟩
    · exact ⟨pin, hold, hq⟩
    · rw [(of_mem_freshPins hnew).2.2.1] at hq
      cases hq
  · rintro ⟨pin, hpin, hq⟩
    exact ⟨pin, (h.pin? p pin).2 (.inl hpin), hq⟩

theorem linked (hg : g.Linked) : g'.Linked := by
  intro p q pin hpin hq
  rcases (h.pin? p pin).1 hpin with hold | ⟨hnew, -⟩
  · obtain ⟨pin', hpin', hback, hends⟩ := hg p q pin hold hq
    exact ⟨pin', (h.pin? q pin').2 (.inl hpin'), hback, hends⟩
  · rw [(of_mem_freshPins hnew).2.2.1] at hq
    cases hq

theorem setPosition (x y : Int) :
    Spawned kind (g.newPins kind) g (g'.setPosition ⟨g.nodes.size⟩ x y) where
  order := h.order
  nodes_size := (Slots.size_modify _ _ _).trans h.nodes_size
  node? m hm := by rw [Graph.setPosition, node?_modifyNode, if_neg hm.symm, h.node? m hm]
  kind? := by
    rw [← h.kind?, Graph.setPosition, Graph.kind?, node?_modifyNode, if_pos rfl, Option.map_map]
    rfl
  pinsOf := by
    rw [← h.pinsOf, Graph.setPosition, Graph.pinsOf, node?_modifyNode, if_pos rfl, Option.map_map]
    rfl
  pin? := h.pin?

theorem pinAt_iff_of_ne (hn : n ≠ ⟨g.nodes.size⟩) : g'.PinAt n d name p ↔ g.PinAt n d name p := by
  refine exists_congr fun pin ↦ and_congr_left fun hplace ↦ ?_
  rw [h.pin? p pin]
  refine or_iff_left ?_
  rintro ⟨hnew, -⟩
  exact hn (hplace.1.symm.trans (of_mem_freshPins hnew).2.1)

theorem exists_pinAt (desc : Direction × PinDescription) (hdesc : desc ∈ kind.startingPins) :
    ∃ p, g'.PinAt ⟨g.nodes.size⟩ desc.1 desc.2.name p := by
  obtain ⟨pin, hpin, howner, hdirection, hname⟩ := exists_mem_freshPins hdesc
  exact ⟨pin.id, pin, (h.pin? pin.id pin).2 (.inr ⟨hpin, rfl⟩), howner, hdirection, hname⟩

theorem of_pinAt (hg : g.WellFormed) (hp : g'.PinAt ⟨g.nodes.size⟩ d name p) :
    ∃ desc ∈ kind.startingPins, desc.1 = d ∧ desc.2.name = name := by
  obtain ⟨pin, hpin, howner, rfl, rfl⟩ := hp
  rcases (h.pin? p pin).1 hpin with hold | ⟨hnew, -⟩
  · have hlt := hg.lt_size_of_ownerOf? (ownerOf?_of_pin? hold)
    rw [howner] at hlt
    exact absurd hlt (Nat.lt_irrefl _)
  · obtain ⟨-, -, -, desc, hdesc, hdirection, hname, -⟩ := of_mem_freshPins hnew
    exact ⟨desc, hdesc, hdirection.symm, hname.symm⟩

end Spawned

namespace AddsPin

variable {pin : Pin} (h : AddsPin n p pin g g') (hpin : pin.links = [])
include h hpin

theorem mem_linksOf_iff : r ∈ g'.linksOf q ↔ r ∈ g.linksOf q := by
  rw [linksOf, h.pin?]
  split
  · next heq =>
    rw [heq, linksOf, h.fresh, Option.map_some, Option.getD_some, hpin]
    rfl
  · rw [linksOf]

theorem linked (hg : g.Linked) : g'.Linked := by
  intro q r qpin hqpin hr
  rw [h.pin?] at hqpin
  split at hqpin
  · cases hqpin
    rw [hpin] at hr
    cases hr
  · obtain ⟨rpin, hrpin, hback, hends⟩ := hg q r qpin hqpin hr
    refine ⟨rpin, ?_, hback, hends⟩
    rw [h.pin?, if_neg, hrpin]
    rintro rfl
    rw [h.fresh] at hrpin
    cases hrpin

end AddsPin

theorem AddsPin.pinAt_iff_of_ne {m : NodeId} {pin : Pin} (h : AddsPin n p pin g g')
    (howner : pin.owner = n) (hm : m ≠ n) : g'.PinAt m d name q ↔ g.PinAt m d name q := by
  refine exists_congr fun qpin ↦ and_congr_left fun hplace ↦ ?_
  rw [h.pin?]
  split
  · next heq =>
    subst heq
    rw [h.fresh]
    refine iff_of_false ?_ nofun
    rintro ⟨rfl⟩
    exact hm (hplace.1.symm.trans howner)
  · rfl

end Graph

end VisualScript
