import VisualScript.Expand.Macros
import VisualScript.Proofs.Graph.Linking
import Mathlib.Data.List.Find

/-!
# Splicing wires

A wire leads from an output to an input.  Where an input and an output are joined,
what arrives at the one goes on from the other.  Rewiring through a joint turns the
paths that pass it into wires and cuts the tunnel pin off.
-/

namespace VisualScript

/-! ## Paths -/

/-- A path along wires: what arrives at `x` goes on from any `y` that is joined to it. -/
inductive WirePath {α : Type} (wire joint : α → α → Prop) : α → α → Prop
  | wire {p q : α} (h : wire p q) : WirePath wire joint p q
  | through {p x y q : α} (h : wire p x) (hjoint : joint x y) (hrest : WirePath wire joint y q) :
      WirePath wire joint p q

namespace WirePath

variable {α β : Type} {wire joint : α → α → Prop} {p q x y : α}

/-- A path keeps to the image of its wires and joints. -/
theorem map {wire' joint' : β → β → Prop} (f : α → β) (hwire : ∀ p q, wire p q → wire' (f p) (f q))
    (hjoint : ∀ x y, joint x y → joint' (f x) (f y)) (h : WirePath wire joint p q) :
    WirePath wire' joint' (f p) (f q) := by
  induction h with
  | wire h => exact .wire (hwire _ _ h)
  | through h hxy _ ih => exact .through (hwire _ _ h) (hjoint _ _ hxy) ih

theorem mono {joint' : α → α → Prop} (hjoint : ∀ x y, joint x y → joint' x y)
    (h : WirePath wire joint p q) : WirePath wire joint' p q :=
  h.map id (fun _ _ ↦ id) hjoint

theorem trans (h : WirePath wire joint p x) (hjoint : joint x y) (hrest : WirePath wire joint y q) :
    WirePath wire joint p q := by
  induction h with
  | wire h => exact .through h hjoint hrest
  | through h hxy _ ih => exact .through h hxy (ih hjoint)

theorem exists_first (h : WirePath wire joint p q) : ∃ x, wire p x := by
  cases h with
  | wire h => exact ⟨q, h⟩
  | through h => exact ⟨_, h⟩

/-- A path is a wire, or a joint stands before its last wire. -/
theorem last_cases (h : WirePath wire joint p q) :
    wire p q ∨ ∃ x y, WirePath wire joint p x ∧ joint x y ∧ wire y q := by
  induction h with
  | wire h => exact .inl h
  | through h hxy _ ih =>
    rcases ih with hlast | ⟨x', y', hpath, hjoint, hlast⟩
    · exact .inr ⟨_, _, .wire h, hxy, hlast⟩
    · exact .inr ⟨x', y', .through h hxy hpath, hjoint, hlast⟩

theorem exists_last (h : WirePath wire joint p q) : ∃ y, wire y q := by
  rcases h.last_cases with hlast | ⟨_, y, -, -, hlast⟩
  · exact ⟨p, hlast⟩
  · exact ⟨y, hlast⟩

/-- A path from a pin that is wired to no joint is a wire. -/
theorem wire_of_source (hp : ∀ x y, joint x y → ¬wire p x) (h : WirePath wire joint p q) :
    wire p q := by
  cases h with
  | wire h => exact h
  | through h hxy => exact absurd h (hp _ _ hxy)

/-- A path to a pin that is wired from no joint is a wire. -/
theorem wire_of_target (hq : ∀ x y, joint x y → ¬wire y q) (h : WirePath wire joint p q) :
    wire p q := by
  induction h with
  | wire h => exact h
  | through _ hxy _ ih => exact absurd (ih hq) (hq _ _ hxy)

/-- With one more joint a path either avoids it or first reaches it and last leaves it. -/
theorem insert_iff : WirePath wire (fun a b ↦ joint a b ∨ a = x ∧ b = y) p q ↔
    WirePath wire joint p q ∨ WirePath wire joint p x ∧ WirePath wire joint y q := by
  constructor
  · intro h
    induction h with
    | wire h => exact .inl (.wire h)
    | through h hxy _ ih =>
      rcases hxy with hxy | ⟨rfl, rfl⟩
      · exact ih.imp (.through h hxy) fun ⟨hin, hout⟩ ↦ ⟨.through h hxy hin, hout⟩
      · rcases ih with hout | ⟨-, hout⟩
        · exact .inr ⟨.wire h, hout⟩
        · exact .inr ⟨.wire h, hout⟩
  · rintro (h | ⟨hin, hout⟩)
    · exact h.mono fun _ _ ↦ .inl
    · exact (hin.mono fun _ _ ↦ .inl).trans (.inr ⟨rfl, rfl⟩) (hout.mono fun _ _ ↦ .inl)

/-- A path to `q` starts at the input `x` of a joint, at which no wire arrives. -/
def StartsAt (wire joint : α → α → Prop) (x q : α) : Prop :=
  (∀ s, ¬wire s x) ∧ ∃ y, joint x y ∧ WirePath wire joint y q

theorem StartsAt.mono {joint' : α → α → Prop} (hjoint : ∀ x y, joint x y → joint' x y)
    (h : StartsAt wire joint x q) : StartsAt wire joint' x q :=
  ⟨h.1, h.2.imp fun _ ⟨hxy, hpath⟩ ↦ ⟨hjoint _ _ hxy, hpath.mono hjoint⟩⟩

theorem StartsAt.through (h : StartsAt wire joint p x) (hjoint : joint x y)
    (hrest : WirePath wire joint y q) : StartsAt wire joint p q :=
  ⟨h.1, h.2.imp fun _ ⟨hxy, hpath⟩ ↦ ⟨hxy, hpath.trans hjoint hrest⟩⟩

end WirePath

/-- A pin without what it is wired to and what it stands for. -/
def Pin.unwired (pin : Pin) : Pin := { pin with links := [], defaultValue := "", defaultObject := none }

namespace Graph

/-! ## Wires -/

/-- A wire leads from the output `p` to `q`. -/
def Feeds (g : Graph) (p q : PinId) : Prop :=
  ∃ pin, g.pin? p = some pin ∧ pin.direction = .output ∧ q ∈ pin.links

def directionOf? (g : Graph) (p : PinId) : Option Direction := (g.pin? p).map (·.direction)

/-- What a pin stands for while it has no links. -/
def defaultsOf? (g : Graph) (p : PinId) : Option (String × Option String) :=
  (g.pin? p).map fun pin ↦ (pin.defaultValue, pin.defaultObject)

variable {g g' : Graph} {a b p q : PinId}

theorem directionOf?_eq_some {d : Direction} :
    g.directionOf? p = some d ↔ ∃ pin, g.pin? p = some pin ∧ pin.direction = d :=
  Option.map_eq_some_iff

theorem feeds_iff : g.Feeds p q ↔ g.directionOf? p = some .output ∧ q ∈ g.linksOf p := by
  rw [mem_linksOf, directionOf?_eq_some]
  constructor
  · rintro ⟨pin, hpin, hdirection, hlink⟩
    exact ⟨⟨pin, hpin, hdirection⟩, pin, hpin, hlink⟩
  · rintro ⟨⟨pin, hpin, hdirection⟩, _, hpin', hlink⟩
    cases hpin.symm.trans hpin'
    exact ⟨pin, hpin, hdirection, hlink⟩

/-- The ends of a wire are on different nodes, and it arrives at an input. -/
theorem Linked.feeds (h : g.Linked) (hfeeds : g.Feeds p q) :
    g.directionOf? q = some .input ∧ p ∈ g.linksOf q ∧ g.ownerOf? q ≠ g.ownerOf? p := by
  obtain ⟨pin, hpin, hdirection, hlink⟩ := hfeeds
  obtain ⟨pin', hpin', hback, howner, hdirection'⟩ := h p q pin hpin hlink
  refine ⟨directionOf?_eq_some.2 ⟨pin', hpin', ?_⟩, mem_linksOf.2 ⟨pin', hpin', hback⟩, ?_⟩
  · cases hd : pin'.direction with
    | input => rfl
    | output => exact absurd (hd.trans hdirection.symm) hdirection'
  · rw [ownerOf?_of_pin? hpin, ownerOf?_of_pin? hpin']
    exact fun heq ↦ howner (Option.some.inj heq)

/-- The links of an input are the wires that arrive at it. -/
theorem Linked.mem_linksOf_input (h : g.Linked) (hp : g.directionOf? p = some .input) :
    q ∈ g.linksOf p ↔ g.Feeds q p := by
  constructor
  · intro hq
    obtain ⟨pin, hpin, hdirection⟩ := directionOf?_eq_some.1 hp
    obtain ⟨_, hpin₀, hlink⟩ := mem_linksOf.1 hq
    cases hpin.symm.trans hpin₀
    obtain ⟨pin', hpin', hback, -, hdirection'⟩ := h p q pin hpin hlink
    refine ⟨pin', hpin', ?_, hback⟩
    cases hd : pin'.direction with
    | output => rfl
    | input => exact absurd (hd.trans hdirection.symm) hdirection'
  · exact fun hfeeds ↦ (h.feeds hfeeds).2.1

theorem mem_linksOf_output (hp : g.directionOf? p = some .output) :
    q ∈ g.linksOf p ↔ g.Feeds p q := by
  rw [feeds_iff]
  exact (and_iff_right hp).symm

/-! ## What rewiring keeps -/

/-- The graphs differ in the links and defaults of pins only. -/
structure SameFaces (g g' : Graph) : Prop where
  order : g'.order = g.order
  nodes : ∀ n, g'.node? n = g.node? n
  pins : ∀ p, (g'.pin? p).map Pin.unwired = (g.pin? p).map Pin.unwired

namespace SameFaces

theorem refl (g : Graph) : SameFaces g g := ⟨rfl, fun _ ↦ rfl, fun _ ↦ rfl⟩

theorem trans {g g' g'' : Graph} (h : SameFaces g g') (h' : SameFaces g' g'') : SameFaces g g'' :=
  ⟨h'.order.trans h.order, fun n ↦ (h'.nodes n).trans (h.nodes n),
    fun p ↦ (h'.pins p).trans (h.pins p)⟩

theorem foldl {α : Type} {f : Graph → α → Graph} (hf : ∀ g a, SameFaces g (f g a)) (l : List α)
    (g : Graph) : SameFaces g (l.foldl f g) := by
  induction l generalizing g with
  | nil => exact refl g
  | cons a l ih => exact (hf g a).trans (ih (f g a))

theorem modifyPin (g : Graph) (p : PinId) {f : Pin → Pin}
    (hf : ∀ pin, (f pin).unwired = pin.unwired) : SameFaces g (g.modifyPin p f) where
  order := rfl
  nodes _ := rfl
  pins q := by
    rw [pin?_modifyPin]
    split
    · cases g.pin? q with
      | none => rfl
      | some pin => exact congrArg some (hf pin)
    · rfl

section Faces

variable {g g' : Graph} (h : SameFaces g g')
include h

/-- Whatever can be read off a pin without its wiring is the same. -/
theorem map_eq {β : Type} {f : Pin → β} (hf : ∀ pin, f pin.unwired = f pin) (p : PinId) :
    (g'.pin? p).map f = (g.pin? p).map f := by
  have hpins := congrArg (Option.map f) (h.pins p)
  rw [Option.map_map, Option.map_map, show f ∘ Pin.unwired = f from funext hf] at hpins
  exact hpins

theorem any_eq {f : Pin → Bool} (hf : ∀ pin, f pin.unwired = f pin) (p : PinId) :
    (g'.pin? p).any f = (g.pin? p).any f := by
  have hany (o : Option Pin) : o.any f = (o.map f).getD false := by
    cases o <;> rfl
  rw [hany, hany, h.map_eq hf p]

theorem directionOf?_eq (p : PinId) : g'.directionOf? p = g.directionOf? p :=
  h.map_eq (fun _ ↦ rfl) p

theorem ownerOf?_eq (p : PinId) : g'.ownerOf? p = g.ownerOf? p := h.map_eq (fun _ ↦ rfl) p

theorem pinsOf_eq (n : NodeId) : g'.pinsOf n = g.pinsOf n := by
  rw [pinsOf, h.nodes n, pinsOf]

theorem kind?_eq (n : NodeId) : g'.kind? n = g.kind? n := by
  rw [kind?, h.nodes n, kind?]

theorem sameBooks : SameBooks g g' where
  order := h.order
  nodes n := by rw [h.nodes n]
  owners := h.ownerOf?_eq

end Faces

end SameFaces

theorem findPin?_eq_some {n : NodeId} {name : String} {d : Direction}
    (h : g.findPin? n name (some d) = some p) : p ∈ g.pinsOf n ∧ g.directionOf? p = some d := by
  refine ⟨List.mem_of_find?_eq_some h, ?_⟩
  have hmatch : g.pinMatches name (some d) p = true := List.find?_some h
  simp only [pinMatches, Option.any_eq_true, Bool.and_eq_true, Option.all_some,
    decide_eq_true_eq] at hmatch
  obtain ⟨pin, hpin, -, hdirection⟩ := hmatch
  exact directionOf?_eq_some.2 ⟨pin, hpin, hdirection.symm⟩

/-- The first pin of a name is found by the faces of the pins of the node. -/
theorem findPin?_congr {n : NodeId} (hpins : g'.pinsOf n = g.pinsOf n)
    (hfaces : ∀ q ∈ g.pinsOf n, (g'.pin? q).map Pin.unwired = (g.pin? q).map Pin.unwired)
    (name : String) (d : Option Direction) : g'.findPin? n name d = g.findPin? n name d := by
  rw [findPin?, findPin?, hpins]
  refine List.find?_congr fun q hq ↦ ?_
  have hmatches (o : Option Pin) : (o.any fun pin ↦ pin.name == name && d.all (· = pin.direction)) =
      ((o.map Pin.unwired).any fun pin ↦ pin.name == name && d.all (· = pin.direction)) := by
    cases o <;> rfl
  rw [pinMatches, hmatches, hfaces q hq, ← hmatches, ← pinMatches]

theorem sameFaces_makeLink (h : g.makeLink a b = .ok g') : SameFaces g g' := by
  obtain ⟨pa, pb, -, -, -, -, ⟨-, rfl⟩ | ⟨-, rfl⟩⟩ := makeLink_eq_ok h
  · exact .refl g'
  · refine .trans (.modifyPin g a ?_) (.modifyPin _ b ?_)
    · exact fun _ ↦ rfl
    · exact fun _ ↦ rfl

theorem sameFaces_breakLink (g : Graph) (a b : PinId) : SameFaces g (g.breakLink a b) := by
  refine .trans (.modifyPin g a ?_) (.modifyPin _ b ?_)
  · exact fun _ ↦ rfl
  · exact fun _ ↦ rfl

theorem sameFaces_breakPinLinks (g : Graph) (p : PinId) : SameFaces g (g.breakPinLinks p) :=
  .foldl (fun g q ↦ sameFaces_breakLink g p q) _ g

theorem sameFaces_breakNodeLinks (g : Graph) (n : NodeId) : SameFaces g (g.breakNodeLinks n) :=
  .foldl sameFaces_breakPinLinks _ g

theorem sameFaces_setDefaults (g : Graph) (p : PinId) (value : String) (object : Option String) :
    SameFaces g (g.setDefaults p value object) := .modifyPin g p fun _ ↦ rfl

theorem sameFaces_linkPairs (g : Graph) (pairs : List (PinId × PinId)) :
    SameFaces g (g.linkPairs pairs).1 := by
  induction pairs generalizing g with
  | nil => exact .refl g
  | cons pair pairs ih =>
    unfold linkPairs
    split
    · next g' hg' => exact (sameFaces_makeLink hg').trans (ih g')
    · exact .refl g

/-! ## Links that are made -/

theorem defaultsOf?_modifyPin (g : Graph) (a p : PinId) {f : Pin → Pin}
    (hf : ∀ pin, (f pin).defaultValue = pin.defaultValue ∧
      (f pin).defaultObject = pin.defaultObject) :
    (g.modifyPin a f).defaultsOf? p = g.defaultsOf? p := by
  unfold defaultsOf?
  rw [pin?_modifyPin]
  split
  · cases g.pin? p with
    | none => rfl
    | some pin => exact congrArg some (Prod.ext (hf pin).1 (hf pin).2)
  · rfl

theorem defaultsOf?_makeLink (h : g.makeLink a b = .ok g') (p : PinId) :
    g'.defaultsOf? p = g.defaultsOf? p := by
  obtain ⟨pa, pb, -, -, -, -, ⟨-, rfl⟩ | ⟨-, rfl⟩⟩ := makeLink_eq_ok h
  · rfl
  · rw [defaultsOf?_modifyPin, defaultsOf?_modifyPin]
    · exact fun _ ↦ ⟨rfl, rfl⟩
    · exact fun _ ↦ ⟨rfl, rfl⟩

theorem defaultsOf?_breakLink (g : Graph) (a b p : PinId) :
    (g.breakLink a b).defaultsOf? p = g.defaultsOf? p := by
  rw [breakLink, defaultsOf?_modifyPin, defaultsOf?_modifyPin]
  · exact fun _ ↦ ⟨rfl, rfl⟩
  · exact fun _ ↦ ⟨rfl, rfl⟩

theorem defaultsOf?_breakPinLinks (g : Graph) (a p : PinId) :
    (g.breakPinLinks a).defaultsOf? p = g.defaultsOf? p :=
  List.foldlRecOn (motive := fun g' : Graph ↦ g'.defaultsOf? p = g.defaultsOf? p) _ _ rfl
    fun g' hg' b _ ↦ (defaultsOf?_breakLink g' a b p).trans hg'

theorem defaultsOf?_breakNodeLinks (g : Graph) (n : NodeId) (p : PinId) :
    (g.breakNodeLinks n).defaultsOf? p = g.defaultsOf? p :=
  List.foldlRecOn (motive := fun g' : Graph ↦ g'.defaultsOf? p = g.defaultsOf? p) _ _ rfl
    fun g' hg' a _ ↦ (defaultsOf?_breakPinLinks g' a p).trans hg'

/-- A link that is made from an output is one more wire. -/
theorem feeds_makeLink (hlinked : g.Linked) (h : g.makeLink a b = .ok g') (ha : g.directionOf? a = some .output) :
    g'.Feeds p q ↔ g.Feeds p q ∨ p = a ∧ q = b := by
  rw [feeds_iff, feeds_iff, (sameFaces_makeLink h).directionOf?_eq, mem_linksOf_makeLink hlinked h]
  obtain ⟨pa, pb, hpa, hpb, hdirection, -⟩ := makeLink_eq_ok h
  have hb : g.directionOf? b ≠ some .output := by
    rw [directionOf?, hpa] at ha
    rw [directionOf?, hpb]
    exact fun heq ↦ hdirection ((Option.some.inj ha).trans (Option.some.inj heq).symm)
  constructor
  · rintro ⟨hp, hq | ⟨rfl, rfl⟩ | ⟨rfl, rfl⟩⟩
    · exact .inl ⟨hp, hq⟩
    · exact .inr ⟨rfl, rfl⟩
    · exact absurd hp hb
  · rintro (⟨hp, hq⟩ | ⟨rfl, rfl⟩)
    · exact ⟨hp, .inl hq⟩
    · exact ⟨ha, .inr (.inl ⟨rfl, rfl⟩)⟩

theorem feeds_breakPinLinks (h : g.Linked) :
    (g.breakPinLinks a).Feeds p q ↔ g.Feeds p q ∧ p ≠ a ∧ q ≠ a := by
  rw [feeds_iff, feeds_iff, (sameFaces_breakPinLinks g a).directionOf?_eq,
    mem_linksOf_breakPinLinks h, and_assoc]

/-- All the links are made, and they lead from outputs. -/
theorem linkPairs_ok {pairs : List (PinId × PinId)} (hok : (g.linkPairs pairs).2 = true)
    (hout : ∀ pair ∈ pairs, g.directionOf? pair.1 = some .output) (h : g.Linked) :
    (g.linkPairs pairs).1.Linked ∧
      (∀ p, (g.linkPairs pairs).1.defaultsOf? p = g.defaultsOf? p) ∧
      ∀ p q, (g.linkPairs pairs).1.Feeds p q ↔ g.Feeds p q ∨ (p, q) ∈ pairs := by
  induction pairs generalizing g with
  | nil => exact ⟨h, fun _ ↦ rfl, fun p q ↦ by simp [linkPairs]⟩
  | cons pair pairs ih =>
    unfold linkPairs at hok ⊢
    split at hok
    · next g' hmake =>
      have hfaces := sameFaces_makeLink hmake
      obtain ⟨hlinked, hdefaults, hfeeds⟩ := ih hok (fun pair' hmem ↦ by
        rw [hfaces.directionOf?_eq]
        exact hout pair' (List.mem_cons_of_mem pair hmem)) (h.makeLink hmake)
      refine ⟨hlinked, fun p ↦ (hdefaults p).trans (defaultsOf?_makeLink hmake p), fun p q ↦ ?_⟩
      rw [hfeeds, feeds_makeLink h hmake (hout pair List.mem_cons_self), List.mem_cons, or_assoc,
        Prod.ext_iff]
    · cases hok

/-! ## Removing -/

section Removing

variable {n : NodeId} (hn : g.contains n = true)
include hn

theorem feeds_removeNode (h : g.Linked) :
    (g.removeNode n).Feeds p q ↔ g.Feeds p q ∧ p ∉ g.pinsOf n ∧ q ∉ g.pinsOf n := by
  rw [feeds_iff, feeds_iff, mem_linksOf_removeNode h hn, directionOf?, pin?_removeNode hn]
  split
  · next hp => simp [hp]
  · rw [← directionOf?, (sameFaces_breakNodeLinks g n).directionOf?_eq, and_assoc]

theorem defaultsOf?_removeNode (hp : p ∉ g.pinsOf n) :
    (g.removeNode n).defaultsOf? p = g.defaultsOf? p := by
  rw [defaultsOf?, pin?_removeNode hn, if_neg hp]
  exact defaultsOf?_breakNodeLinks g n p

theorem unwired_removeNode (hp : p ∉ g.pinsOf n) :
    ((g.removeNode n).pin? p).map Pin.unwired = (g.pin? p).map Pin.unwired := by
  rw [pin?_removeNode hn, if_neg hp]
  exact (sameFaces_breakNodeLinks g n).pins p

theorem node?_removeNode_of_ne {m : NodeId} (hm : m ≠ n) :
    (g.removeNode n).node? m = g.node? m := by
  rw [node?_removeNode hn, if_neg (Ne.symm hm)]
  exact (sameFaces_breakNodeLinks g n).nodes m

end Removing

/-! ## Rewiring -/

theorem defaultsOf?_setDefaults (g : Graph) (a p : PinId) (value : String)
    (object : Option String) : (g.setDefaults a value object).defaultsOf? p =
      if a = p then (g.defaultsOf? p).map fun _ ↦ (value, object) else g.defaultsOf? p := by
  unfold defaultsOf? setDefaults
  rw [pin?_modifyPin]
  split
  · rw [Option.map_map, Option.map_map]
    rfl
  · rfl

theorem feeds_setDefaults (g : Graph) (a : PinId) (value : String) (object : Option String) :
    (g.setDefaults a value object).Feeds p q ↔ g.Feeds p q := by
  rw [feeds_iff, feeds_iff, (sameFaces_setDefaults g a value object).directionOf?_eq, setDefaults,
    linksOf_modifyPin]
  split
  · rw [linksOf]
  · rfl

/-- Without sources the targets take the defaults of the boundary. -/
theorem setAllDefaults_ok (h : g.Linked) (targets : List PinId) (value : String)
    (object : Option String) :
    let g' := targets.foldl (fun g t ↦ g.setDefaults t value object) g
    SameFaces g g' ∧ g'.Linked ∧ (∀ p q, g'.Feeds p q ↔ g.Feeds p q) ∧
      ∀ p, g'.defaultsOf? p =
        if p ∈ targets then (g.defaultsOf? p).map fun _ ↦ (value, object) else g.defaultsOf? p := by
  induction targets generalizing g with
  | nil => exact ⟨.refl g, h, fun _ _ ↦ Iff.rfl, fun _ ↦ rfl⟩
  | cons t targets ih =>
    obtain ⟨hfaces, hlinked, hfeeds, hdefaults⟩ :=
      ih (g := g.setDefaults t value object) (h.modifyPin t fun _ ↦ ⟨rfl, rfl, rfl⟩)
    refine ⟨(sameFaces_setDefaults g t value object).trans hfaces, hlinked,
      fun p q ↦ (hfeeds p q).trans (feeds_setDefaults g t value object), fun p ↦ ?_⟩
    rw [List.foldl_cons, hdefaults, defaultsOf?_setDefaults]
    by_cases hpt : t = p
    · subst hpt
      simp [Option.map_map, Function.comp_def]
    · simp [hpt, Ne.symm hpt]

theorem wire_nil (g : Graph) (targets : List PinId) (x : PinId) : g.wire [] targets x =
    (targets.foldl (fun g' t ↦ g'.setDefaults t ((g.defaultsOf? x).getD ("", none)).1
      ((g.defaultsOf? x).getD ("", none)).2) g, true) := by
  unfold wire defaultsOf?
  cases g.pin? x <;> rfl

theorem wire_cons (g : Graph) (s : PinId) (sources targets : List PinId) (x : PinId) :
    g.wire (s :: sources) targets x =
      g.linkPairs (targets.flatMap fun t ↦ (s :: sources).map (·, t)) := rfl

/-- What arrives at `x` is wired to what `y` leads to. -/
theorem wire_ok {x : PinId} {sources targets : List PinId} (h : g.Linked)
    (hok : (g.wire sources targets x).2 = true)
    (hout : ∀ s ∈ sources, g.directionOf? s = some .output) :
    let g' := (g.wire sources targets x).1
    SameFaces g g' ∧ g'.Linked ∧
      (∀ p q, g'.Feeds p q ↔ g.Feeds p q ∨ p ∈ sources ∧ q ∈ targets) ∧
      ∀ p, g'.defaultsOf? p = if sources = [] ∧ p ∈ targets then
          (g.defaultsOf? p).map fun _ ↦ (g.defaultsOf? x).getD ("", none)
        else g.defaultsOf? p := by
  cases sources with
  | nil =>
    obtain ⟨hfaces, hlinked, hfeeds, hdefaults⟩ := setAllDefaults_ok h targets
      ((g.defaultsOf? x).getD ("", none)).1 ((g.defaultsOf? x).getD ("", none)).2
    rw [wire_nil]
    refine ⟨hfaces, hlinked, fun p q ↦ ?_, fun p ↦ ?_⟩
    · simp [hfeeds]
    · simp [hdefaults]
  | cons s sources =>
    rw [wire_cons] at hok ⊢
    have hpairs (p q : PinId) : (p, q) ∈ targets.flatMap (fun t ↦ (s :: sources).map (·, t)) ↔
        p ∈ s :: sources ∧ q ∈ targets := by
      rw [List.mem_flatMap]
      constructor
      · rintro ⟨t, ht, hmem⟩
        obtain ⟨a, ha, heq⟩ := List.mem_map.1 hmem
        cases heq
        exact ⟨ha, ht⟩
      · rintro ⟨hp, hq⟩
        exact ⟨q, hq, List.mem_map.2 ⟨p, hp, rfl⟩⟩
    obtain ⟨hlinked, hdefaults, hfeeds⟩ := linkPairs_ok hok
      (fun pair hmem ↦ hout pair.1 ((hpairs pair.1 pair.2).1 hmem).1) h
    refine ⟨sameFaces_linkPairs g _, hlinked, fun p q ↦ ?_, fun p ↦ ?_⟩
    · rw [hfeeds, hpairs]
    · rw [hdefaults, if_neg (by simp)]

/-- The input of a joint and its output, for a pin of the instance and one of a tunnel. -/
def jointEnds (entry : Bool) (instPin tunnelPin : PinId) : PinId × PinId :=
  if entry then (instPin, tunnelPin) else (tunnelPin, instPin)

theorem rewireThrough_eq (g : Graph) (instPin tunnelPin : PinId) (entry : Bool) :
    g.rewireThrough instPin tunnelPin entry = (g.breakPinLinks tunnelPin).wire
      (g.linksOf (jointEnds entry instPin tunnelPin).1)
      (g.linksOf (jointEnds entry instPin tunnelPin).2) (jointEnds entry instPin tunnelPin).1 := by
  cases entry <;> rfl

/-- Rewiring turns the paths through a joint into wires and cuts off the tunnel pin. -/
theorem rewireThrough_ok {entry : Bool} {instPin tunnelPin x y : PinId} (h : g.Linked)
    (hends : jointEnds entry instPin tunnelPin = (x, y))
    (hx : g.directionOf? x = some .input) (hy : g.directionOf? y = some .output)
    (hloop : ¬g.Feeds y x) (hok : (g.rewireThrough instPin tunnelPin entry).2 = true) :
    let g' := (g.rewireThrough instPin tunnelPin entry).1
    SameFaces g g' ∧ g'.Linked ∧
      (∀ p q, g'.Feeds p q ↔
        p ≠ tunnelPin ∧ q ≠ tunnelPin ∧ (g.Feeds p q ∨ g.Feeds p x ∧ g.Feeds y q)) ∧
      (∀ p, g.Feeds y p → (∀ s, ¬g.Feeds s x) → g'.defaultsOf? p = g.defaultsOf? x) ∧
      ∀ p, ¬g.Feeds y p ∨ (∃ s, g.Feeds s x) → g'.defaultsOf? p = g.defaultsOf? p := by
  have hfeeds_in (s : PinId) : s ∈ g.linksOf x ↔ g.Feeds s x := h.mem_linksOf_input hx
  have hfeeds_out (t : PinId) : t ∈ g.linksOf y ↔ g.Feeds y t := mem_linksOf_output hy
  have hbroken := sameFaces_breakPinLinks g tunnelPin
  rw [rewireThrough_eq, hends] at hok ⊢
  obtain ⟨hfaces, hlinked, hfeeds, hdefaults⟩ := wire_ok (h.breakPinLinks tunnelPin) hok fun s hs ↦ by
    rw [hbroken.directionOf?_eq]
    exact (feeds_iff.1 ((hfeeds_in s).1 hs)).1
  -- neither end of a new wire is the tunnel pin, whichever side of the joint that is
  have hnew {p q : PinId} (hp : g.Feeds p x) (hq : g.Feeds y q) : p ≠ tunnelPin ∧ q ≠ tunnelPin := by
    have hside : tunnelPin = y ∨ tunnelPin = x := by
      cases entry with
      | true => exact .inl (Prod.ext_iff.1 hends).2
      | false => exact .inr (Prod.ext_iff.1 hends).1
    rcases hside with rfl | rfl
    · refine ⟨?_, ?_⟩
      · rintro rfl
        exact hloop hp
      · rintro rfl
        exact absurd (hy.symm.trans (h.feeds hq).1) (by decide)
    · refine ⟨?_, ?_⟩
      · rintro rfl
        exact absurd (hx.symm.trans (feeds_iff.1 hp).1) (by decide)
      · rintro rfl
        exact hloop hq
  refine ⟨hbroken.trans hfaces, hlinked, fun p q ↦ ?_, fun p hp hnone ↦ ?_, fun p hp ↦ ?_⟩
  · rw [hfeeds, feeds_breakPinLinks h, hfeeds_in, hfeeds_out]
    constructor
    · rintro (⟨hold, hp, hq⟩ | ⟨hp, hq⟩)
      · exact ⟨hp, hq, .inl hold⟩
      · exact ⟨(hnew hp hq).1, (hnew hp hq).2, .inr ⟨hp, hq⟩⟩
    · rintro ⟨hp, hq, hold | hnew⟩
      · exact .inl ⟨hold, hp, hq⟩
      · exact .inr hnew
  · have hempty : g.linksOf x = [] :=
      List.eq_nil_iff_forall_not_mem.2 fun s hs ↦ hnone s ((hfeeds_in s).1 hs)
    obtain ⟨pin, hpin, -⟩ := directionOf?_eq_some.1 hx
    obtain ⟨pin', hpin', -⟩ := directionOf?_eq_some.1 (h.feeds hp).1
    rw [hdefaults, if_pos ⟨hempty, (hfeeds_out p).2 hp⟩, defaultsOf?_breakPinLinks,
      defaultsOf?_breakPinLinks, defaultsOf?, defaultsOf?, hpin, hpin']
    rfl
  · rw [hdefaults, if_neg, defaultsOf?_breakPinLinks]
    rintro ⟨hempty, hmem⟩
    rcases hp with hp | ⟨s, hs⟩
    · exact hp ((hfeeds_out p).1 hmem)
    · rw [← hfeeds_in, hempty] at hs
      cases hs

end Graph

end VisualScript
