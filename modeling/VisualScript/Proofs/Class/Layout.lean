import Mathlib.Data.List.Nodup
import VisualScript.Proofs.Class.Extension
import VisualScript.Proofs.Class.Finishing
import VisualScript.Proofs.Flags

/-!
# Laying out

Properties are placed one after another, each at the next multiple of its alignment.  So the
bytes of a frame are apart, and its parameters come first.  A class starts where its parent
ends, and the bytes of a whole hierarchy are apart.
-/

namespace VisualScript

/-! ## Placed properties -/

theorem PinType.layout?_size_pos {ty : PinType} {l : Layout} (h : ty.layout? = some l) :
    0 < l.size := by
  unfold layout? at h
  split at h
  · obtain rfl := Option.some.inj h
    decide
  · split at h
    all_goals try (simp only [Option.some.injEq] at h; subst h; decide)
    · obtain ⟨name, -, rfl⟩ := Option.map_eq_some_iff.1 h
      split
      · decide
      · split <;> decide
    all_goals cases h

namespace Property

/-- No byte is one of both properties. -/
def Apart (p q : Property) : Prop := p.stop ≤ q.offset ∨ q.stop ≤ p.offset

/-- The property has the size of its type and is at a multiple of the alignment. -/
def Fits (p : Property) : Prop :=
  ∃ layout, p.ty.layout? = some layout ∧ layout.alignment ∣ p.offset ∧ p.size = layout.size

theorem layout_alignment_pos (p : Property) : 0 < p.layout.alignment := by
  unfold layout
  cases h : p.ty.layout? with
  | none => exact Nat.one_pos
  | some l => exact PinType.layout?_alignment_pos h

theorem Fits.size_pos {p : Property} (h : p.Fits) : 0 < p.size := by
  obtain ⟨layout, hlayout, -, hsize⟩ := h
  exact hsize ▸ PinType.layout?_size_pos hlayout

theorem layout_place (p : Property) (offset : Nat) : (p.place offset).layout = p.layout := by
  unfold place layout
  cases p.ty.layout? <;> rfl

theorem place_place (p : Property) (offset : Nat) :
    (p.place offset).place offset = p.place offset := by
  have hlayout := p.layout_place offset
  rw [place, hlayout]
  rfl

end Property

theorem placeAll_placeAll (offset : Nat) (ps : List Property) :
    placeAll offset (placeAll offset ps) = placeAll offset ps := by
  induction ps generalizing offset with
  | nil => rfl
  | cons p ps ih => rw [placeAll, placeAll, p.place_place, ih]

theorem exists_of_mem_placeAll {offset : Nat} {ps : List Property} {q : Property}
    (h : q ∈ placeAll offset ps) : ∃ p ∈ ps, ∃ start, q = p.place start := by
  induction ps generalizing offset with
  | nil => cases h
  | cons p ps ih =>
    rcases List.mem_cons.1 h with rfl | h
    · exact ⟨p, List.mem_cons_self, offset, rfl⟩
    · obtain ⟨p', hp', hq⟩ := ih h
      exact ⟨p', List.mem_cons_of_mem p hp', hq⟩

theorem layoutEnd_cons (offset : Nat) (p : Property) (ps : List Property) :
    layoutEnd offset (p :: ps) = layoutEnd p.stop ps := by
  unfold layoutEnd
  rw [List.getLast?_cons]
  cases ps.getLast? <;> rfl

theorem placeAll_append (offset : Nat) (ps qs : List Property) :
    placeAll offset (ps ++ qs) =
      placeAll offset ps ++ placeAll (layoutEnd offset (placeAll offset ps)) qs := by
  induction ps generalizing offset with
  | nil => rfl
  | cons p ps ih => rw [List.cons_append, placeAll, placeAll, ih, layoutEnd_cons, List.cons_append]

/-- The properties are in order from an offset on, each at a multiple of its alignment. -/
structure PlacedFrom (offset : Nat) (ps : List Property) : Prop where
  offset_le : ∀ p ∈ ps, offset ≤ p.offset
  dvd : ∀ p ∈ ps, p.layout.alignment ∣ p.offset
  size : ∀ p ∈ ps, p.size = p.layout.size
  ordered : ps.Pairwise fun p q ↦ p.stop ≤ q.offset
  stop_le : ∀ p ∈ ps, p.stop ≤ layoutEnd offset ps
  offset_le_end : offset ≤ layoutEnd offset ps

theorem placedFrom_placeAll (offset : Nat) (ps : List Property) :
    PlacedFrom offset (placeAll offset ps) := by
  induction ps generalizing offset with
  | nil =>
    have hnone {P : Property → Prop} : ∀ p ∈ placeAll offset [], P p := List.forall_mem_nil _
    exact ⟨hnone, hnone, hnone, .nil, hnone, Nat.le_refl _⟩
  | cons p ps ih =>
    have hrest := ih (p.place offset).stop
    have hstart : offset ≤ (p.place offset).offset := le_alignUp offset p.layout_alignment_pos
    have hstop : offset ≤ (p.place offset).stop := Nat.le_trans hstart (Nat.le_add_right _ _)
    have hlayout := p.layout_place offset
    refine ⟨?_, ?_, ?_, ?_, ?_, ?_⟩
    · exact List.forall_mem_cons.2
        ⟨hstart, fun q hq ↦ Nat.le_trans hstop (hrest.offset_le q hq)⟩
    · exact List.forall_mem_cons.2 ⟨hlayout ▸ dvd_alignUp _ _, hrest.dvd⟩
    · exact List.forall_mem_cons.2 ⟨hlayout ▸ rfl, hrest.size⟩
    · exact List.pairwise_cons.2 ⟨hrest.offset_le, hrest.ordered⟩
    · rw [placeAll, layoutEnd_cons]
      exact List.forall_mem_cons.2 ⟨hrest.offset_le_end, hrest.stop_le⟩
    · rw [placeAll, layoutEnd_cons]
      exact Nat.le_trans hstop hrest.offset_le_end

theorem PlacedFrom.fits {offset : Nat} {ps : List Property} (h : PlacedFrom offset ps)
    {p : Property} (hp : p ∈ ps) (hstored : p.ty.layout?.isSome) : p.Fits := by
  obtain ⟨layout, hlayout⟩ := Option.isSome_iff_exists.1 hstored
  have heq : p.layout = layout := by rw [Property.layout, hlayout, Option.getD_some]
  exact ⟨layout, hlayout, heq ▸ h.dvd p hp, heq ▸ h.size p hp⟩

theorem PlacedFrom.apart {offset : Nat} {ps : List Property} (h : PlacedFrom offset ps) :
    ps.Pairwise Property.Apart :=
  h.ordered.imp .inl

/-! ## Functions -/

namespace Function

/-- What the frame of a function has before it is laid out: properties with storage and names of
their own, parameters first, and at most one for what the function returns. -/
structure Framed (f : Function) : Prop where
  stored : ∀ p ∈ f.properties, p.ty.layout?.isSome
  nodup : (f.properties.map (·.name)).Nodup
  parameters : f.parameters <+: f.properties
  returned : ∀ p ∈ f.properties, p.flags.contains PropertyFlags.returnParm →
    p.name = PinName.returnValue

/-- The frame is laid out and measured: the parameters come first. -/
structure LaidOut (f : Function) : Prop where
  parameters : f.parameters <+: f.properties
  fits : ∀ p ∈ f.properties, p.Fits
  apart : f.properties.Pairwise Property.Apart
  stop_le : ∀ p ∈ f.properties, p.stop ≤ f.frameSize
  isParameter_iff : ∀ p ∈ f.properties, p.isParameter ↔ p.stop ≤ f.parmsSize
  numParms : f.numParms = f.parameters.length
  returned_unique : ∀ p ∈ f.parameters, ∀ q ∈ f.parameters,
    p.flags.contains PropertyFlags.returnParm → q.flags.contains PropertyFlags.returnParm → p = q
  returnValueOffset : ∀ offset, f.returnValueOffset = some offset ↔
    ∃ p ∈ f.parameters, p.flags.contains PropertyFlags.returnParm ∧ p.offset = offset

/-- What is laid out of a function. -/
def layoutData (f : Function) : List Property × Nat × Nat × Option Nat × Nat :=
  (f.properties, f.numParms, f.parmsSize, f.returnValueOffset, f.frameSize)

theorem LaidOut.congr {f g : Function} (h : f.LaidOut) (hdata : g.layoutData = f.layoutData) :
    g.LaidOut := by
  cases f
  cases g
  simp only [layoutData, Prod.mk.injEq] at hdata
  obtain ⟨rfl, rfl, rfl, rfl, rfl⟩ := hdata
  exact ⟨h.parameters, h.fits, h.apart, h.stop_le, h.isParameter_iff, h.numParms,
    h.returned_unique, h.returnValueOffset⟩

theorem exists_locals_of_prefix {f : Function} (h : f.parameters <+: f.properties) :
    ∃ locals, f.properties = f.parameters ++ locals ∧ ∀ p ∈ locals, p.isParameter = false := by
  obtain ⟨locals, heq⟩ := h
  refine ⟨locals, heq.symm, fun p hp ↦ ?_⟩
  have hfilter : f.parameters.filter (·.isParameter) ++ locals.filter (·.isParameter) =
      f.parameters ++ [] := by
    rw [← List.filter_append, heq, List.append_nil]
    rfl
  have hfirst : f.parameters.filter (·.isParameter) = f.parameters :=
    List.filter_eq_self.2 fun q hq ↦ (List.mem_filter.1 hq).2
  rw [hfirst] at hfilter
  exact Bool.eq_false_iff.2
    (List.filter_eq_nil_iff.1 (List.append_cancel_left hfilter) p hp)

/-- Laying out puts the locals after the parameters. -/
theorem Framed.link_properties {f : Function} (h : f.Framed) : ∃ locals,
    f.link.properties = f.link.parameters ++ placeAll f.link.parmsSize locals ∧
      f.link.parameters = placeAll 0 f.parameters ∧ ∀ p ∈ locals, p.isParameter = false := by
  obtain ⟨locals, heq, hlocals⟩ := exists_locals_of_prefix h.parameters
  have hplaced : f.link.properties = placeAll 0 f.parameters ++
      placeAll (layoutEnd 0 (placeAll 0 f.parameters)) locals := by
    rw [← placeAll_append, ← heq]
    rfl
  have hfirst : (placeAll 0 f.parameters).filter (·.isParameter) = placeAll 0 f.parameters := by
    refine List.filter_eq_self.2 fun q hq ↦ ?_
    obtain ⟨p, hp, start, rfl⟩ := exists_of_mem_placeAll hq
    exact (List.mem_filter.1 hp).2
  have hsecond (start : Nat) : (placeAll start locals).filter (·.isParameter) = [] := by
    refine List.filter_eq_nil_iff.2 fun q hq ↦ ?_
    obtain ⟨p, hp, start', rfl⟩ := exists_of_mem_placeAll hq
    exact Bool.eq_false_iff.1 (hlocals p hp)
  have hparameters : f.link.parameters = placeAll 0 f.parameters := by
    rw [Function.parameters, hplaced, List.filter_append, hfirst, hsecond, List.append_nil]
  refine ⟨locals, ?_, hparameters, hlocals⟩
  rw [hplaced, hparameters]
  exact congrArg (fun ps ↦ _ ++ placeAll (layoutEnd 0 ps) locals) hparameters.symm

theorem Framed.laidOut_link {f : Function} (h : f.Framed) : f.link.LaidOut := by
  obtain ⟨locals, hproperties, hparameters, hlocals⟩ := h.link_properties
  have hplaced : PlacedFrom 0 f.link.properties := placedFrom_placeAll 0 f.properties
  have hparms : PlacedFrom 0 f.link.parameters := hparameters ▸ placedFrom_placeAll 0 f.parameters
  have hfits : ∀ p ∈ f.link.properties, p.Fits := by
    intro q hq
    obtain ⟨p, hp, start, rfl⟩ := exists_of_mem_placeAll hq
    exact hplaced.fits hq (h.stored p hp)
  have hunique : ∀ p ∈ f.link.parameters, ∀ q ∈ f.link.parameters,
      p.flags.contains PropertyFlags.returnParm → q.flags.contains PropertyFlags.returnParm →
        p = q := by
    have hnames : (f.link.properties.map (·.name)).Nodup := by
      rw [link, map_name_placeAll]
      exact h.nodup
    have hreturned : ∀ p ∈ f.link.properties, p.flags.contains PropertyFlags.returnParm →
        p.name = PinName.returnValue := by
      intro q hq
      obtain ⟨p, hp, start, rfl⟩ := exists_of_mem_placeAll hq
      exact h.returned p hp
    intro p hp q hq hp' hq'
    have hp := (List.mem_filter.1 hp).1
    have hq := (List.mem_filter.1 hq).1
    exact List.inj_on_of_nodup_map hnames hp hq ((hreturned p hp hp').trans (hreturned q hq hq').symm)
  refine ⟨⟨_, hproperties.symm⟩, hfits, hplaced.apart, hplaced.stop_le, fun p hp ↦ ?_, rfl,
    hunique, fun offset ↦ ?_⟩
  · -- a local starts where the parameters end, and has a size
    rcases List.mem_append.1 (hproperties ▸ hp) with hparm | hlocal
    · exact iff_of_true (List.mem_filter.1 hparm).2 (hparms.stop_le p hparm)
    · have hstart := (placedFrom_placeAll f.link.parmsSize locals).offset_le p hlocal
      have hsize := (hfits p hp).size_pos
      obtain ⟨p, hp', start, rfl⟩ := exists_of_mem_placeAll hlocal
      refine iff_of_false (Bool.eq_false_iff.1 (hlocals p hp')) (Nat.not_le.2 ?_)
      exact Nat.lt_of_le_of_lt hstart (Nat.lt_add_of_pos_right hsize)
  · have hlast : f.link.returnValueOffset = ((f.link.parameters.filter
        (·.flags.contains PropertyFlags.returnParm)).getLast?).map (·.offset) := rfl
    rw [hlast, Option.map_eq_some_iff]
    refine ⟨fun ⟨p, hp, hoffset⟩ ↦ ?_, fun ⟨p, hp, hreturn, hoffset⟩ ↦ ?_⟩
    · obtain ⟨hp, hreturn⟩ := List.mem_filter.1 (List.mem_of_getLast? hp)
      exact ⟨p, hp, hreturn, hoffset⟩
    · have hmem : p ∈ f.link.parameters.filter
          (·.flags.contains PropertyFlags.returnParm) := List.mem_filter.2 ⟨hp, hreturn⟩
      obtain ⟨q, hq⟩ := Option.isSome_iff_exists.1
        (List.getLast?_isSome.2 (List.ne_nil_of_mem hmem))
      obtain ⟨hq', hreturn'⟩ := List.mem_filter.1 (List.mem_of_getLast? hq)
      exact ⟨q, hq, hunique q hq' p hp hreturn' hreturn ▸ hoffset⟩

end Function

/-! ## Classes -/

namespace Class

/-- Laying out the class, or an ancestor, again leaves it as it is. -/
def IsLinked (c : Class) : Prop := ∀ k ∈ c.hierarchy,
  k.staticLink.own.properties = k.own.properties ∧
    k.staticLink.own.propertiesSize = k.own.propertiesSize

instance (c : Class) : Decidable c.IsLinked :=
  inferInstanceAs (Decidable (∀ k ∈ c.hierarchy, k.staticLink.own.properties = k.own.properties ∧
    k.staticLink.own.propertiesSize = k.own.propertiesSize))

/-- The properties of the class and its ancestors. -/
def allProperties (c : Class) : List Property := c.hierarchy.flatMap (·.own.properties)

/-- Where the parent ends, if there is one. -/
def parentSize (c : Class) : Nat := (c.superClass.map (·.own.propertiesSize)).getD 0

/-- The class starts where its parent ends, and the bytes of all properties are apart. -/
structure LaidOut (c : Class) : Prop where
  parentSize_le : ∀ p ∈ c.own.properties, c.parentSize ≤ p.offset
  apart : c.allProperties.Pairwise Property.Apart
  stop_le : ∀ p ∈ c.allProperties, p.stop ≤ c.own.propertiesSize

theorem isLinked_iff {c : Class} : c.IsLinked ↔
    (c.staticLink.own.properties = c.own.properties ∧
      c.staticLink.own.propertiesSize = c.own.propertiesSize) ∧
    ∀ parent, c.superClass = some parent → parent.IsLinked := by
  unfold IsLinked
  rw [hierarchy_eq, List.forall_mem_cons]
  refine and_congr_right fun _ ↦ ?_
  cases c.superClass with
  | none => simp
  | some parent => simp

theorem isLinked_congr {c d : Class} (hsuper : d.superClass = c.superClass)
    (hproperties : d.own.properties = c.own.properties)
    (hsize : d.own.propertiesSize = c.own.propertiesSize) (h : c.IsLinked) : d.IsLinked := by
  have hlinked : d.staticLink.own.properties = c.staticLink.own.properties ∧
      d.staticLink.own.propertiesSize = c.staticLink.own.propertiesSize := by
    unfold staticLink
    dsimp only
    rw [hsuper, hproperties]
    exact ⟨rfl, rfl⟩
  rw [isLinked_iff] at h ⊢
  rwa [hlinked.1, hlinked.2, hproperties, hsize, hsuper]

/-- A class that is laid out under ancestors that are. -/
theorem isLinked_staticLink {c : Class}
    (h : ∀ parent, c.superClass = some parent → parent.IsLinked) : c.staticLink.IsLinked := by
  refine isLinked_iff.2 ⟨?_, h⟩
  have hagain : c.staticLink.staticLink.own.properties = c.staticLink.own.properties :=
    placeAll_placeAll _ _
  refine ⟨hagain, ?_⟩
  have hsize : c.staticLink.staticLink.own.propertiesSize =
      layoutEnd c.parentSize c.staticLink.staticLink.own.properties := rfl
  rw [hsize, hagain]
  rfl

theorem IsLinked.placedFrom {c : Class} (h : c.IsLinked) :
    PlacedFrom c.parentSize c.own.properties ∧
      c.own.propertiesSize = layoutEnd c.parentSize c.own.properties := by
  obtain ⟨⟨hproperties, hsize⟩, -⟩ := isLinked_iff.1 h
  have hplaced : PlacedFrom c.parentSize c.staticLink.own.properties :=
    placedFrom_placeAll c.parentSize c.own.properties
  have hend : c.staticLink.own.propertiesSize =
      layoutEnd c.parentSize c.staticLink.own.properties := rfl
  rw [← hsize, hend, hproperties]
  exact ⟨hproperties ▸ hplaced, rfl⟩

theorem LaidOut.of_parent {c : Class} (hlinked : c.IsLinked)
    (hparent : ∀ parent, c.superClass = some parent → parent.LaidOut) : c.LaidOut := by
  obtain ⟨hplaced, hsize⟩ := hlinked.placedFrom
  have hall : c.allProperties =
      c.own.properties ++ ((c.superClass.map allProperties).getD []) := by
    unfold allProperties
    rw [hierarchy_eq, List.flatMap_cons]
    cases c.superClass <;> rfl
  -- what is inherited ends where the class starts
  have hinherited : ((c.superClass.map allProperties).getD []).Pairwise Property.Apart ∧
      ∀ q ∈ (c.superClass.map allProperties).getD [], q.stop ≤ c.parentSize := by
    unfold parentSize
    cases hsuper : c.superClass with
    | none => exact ⟨.nil, List.forall_mem_nil _⟩
    | some parent => exact ⟨(hparent parent hsuper).apart, (hparent parent hsuper).stop_le⟩
  obtain ⟨hapart, hstop⟩ := hinherited
  refine ⟨hplaced.offset_le, ?_, ?_⟩
  · rw [hall]
    refine List.pairwise_append.2 ⟨hplaced.apart, hapart, fun p hp q hq ↦ .inr ?_⟩
    exact Nat.le_trans (hstop q hq) (hplaced.offset_le p hp)
  · rw [hall, hsize]
    exact List.forall_mem_append.2
      ⟨hplaced.stop_le, fun q hq ↦ Nat.le_trans (hstop q hq) hplaced.offset_le_end⟩

theorem IsLinked.laidOut : (c : Class) → c.IsLinked → c.LaidOut
  | ⟨_, none, _⟩, h => .of_parent h fun _ hparent ↦ by cases hparent
  | ⟨_, some parent, _⟩, h => .of_parent h fun _ hparent ↦ by
    cases hparent
    exact laidOut parent ((isLinked_iff.1 h).2 parent rfl)

end Class

/-!
## What shaping keeps

A class is shaped in three ways: a property is linked, a property is described, and what is
aside of its members is settled.  What each of these keeps, all of the shaping keeps.
-/

/-- What is kept by linking a property, by describing one, and by changing what is aside of the
properties and functions. -/
structure ShapeInvariant (P : Class → Prop) : Prop where
  link {c d : Class} {name : String} {ty : PinType} {flags : PropertyFlags} :
    PropertyScope.addVariable c name ty flags = .ok d → P c → P d
  describe {c : Class} (name : String) {f : Property → Property} :
    (∀ p, (f p).name = p.name ∧ (f p).ty = p.ty) → P c → P (c.modifyProperty name f)
  aside {c d : Class} : P c → d.own.properties = c.own.properties →
    d.own.functions = c.own.functions → P d

namespace ShapeInvariant

open ClassState

variable {P : Class → Prop} (hP : ShapeInvariant P)

/-! ### Steps -/

theorem foldl {α : Type} {f : ClassState → α → ClassState}
    (hf : ∀ {s : ClassState} (a : α), P s.cls → P (f s a).cls) (l : List α) {s : ClassState}
    (hs : P s.cls) : P (l.foldl f s).cls :=
  List.foldlRecOn (motive := fun s : ClassState ↦ P s.cls) l f hs fun _ hs a _ ↦ hf a hs

include hP

theorem addProperty {s : ClassState} (what name : String) (ty : PinType) (flags : PropertyFlags)
    (hs : P s.cls) : P (s.addProperty what name ty flags).2.cls := by
  unfold ClassState.addProperty
  split
  · next cls h => exact hP.link h hs
  · exact hs

theorem describeVariable {s : ClassState} (v : VariableDescription) (hs : P s.cls) :
    P (s.describeVariable v).cls := by
  unfold ClassState.describeVariable
  extract_lets s'
  have hdescribed : P s'.cls := hP.describe v.name (fun _ ↦ ⟨rfl, rfl⟩) hs
  split
  · exact hdescribed
  · split
    · extract_lets s''
      have hsame : s''.cls = s'.cls := by
        unfold s''
        split <;> rfl
      exact hP.describe v.name (fun _ ↦ ⟨rfl, rfl⟩) (hsame ▸ hdescribed)
    · exact hdescribed

theorem addVariable {s : ClassState} (v : VariableDescription) (hs : P s.cls) :
    P (s.addVariable v).cls := by
  unfold ClassState.addVariable
  dsimp only
  generalize (if v.repNotifyFunc.isSome then _ else v.flags) = flags
  have hadd := hP.addProperty s!"variable {v.name}" v.name v.ty flags hs
  generalize s.addProperty s!"variable {v.name}" v.name v.ty flags = r at hadd
  obtain ⟨_ | _, s'⟩ := r
  · exact hadd
  · exact hP.describeVariable v hadd

theorem addComponent (suffix : Bool) {s : ClassState} (c : ComponentNode) (hs : P s.cls) :
    P (addComponent suffix s c).cls := by
  unfold ClassState.addComponent
  dsimp only
  generalize PropertyFlags.blueprintVisible ||| PropertyFlags.blueprintReadOnly = flags
  have hadd := hP.addProperty s!"component {c.variableName}" c.variableName
    (.object c.componentClass) flags hs
  generalize s.addProperty s!"component {c.variableName}" c.variableName
    (.object c.componentClass) flags = r at hadd
  obtain ⟨_ | _, s'⟩ := r
  · exact hadd
  · exact hP.aside hadd rfl rfl

/-! ### The whole shape -/

theorem addMembers {s : ClassState} (b : Blueprint) (suffix : Bool) (hs : P s.cls) :
    P (s.addMembers b suffix).cls := by
  have hvariables : P (b.newVariables.reverse.foldl ClassState.addVariable s).cls :=
    foldl hP.addVariable _ hs
  have htimelines : P (s.withVariables b).cls := by
    refine hP.aside (foldl (f := addTimeline) (fun t hs ↦ ?_) b.timelines hvariables) rfl rfl
    exact foldl (fun e hs ↦ hP.addProperty _ e.1 e.2 _ hs) _ hs
  rw [addMembers_eq]
  cases b.constructionScript with
  | none => exact htimelines
  | some script =>
    have hcleared := hP.aside (d := { (s.withVariables b).cls with own.componentTemplates := [] })
      htimelines rfl rfl
    exact hP.aside (foldl (hP.addComponent suffix) script.components
      (s := ⟨_, (s.withVariables b).log⟩) hcleared) rfl rfl

theorem settleFlags {s : ClassState} (b : Blueprint) (hs : P s.cls) :
    P (s.settleFlags b).cls := by
  have hinterface {s : ClassState} (interface : Class) (hs : P s.cls) :
      P (addInterface b s interface).cls := by
    unfold addInterface
    split
    · exact hs
    · split
      · exact hs
      · exact hP.aside hs rfl rfl
  unfold ClassState.settleFlags
  extract_lets parent flags cls own flagged added
  have hflagged : P flagged.cls := hP.aside hs rfl rfl
  exact hP.aside (foldl hinterface _ hflagged : P added.cls) rfl rfl

/-- What shaping keeps, a class has after it if a class without members has it. -/
theorem shaped (hnone : ∀ c : Class, c.own.properties = [] → c.own.functions = [] → P c)
    (b : Blueprint) (suffix : Bool) : P (b.shaped suffix).cls := by
  obtain ⟨-, hfunctions, hproperties⟩ := (b.settleNames .empty).1.freshClass_spec
  have hfresh : P (b.settleNames .empty).1.freshClass.1 := hnone _ hproperties hfunctions
  unfold Blueprint.shaped
  generalize b.settleNames .empty = settled at hfresh
  exact hP.settleFlags _ (hP.addMembers (s := ⟨settled.1.freshClass.1, settled.2⟩) _ suffix hfresh)

/-- Delegates are bound and notifications are checked by describing properties. -/
theorem bound {c : Compilation} (contexts : List FunctionContext) (hc : P c.cls) :
    P ((⟨(contexts.foldl Compilation.bindDelegate c).cls,
      (contexts.foldl Compilation.bindDelegate c).log⟩ : ClassState).checkRepNotifies.cls) := by
  have hbound : P (contexts.foldl Compilation.bindDelegate c).cls := by
    refine List.foldlRecOn (motive := fun c : Compilation ↦ P c.cls) contexts _ hc
      fun c hc ctx _ ↦ ?_
    unfold Compilation.bindDelegate
    split
    · exact hc
    · split
      · exact hP.describe _ (fun _ ↦ ⟨rfl, rfl⟩) hc
      · exact hc
  exact foldl (f := clearRepNotify) (fun e hs ↦ hP.describe e.1 (fun _ ↦ ⟨rfl, rfl⟩) hs) _ hbound

end ShapeInvariant

end VisualScript
