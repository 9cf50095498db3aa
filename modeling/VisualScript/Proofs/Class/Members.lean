import VisualScript.Proofs.Class.Finishing
import VisualScript.Proofs.Names.Outcome

/-!
# Declared members

Each member that a Blueprint declares, and each part of its timelines, is linked into the
class once.  A class refuses a second property of a name.  Settled names are apart from each
other, but the parts of a timeline are named after it when it is too late to settle them:
members all get their properties if these names are apart as well.
-/

namespace VisualScript

/-! ## Members -/

/-- A member of a class: what it is reported as, its name and its type. -/
structure DeclaredMember where
  what : String
  name : String
  ty : PinType
  deriving DecidableEq

namespace DeclaredMember

/-- What is reported for a member of a type without storage. -/
def storageError (m : DeclaredMember) : Message :=
  let e := CompileError.invalidType m.name m.ty.label
  .error s!"Failed to create property for {m.what}: {e.message}" [ClassState.propertyToken m.name]

/-- What is reported for members whose names are apart. -/
def storageErrors (members : List DeclaredMember) : List Message :=
  (members.filter (·.ty.layout?.isNone)).map storageError

def ofVariable (v : VariableDescription) : DeclaredMember := ⟨s!"variable {v.name}", v.name, v.ty⟩

def ofTimeline (t : TimelineTemplate) : List DeclaredMember :=
  (ClassState.timelineMembers t).map fun e ↦ ⟨s!"timeline {t.name}", e.1, e.2⟩

def ofComponent (c : ComponentNode) : DeclaredMember :=
  ⟨s!"component {c.variableName}", c.variableName, .object c.componentClass⟩

end DeclaredMember

/-- The members that a Blueprint gives to its class, in the order in which they are linked. -/
def Blueprint.linkedMembers (b : Blueprint) : List DeclaredMember :=
  b.newVariables.reverse.map .ofVariable ++ b.timelines.flatMap DeclaredMember.ofTimeline ++
    b.components.map .ofComponent

/-- The class has a property of the name and type of the member. -/
def Class.Holds (c : Class) (m : DeclaredMember) : Prop :=
  ∃ p ∈ c.own.properties, p.name = m.name ∧ p.ty = m.ty

instance (c : Class) (m : DeclaredMember) : Decidable (c.Holds m) :=
  inferInstanceAs (Decidable (∃ p ∈ c.own.properties, p.name = m.name ∧ p.ty = m.ty))

/-! ## Linking -/

namespace Class

/-- Properties stay, with their names and types. -/
def KeepsProperties (c d : Class) : Prop :=
  ∀ p ∈ c.own.properties, ∃ q ∈ d.own.properties, q.name = p.name ∧ q.ty = p.ty

namespace KeepsProperties

variable {c d e : Class}

theorem refl (c : Class) : KeepsProperties c c := fun p hp ↦ ⟨p, hp, rfl, rfl⟩

theorem trans (h : KeepsProperties c d) (h' : KeepsProperties d e) : KeepsProperties c e := by
  intro p hp
  obtain ⟨q, hq, hname, hty⟩ := h p hp
  obtain ⟨r, hr, hname', hty'⟩ := h' q hq
  exact ⟨r, hr, hname'.trans hname, hty'.trans hty⟩

theorem holds (h : KeepsProperties c d) {m : DeclaredMember} (hm : c.Holds m) : d.Holds m := by
  obtain ⟨p, hp, hname, hty⟩ := hm
  obtain ⟨q, hq, hname', hty'⟩ := h p hp
  exact ⟨q, hq, hname'.trans hname, hty'.trans hty⟩

theorem modifyProperty (c : Class) (name : String) (f : Property → Property)
    (hf : ∀ p, (f p).name = p.name ∧ (f p).ty = p.ty) :
    KeepsProperties c (c.modifyProperty name f) := by
  intro p hp
  have hkeys := map_modify_of_key f (fun p ↦ (p.name, p.ty))
    (fun p ↦ Prod.ext (hf p).1 (hf p).2) c.own.properties
    (c.own.properties.findIdx (·.name == name))
  have hmem := hkeys.symm ▸ List.mem_map_of_mem (f := fun p : Property ↦ (p.name, p.ty)) hp
  obtain ⟨q, hq, heq⟩ := List.mem_map.1 hmem
  rw [Prod.mk.injEq] at heq
  exact ⟨q, hq, heq⟩

end KeepsProperties

end Class

namespace ClassState

open VisualScript.Class (Adds KeepsProperties)

/-- The class gains these members, and no object gets a source.  If their names are new and differ,
then each of a type with storage has its property, and no more is reported than the types
without. -/
structure Declares (members : List DeclaredMember) (s s' : ClassState) : Prop where
  adds : s.cls.Adds s'.cls (members.map (·.name))
  keeps : s.cls.KeepsProperties s'.cls
  sources : s'.log.sources = s.log.sources
  apart : (members.map (·.name)).Nodup → (∀ m ∈ members, m.name ∉ s.cls.propertyNames) →
    MessageLog.Reports (DeclaredMember.storageErrors members) s.log s'.log ∧
      ∀ m ∈ members, m.ty.layout?.isSome → s'.cls.Holds m

namespace Declares

variable {s s' s'' : ClassState} {members members' : List DeclaredMember}

/-- A change to what the members are described by. -/
theorem of_quiet (hadds : s.cls.Adds s'.cls []) (hkeeps : s.cls.KeepsProperties s'.cls)
    (hlog : MessageLog.Reports [] s.log s'.log) : Declares [] s s' :=
  ⟨hadds, hkeeps, hlog.sources, fun _ _ ↦ ⟨hlog, fun _ hm ↦ absurd hm List.not_mem_nil⟩⟩

theorem refl (s : ClassState) : Declares [] s s := .of_quiet (.refl _ _) (.refl _) (.refl _)

theorem trans (h : Declares members s s') (h' : Declares members' s' s'') :
    Declares (members ++ members') s s'' where
  adds := by
    rw [List.map_append]
    exact h.adds.trans h'.adds
  keeps := h.keeps.trans h'.keeps
  sources := h'.sources.trans h.sources
  apart := by
    intro hnodup hnew
    rw [List.map_append, List.nodup_append'] at hnodup
    obtain ⟨hfirst, hsecond, hdisjoint⟩ := hnodup
    obtain ⟨hnew, hnew'⟩ := List.forall_mem_append.1 hnew
    obtain ⟨hlog, hholds⟩ := h.apart hfirst hnew
    have hfresh : ∀ m ∈ members', m.name ∉ s'.cls.propertyNames := by
      intro m hm hold
      rcases h.adds.property _ hold with hold | hgained
      · exact hnew' m hm hold
      · exact hdisjoint hgained (List.mem_map_of_mem hm)
    obtain ⟨hlog', hholds'⟩ := h'.apart hsecond hfresh
    rw [DeclaredMember.storageErrors, List.filter_append, List.map_append]
    refine ⟨hlog.trans hlog', List.forall_mem_append.2 ⟨fun m hm hstored ↦ ?_, hholds'⟩⟩
    exact h'.keeps.holds (hholds m hm hstored)

theorem foldl {α : Type} {f : ClassState → α → ClassState} {of : α → List DeclaredMember}
    (hf : ∀ s a, Declares (of a) s (f s a)) (l : List α) (s : ClassState) :
    Declares (l.flatMap of) s (l.foldl f s) := by
  induction l generalizing s with
  | nil => exact .refl s
  | cons a l ih =>
    rw [List.flatMap_cons]
    exact (hf s a).trans (ih (f s a))

end Declares

theorem addVariable_of_layout {c : Class} {name : String} {ty : PinType} (flags : PropertyFlags)
    (hstored : ty.layout?.isSome) (hnew : name ∉ c.propertyNames) :
    ∃ p, p.name = name ∧ p.ty = ty ∧ PropertyScope.addVariable c name ty flags =
      .ok { c with own.properties := p :: c.own.properties } := by
  obtain ⟨layout, hlayout⟩ := Option.isSome_iff_exists.1 hstored
  have hfree (p : Property) (hp : p.name = name) :
      c.linkProperty p = .ok { c with own.properties := p :: c.own.properties } := by
    have hnone : ¬(c.findOwnProperty? p.name).isSome := by
      rw [Class.findOwnProperty?_isSome, hp]
      exact hnew
    rw [Class.linkProperty, if_neg hnone]
  unfold PropertyScope.addVariable Property.new
  rw [hlayout]
  refine ⟨_, ?_, ?_, hfree _ ?_⟩ <;> split <;> rfl

theorem addVariable_of_layout_none {c : Class} {name : String} {ty : PinType}
    {flags : PropertyFlags} (h : ty.layout? = none) :
    PropertyScope.addVariable c name ty flags = .error (.invalidType name ty.label) := by
  unfold PropertyScope.addVariable Property.new
  rw [h]
  rfl

theorem declares_addProperty (s : ClassState) (what name : String) (ty : PinType)
    (flags : PropertyFlags) : Declares [⟨what, name, ty⟩] s (s.addProperty what name ty flags).2 where
  adds := s.adds_addProperty what name ty flags
  keeps := by
    unfold addProperty
    split
    · next cls h =>
      obtain ⟨p, -, -, hlink⟩ := exists_link_of_addVariable h
      obtain ⟨-, rfl⟩ := Class.linkProperty_eq_ok hlink
      exact fun q hq ↦ ⟨q, List.mem_cons_of_mem p hq, rfl, rfl⟩
    · exact .refl _
  sources := by
    unfold addProperty
    split <;> rfl
  apart := by
    intro _ hnew
    have hnew := List.forall_mem_singleton.1 hnew
    unfold addProperty
    cases hlayout : ty.layout? with
    | none =>
      rw [addVariable_of_layout_none hlayout]
      have herror : DeclaredMember.storageErrors [⟨what, name, ty⟩] =
          [DeclaredMember.storageError ⟨what, name, ty⟩] := by
        simp [DeclaredMember.storageErrors, hlayout]
      rw [herror]
      refine ⟨.error _ _ _, List.forall_mem_singleton.2 fun hstored ↦ ?_⟩
      rw [hlayout] at hstored
      cases hstored
    | some layout =>
      have hstored : ty.layout?.isSome := Option.isSome_iff_exists.2 ⟨layout, hlayout⟩
      obtain ⟨p, hname, hty, hadd⟩ := addVariable_of_layout flags hstored hnew
      rw [hadd]
      have hquiet : DeclaredMember.storageErrors [⟨what, name, ty⟩] = [] := by
        simp [DeclaredMember.storageErrors, hlayout]
      rw [hquiet]
      exact ⟨.refl _, List.forall_mem_singleton.2 fun _ ↦ ⟨p, List.mem_cons_self, hname, hty⟩⟩

theorem declares_describeVariable (s : ClassState) (v : VariableDescription) :
    Declares [] s (s.describeVariable v) := by
  have hmodify (s : ClassState) (f : Property → Property)
      (hf : ∀ p, (f p).name = p.name ∧ (f p).ty = p.ty) :
      Declares [] s { s with cls := s.cls.modifyProperty v.name f } :=
    .of_quiet (.modifyProperty s.cls v.name f fun p ↦ (hf p).1) (.modifyProperty s.cls v.name f hf)
      (.refl _)
  unfold describeVariable
  extract_lets s'
  have hdescribed : Declares [] s s' := hmodify s _ fun _ ↦ ⟨rfl, rfl⟩
  split
  · exact hdescribed
  · split
    · extract_lets s''
      have hvisible : Declares [] s' s'' := by
        unfold s''
        split
        · exact .refl s'
        · exact .of_quiet (.refl _ _) (.refl _) (.warning _ _ _)
      exact hdescribed.trans (hvisible.trans (hmodify s'' _ fun _ ↦ ⟨rfl, rfl⟩))
    · exact hdescribed

theorem declares_addVariable (s : ClassState) (v : VariableDescription) :
    Declares [.ofVariable v] s (s.addVariable v) := by
  unfold addVariable
  dsimp only
  generalize (if v.repNotifyFunc.isSome then _ else v.flags) = flags
  have hadd := s.declares_addProperty s!"variable {v.name}" v.name v.ty flags
  generalize s.addProperty s!"variable {v.name}" v.name v.ty flags = r at hadd
  obtain ⟨_ | _, s'⟩ := r
  · exact hadd
  · exact hadd.trans (s'.declares_describeVariable v)

theorem declares_addTimeline (s : ClassState) (t : TimelineTemplate) :
    Declares (DeclaredMember.ofTimeline t) s (s.addTimeline t) := by
  rw [DeclaredMember.ofTimeline, List.map_eq_flatMap]
  exact .foldl (fun s e ↦ s.declares_addProperty _ e.1 e.2 _) _ s

theorem declares_addComponent (suffix : Bool) (s : ClassState) (c : ComponentNode) :
    Declares [.ofComponent c] s (addComponent suffix s c) := by
  unfold addComponent
  dsimp only
  generalize PropertyFlags.blueprintVisible ||| PropertyFlags.blueprintReadOnly = flags
  have hadd := s.declares_addProperty s!"component {c.variableName}" c.variableName
    (.object c.componentClass) flags
  generalize s.addProperty s!"component {c.variableName}" c.variableName
    (.object c.componentClass) flags = r at hadd
  obtain ⟨_ | _, s'⟩ := r
  · exact hadd
  · exact hadd.trans (.of_quiet (.of_eq rfl rfl rfl) (.refl _) (.refl _))

theorem declares_addConstructionScript (s : ClassState) (suffix : Bool)
    (script : ConstructionScript) : Declares (script.components.map .ofComponent) s
      (s.addConstructionScript suffix script) := by
  have hcleared : Declares [] s { s with cls := { s.cls with own.componentTemplates := [] } } :=
    .of_quiet (.of_eq rfl rfl rfl) (.refl _) (.refl _)
  have hstored (s : ClassState) :
      Declares [] s { s with cls := { s.cls with own.constructionScript := some script } } :=
    .of_quiet (.of_eq rfl rfl rfl) (.refl _) (.refl _)
  have hadded := Declares.foldl (declares_addComponent suffix) script.components
    { s with cls := { s.cls with own.componentTemplates := [] } }
  have hall := (hcleared.trans hadded).trans (hstored _)
  rw [List.nil_append, List.append_nil, ← List.map_eq_flatMap] at hall
  exact hall

theorem declares_addMembers (s : ClassState) (b : Blueprint) (suffix : Bool) :
    Declares b.linkedMembers s (s.addMembers b suffix) := by
  have hvariables := Declares.foldl declares_addVariable b.newVariables.reverse s
  have htimelines := Declares.foldl declares_addTimeline b.timelines
    (b.newVariables.reverse.foldl addVariable s)
  have hstored (s : ClassState) :
      Declares [] s { s with cls := { s.cls with own.timelines := b.timelines } } :=
    .of_quiet (.of_eq rfl rfl rfl) (.refl _) (.refl _)
  have hmembers := (hvariables.trans htimelines).trans (hstored _)
  rw [← List.map_eq_flatMap, List.append_nil] at hmembers
  rw [addMembers_eq, Blueprint.linkedMembers, Blueprint.components]
  cases b.constructionScript with
  | none => exact hmembers.trans (.refl _)
  | some script => exact hmembers.trans (declares_addConstructionScript _ suffix script)

theorem declares_settleFlags (s : ClassState) (b : Blueprint) :
    Declares [] s (s.settleFlags b) := by
  have hinterface (s : ClassState) (interface : Class) :
      Declares [] s (addInterface b s interface) := by
    refine .of_quiet (adds_addInterface b s interface) ?_ ?_ <;> unfold addInterface
    · split
      · exact .refl _
      · split <;> exact .refl _
    · split
      · exact .warning _ _ _
      · split <;> exact .refl _
  have hinterfaces (s : ClassState) : Declares [] s
      ((b.implementedInterfaces.map (·.interface)).foldl (addInterface b) s) := by
    have hall := Declares.foldl hinterface (b.implementedInterfaces.map (·.interface)) s
    rwa [List.flatMap_eq_nil_iff.2 fun _ _ ↦ rfl] at hall
  unfold settleFlags
  extract_lets parent flags cls own flagged added
  have hflagged : Declares [] s flagged :=
    .of_quiet (.of_eq rfl rfl rfl) (.refl _) (.refl _)
  exact (hflagged.trans (hinterfaces flagged)).trans
    (.of_quiet (.of_eq rfl rfl rfl) (.refl _) (.refl _))

end ClassState

/-- Shaping a class declares the members of the Blueprint. -/
theorem Compilation.declares_shapeClass (c : Compilation) (suffix : Bool) :
    ClassState.Declares c.blueprint.linkedMembers ⟨c.cls, c.log⟩
      ⟨(c.shapeClass suffix).cls, (c.shapeClass suffix).log⟩ := by
  have hmembers := ClassState.declares_addMembers ⟨c.cls, c.log⟩ c.blueprint suffix
  have hshaped := hmembers.trans (ClassState.declares_settleFlags _ c.blueprint)
  rwa [List.append_nil] at hshaped

/-! ## Settled names -/

namespace Naming

open MessageLog (Reports)

theorem reports_settleVariable (s : Naming) (i : Nat) :
    Reports [] s.log (s.settleVariable i).log := by
  unfold settleVariable
  split
  · exact .refl _
  · dsimp only
    split
    · exact .refl _
    · exact .warning _ _ _

theorem reports_settleTimeline (s : Naming) (i : Nat) :
    Reports [] s.log (s.settleTimeline i).log := by
  unfold settleTimeline
  split
  · exact .refl _
  · dsimp only
    split
    · exact .refl _
    · exact .warning _ _ _

theorem reports_settleComponents (s : Naming) : Reports [] s.log s.settleComponents.log := by
  unfold settleComponents
  split
  · exact .refl _
  · exact List.foldlRecOn (motive := fun s' : Naming ↦ Reports [] s.log s'.log) _ _ (.refl _)
      fun s' h _ _ ↦ h.trans (.warning s'.log _ _)

theorem reports_settleFunction (s : Naming) (i : Nat) :
    Reports [] s.log (s.settleFunction i).log := by
  unfold settleFunction
  split
  · exact .refl _
  · dsimp only
    split
    · exact .refl _
    · exact .warning _ _ _

end Naming

namespace Blueprint

/-- Names that change are worth a warning. -/
theorem reports_settleNames (b : Blueprint) (log : MessageLog) :
    MessageLog.Reports [] log (b.settleNames log).2 := by
  have hvariables (s : Naming) (is : List Nat) : MessageLog.Reports [] s.log
      (is.foldl Naming.settleVariable s).log :=
    .foldl Naming.log Naming.reports_settleVariable is s
  have htimelines (s : Naming) (is : List Nat) : MessageLog.Reports [] s.log
      (is.foldl Naming.settleTimeline s).log :=
    .foldl Naming.log Naming.reports_settleTimeline is s
  have hfunctions (s : Naming) : MessageLog.Reports [] s.log s.settleFunctions.log :=
    .foldl Naming.log Naming.reports_settleFunction _
      { s with validator := .ofNames (Naming.propertyNames s.blueprint) }
  have hmembers (s : Naming) : MessageLog.Reports [] s.log s.settleMembers.log :=
    ((hvariables _ _).trans (htimelines _ _)).trans (Naming.reports_settleComponents _)
  exact (hmembers ⟨b, .ofNames b.parentClass.memberNames, log⟩).trans (hfunctions _)

/-- The names of the parts of timelines, which follow from those of the timelines. -/
def partNames (b : Blueprint) : List String :=
  b.timelines.flatMap fun t ↦
    t.directionPropertyName :: t.dataTracks.map fun track ↦ t.trackPropertyName track.1

theorem map_name_linkedMembers_perm (b : Blueprint) :
    (b.linkedMembers.map (·.name)).Perm (ClassState.declaredNames b) := by
  unfold linkedMembers ClassState.declaredNames
  simp only [List.map_append, List.map_map, List.map_flatMap, DeclaredMember.ofTimeline]
  exact (((List.reverse_perm _).map _).append_right _).append_right _

/-- Each timeline gives its own name and those of its parts. -/
theorem declaredNames_perm (b : Blueprint) :
    (ClassState.declaredNames b).Perm (b.declarations.members ++ b.partNames) := by
  have htimelines : (b.timelines.flatMap fun t ↦ (ClassState.timelineMembers t).map (·.1)).Perm
      (b.timelines.map (·.name) ++ b.partNames) := by
    have hparts := List.map_append_flatMap_perm b.timelines TimelineTemplate.name fun t ↦
      t.directionPropertyName :: t.dataTracks.map fun track ↦ t.trackPropertyName track.1
    simpa only [partNames, ClassState.timelineMembers, List.map_cons, List.map_map,
      Function.comp_def] using hparts.symm
  have hcomponents : (b.partNames ++ b.components.map (·.variableName)).Perm
      (b.components.map (·.variableName) ++ b.partNames) := List.perm_append_comm
  have hlast := htimelines.append_right (b.components.map (·.variableName))
  rw [List.append_assoc] at hlast
  have hall := (hlast.trans (hcomponents.append_left _)).append_left (b.newVariables.map (·.name))
  simpa only [ClassState.declaredNames, Declarations.members, declarations, List.append_assoc]
    using hall

theorem declares_shaped (b : Blueprint) (suffix : Bool) :
    ClassState.Declares (b.settleNames .empty).1.linkedMembers
      ⟨(b.settleNames .empty).1.freshClass.1, (b.settleNames .empty).2⟩
      ⟨(b.shaped suffix).cls, (b.shaped suffix).log⟩ := by
  unfold shaped
  generalize b.settleNames .empty = settled
  let c : Compilation := {
    blueprint := { settled.1 with generatedClass := none }
    cls := settled.1.freshClass.1
    log := settled.2 }
  exact c.declares_shapeClass suffix

/-- Settled members are apart from each other, ignoring case.  The names of all linked members
differ exactly if the parts of timelines meet neither each other nor a member; then nothing is
reported but types without storage, and every other member has its property. -/
theorem linkedMembers_of_settled {b : Blueprint} (hends : b.MembersEnd) (suffix : Bool) :
    let b' := (b.settleNames .empty).1
    (b'.declarations.members.map Text.lowercase).Nodup ∧
      ((ClassState.declaredNames b').Nodup ↔
        b'.partNames.Nodup ∧ ∀ name ∈ b'.partNames, name ∉ b'.declarations.members) ∧
      ((ClassState.declaredNames b').Nodup →
        (b.shaped suffix).log.errors =
            (MessageLog.empty.pushAll (DeclaredMember.storageErrors b'.linkedMembers)).errors ∧
          ∀ m ∈ b'.linkedMembers, m.ty.layout?.isSome → (b.shaped suffix).cls.Holds m) := by
  obtain ⟨-, -, -, -, -, -, haccepts⟩ := exists_settled .empty hends
  have hdeclares := b.declares_shaped suffix
  have hrenamed := b.reports_settleNames .empty
  generalize b.settleNames .empty = settled at haccepts hdeclares hrenamed ⊢
  generalize b.shaped suffix = s at hdeclares ⊢
  intro b'
  obtain ⟨hdistinct, -⟩ := NameValidator.accepts_iff.1 haccepts
  refine ⟨hdistinct, ?_, fun hnodup ↦ ?_⟩
  · have hmembers : b'.declarations.members.Nodup := .of_map _ hdistinct
    rw [b'.declaredNames_perm.nodup_iff, List.nodup_append']
    exact ⟨fun ⟨_, hparts, hdisjoint⟩ ↦ ⟨hparts, fun _ hpart hmember ↦ hdisjoint hmember hpart⟩,
      fun ⟨hparts, hapart⟩ ↦ ⟨hmembers, hparts, fun _ hmember hpart ↦ hapart _ hpart hmember⟩⟩
  · have hlinked : (b'.linkedMembers.map (·.name)).Nodup :=
      b'.map_name_linkedMembers_perm.nodup_iff.2 hnodup
    obtain ⟨-, -, hproperties⟩ := b'.freshClass_spec
    have hnew (m : DeclaredMember) : m.name ∉ b'.freshClass.1.propertyNames := by
      rw [Class.propertyNames, hproperties]
      exact List.not_mem_nil
    obtain ⟨hlog, hholds⟩ := hdeclares.apart hlinked fun m _ ↦ hnew m
    have hreported := hrenamed.trans hlog
    rw [List.nil_append] at hreported
    exact ⟨hreported.errors, hholds⟩

/-- A variable, and a timeline with a track.  Both are `T_Speed` if the variable is. -/
def steered (member : String) : Blueprint :=
  { Blueprint.new "Player" (Class.new "Actor" none) with
    newVariables := [.new member .int]
    timelines := [{ TimelineTemplate.new "T" with floatTracks := ["Speed"] }] }

theorem linkedMembers_of_settled_steered :
    let b := steered "Speed"
    let b' := (b.settleNames .empty).1
    b.MembersEnd ∧ (ClassState.declaredNames b').Nodup ∧ (b.shaped false).log.errors = [] ∧
      ∀ m ∈ b'.linkedMembers, m.ty.layout?.isSome → (b.shaped false).cls.Holds m := by
  intro b b'
  have hends : b.MembersEnd := .of_length (by decide +kernel)
  obtain ⟨-, hiff, hshaped⟩ := linkedMembers_of_settled hends false
  have hnodup : (ClassState.declaredNames b').Nodup := hiff.2 (by decide +kernel)
  obtain ⟨herrors, hholds⟩ := hshaped hnodup
  exact ⟨hends, hnodup, herrors.trans (by decide +kernel), hholds⟩

/-- The track has the name of the variable: it is reported, and gets no property. -/
theorem not_nodup_declaredNames_steered :
    let b := steered "T_Speed"
    let b' := (b.settleNames .empty).1
    b.MembersEnd ∧ ¬(ClassState.declaredNames b').Nodup ∧
      (b.shaped false).log.errors.map (·.text) =
        ["Failed to create property for timeline T: " ++
          (CompileError.duplicateField "T_Speed" "Player_C").message] ∧
      ⟨"timeline T", "T_Speed", .float⟩ ∈ b'.linkedMembers ∧
      ¬(b.shaped false).cls.Holds ⟨"timeline T", "T_Speed", .float⟩ := by
  intro b b'
  have hends : b.MembersEnd := .of_length (by decide +kernel)
  exact ⟨hends, by decide +kernel, by decide +kernel, by decide +kernel, by decide +kernel⟩

end Blueprint

end VisualScript
