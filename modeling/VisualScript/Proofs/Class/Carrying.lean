import VisualScript.Compile.Compilation
import VisualScript.Proofs.Class.Extension
import VisualScript.Proofs.Terminals.Properties

/-!
# What a class carries over

A class takes over the timelines, component templates and construction script of the last
one.  Shaping looks at none of them and leaves what the Blueprint declares, so a class that
takes over what it left itself comes out the same.
-/

/-!
## What a Blueprint declares

Shaping a class gives it properties for the members that the Blueprint declares and for
what follows from them, and no functions.
-/

namespace VisualScript

/-! ### Classes that gain properties -/

namespace Class

def propertyNames (c : Class) : List String := c.own.properties.map (·.name)

/-- The class gains at most properties of these names. -/
structure Adds (c d : Class) (new : List String) : Prop where
  superClass : d.superClass = c.superClass
  functions : d.own.functions = c.own.functions
  property : ∀ name ∈ d.propertyNames, name ∈ c.propertyNames ∨ name ∈ new

namespace Adds

variable {c d e : Class} {new new' : List String}

theorem refl (c : Class) (new : List String) : Adds c c new := ⟨rfl, rfl, fun _ h ↦ .inl h⟩

theorem trans (h : Adds c d new) (h' : Adds d e new') : Adds c e (new ++ new') where
  superClass := h'.superClass.trans h.superClass
  functions := h'.functions.trans h.functions
  property name hname := by
    rw [List.mem_append]
    rcases h'.property name hname with hold | hnew
    · exact (h.property name hold).imp_right .inl
    · exact .inr (.inr hnew)

theorem mono (h : Adds c d new) (hsub : ∀ name ∈ new, name ∈ new') : Adds c d new' :=
  ⟨h.superClass, h.functions, fun name hname ↦ (h.property name hname).imp_right (hsub name)⟩

/-- Members of the same names. -/
theorem of_eq (hsuper : d.superClass = c.superClass) (hfunctions : d.own.functions = c.own.functions)
    (hproperties : d.propertyNames = c.propertyNames) : Adds c d [] :=
  ⟨hsuper, hfunctions, fun _ h ↦ .inl (hproperties ▸ h)⟩

theorem of_addVariable {name : String} {ty : PinType} {flags : PropertyFlags}
    (h : PropertyScope.addVariable c name ty flags = .ok d) : Adds c d [name] := by
  obtain ⟨p, rfl, -, hlink⟩ := exists_link_of_addVariable h
  obtain ⟨-, rfl⟩ := linkProperty_eq_ok hlink
  exact ⟨rfl, rfl, fun name hname ↦ (List.mem_cons.1 hname).symm.imp_right List.mem_singleton.2⟩

theorem modifyProperty (c : Class) (name : String) (f : Property → Property)
    (hf : ∀ p, (f p).name = p.name) : Adds c (c.modifyProperty name f) [] :=
  .of_eq rfl rfl (map_modify_of_key f Property.name hf _ _)

end Adds

end Class

/-! ### Shaping -/

namespace ClassState

open VisualScript.Class (Adds)

theorem adds_foldl {α : Type} {f : ClassState → α → ClassState} {names : α → List String}
    (hf : ∀ s a, Adds s.cls (f s a).cls (names a)) (l : List α) (s : ClassState) :
    Adds s.cls (l.foldl f s).cls (l.flatMap names) := by
  induction l generalizing s with
  | nil => exact .refl _ _
  | cons a l ih =>
    rw [List.flatMap_cons]
    exact (hf s a).trans (ih (f s a))

theorem adds_addProperty (s : ClassState) (what name : String) (ty : PinType)
    (flags : PropertyFlags) : Adds s.cls (s.addProperty what name ty flags).2.cls [name] := by
  unfold addProperty
  split
  · next h => exact .of_addVariable h
  · exact .refl _ _

theorem adds_describeVariable (s : ClassState) (v : VariableDescription) :
    Adds s.cls (s.describeVariable v).cls [] := by
  unfold describeVariable
  extract_lets s'
  have hfirst : Adds s.cls s'.cls [] := .modifyProperty _ _ _ fun _ ↦ rfl
  split
  · exact hfirst
  · split
    · extract_lets s''
      have hsame : s''.cls = s'.cls := by
        unfold s''
        split <;> rfl
      refine hfirst.trans (?_ : Adds s'.cls _ [])
      rw [← hsame]
      exact .modifyProperty _ _ _ fun _ ↦ rfl
    · exact hfirst

theorem adds_addVariable (s : ClassState) (v : VariableDescription) :
    Adds s.cls (s.addVariable v).cls [v.name] := by
  unfold addVariable
  dsimp only
  generalize (if v.repNotifyFunc.isSome then _ else v.flags) = flags
  have hadd := s.adds_addProperty s!"variable {v.name}" v.name v.ty flags
  generalize s.addProperty s!"variable {v.name}" v.name v.ty flags = r at hadd
  obtain ⟨_ | _, s'⟩ := r
  · exact hadd
  · exact hadd.trans (s'.adds_describeVariable v)

theorem adds_addTimeline (s : ClassState) (t : TimelineTemplate) :
    Adds s.cls (s.addTimeline t).cls ((timelineMembers t).map (·.1)) := by
  rw [List.map_eq_flatMap]
  exact adds_foldl (fun s e ↦ adds_addProperty s _ e.1 e.2 _) _ s

theorem adds_addComponent (suffix : Bool) (s : ClassState) (c : ComponentNode) :
    Adds s.cls (addComponent suffix s c).cls [c.variableName] := by
  unfold addComponent
  dsimp only
  generalize PropertyFlags.blueprintVisible ||| PropertyFlags.blueprintReadOnly = flags
  have hadd := s.adds_addProperty s!"component {c.variableName}" c.variableName
    (.object c.componentClass) flags
  generalize s.addProperty s!"component {c.variableName}" c.variableName
    (.object c.componentClass) flags = r at hadd
  obtain ⟨_ | _, s'⟩ := r
  · exact hadd
  · exact hadd.trans (.of_eq rfl rfl rfl)

/-- The names of the properties that a Blueprint declares, what follows from timelines
included. -/
def declaredNames (b : Blueprint) : List String :=
  b.newVariables.map (·.name) ++ b.timelines.flatMap (fun t ↦ (timelineMembers t).map (·.1)) ++
    b.components.map (·.variableName)

theorem adds_addConstructionScript (s : ClassState) (suffix : Bool) (script : ConstructionScript) :
    Adds s.cls (s.addConstructionScript suffix script).cls
      (script.components.map (·.variableName)) := by
  have hcomponents := adds_foldl (adds_addComponent suffix) script.components
    { s with cls := { s.cls with own.componentTemplates := [] } }
  rw [List.map_eq_flatMap]
  exact ⟨hcomponents.superClass, hcomponents.functions, hcomponents.property⟩

/-- The class with the variables and timelines of a Blueprint. -/
def withVariables (s : ClassState) (b : Blueprint) : ClassState :=
  let s := b.timelines.foldl addTimeline (b.newVariables.reverse.foldl addVariable s)
  { s with cls := { s.cls with own.timelines := b.timelines } }

theorem addMembers_eq (s : ClassState) (b : Blueprint) (suffix : Bool) :
    s.addMembers b suffix = match b.constructionScript with
      | none => s.withVariables b
      | some script => (s.withVariables b).addConstructionScript suffix script := rfl

theorem adds_withVariables (s : ClassState) (b : Blueprint) :
    Adds s.cls (s.withVariables b).cls (b.newVariables.map (·.name) ++
      b.timelines.flatMap fun t ↦ (timelineMembers t).map (·.1)) := by
  have hvariables := adds_foldl adds_addVariable b.newVariables.reverse s
  have htimelines := adds_foldl adds_addTimeline b.timelines
    (b.newVariables.reverse.foldl addVariable s)
  obtain ⟨hsuper, hfunctions, hproperty⟩ := hvariables.trans htimelines
  refine ⟨hsuper, hfunctions, fun name hname ↦ (hproperty name hname).imp_right fun hnew ↦ ?_⟩
  rw [List.map_eq_flatMap]
  simpa using hnew

theorem adds_addMembers (s : ClassState) (b : Blueprint) (suffix : Bool) :
    Adds s.cls (s.addMembers b suffix).cls (declaredNames b) := by
  rw [addMembers_eq, declaredNames, Blueprint.components]
  cases b.constructionScript with
  | none => exact (s.adds_withVariables b).trans (.refl _ _)
  | some script =>
    exact (s.adds_withVariables b).trans (adds_addConstructionScript _ suffix script)

theorem adds_addInterface (b : Blueprint) (s : ClassState) (interface : Class) :
    Adds s.cls (addInterface b s interface).cls [] := by
  unfold addInterface
  split
  · exact .refl _ _
  · split
    · exact .refl _ _
    · exact .of_eq rfl rfl rfl

theorem adds_settleFlags (s : ClassState) (b : Blueprint) :
    Adds s.cls (s.settleFlags b).cls [] := by
  have hinterfaces (s : ClassState) := adds_foldl (adds_addInterface b)
    (b.implementedInterfaces.map (·.interface)) s
  unfold settleFlags
  extract_lets parent flags cls own flagged added
  have hflags : Adds s.cls flagged.cls [] := .of_eq rfl rfl rfl
  have hadded : Adds flagged.cls added.cls [] :=
    (hinterfaces flagged).mono fun name hname ↦ by simp at hname
  exact (hflags.trans hadded).trans (.of_eq rfl rfl rfl)

end ClassState

/-! ### The shaped class -/

namespace Compilation

theorem adds_shapeClass (c : Compilation) (suffix : Bool) :
    c.cls.Adds (c.shapeClass suffix).cls (ClassState.declaredNames c.blueprint) := by
  have hmembers := ClassState.adds_addMembers ⟨c.cls, c.log⟩ c.blueprint suffix
  exact (hmembers.trans (ClassState.adds_settleFlags _ c.blueprint)).mono fun name hname ↦ by
    simpa using hname

end Compilation

namespace Blueprint

theorem freshClass_spec (b : Blueprint) : b.freshClass.1.superClass = some b.parentClass ∧
    b.freshClass.1.own.functions = [] ∧ b.freshClass.1.own.properties = [] := by
  unfold freshClass
  split <;> exact ⟨rfl, rfl, rfl⟩

end Blueprint

end VisualScript

namespace VisualScript

/-- What a class has beside its members and flags. -/
structure SubObjects where
  timelines : List TimelineTemplate := []
  componentTemplates : List ComponentTemplate := []
  constructionScript : Option ConstructionScript := none

namespace Class

def subObjects (c : Class) : SubObjects :=
  ⟨c.own.timelines, c.own.componentTemplates, c.own.constructionScript⟩

/-- The class with its sub-objects changed. -/
def mapSubObjects (f : SubObjects → SubObjects) (c : Class) : Class :=
  { c with own := { c.own with
    timelines := (f c.subObjects).timelines
    componentTemplates := (f c.subObjects).componentTemplates
    constructionScript := (f c.subObjects).constructionScript } }

/-- The class with these sub-objects. -/
def withSubObjects (c : Class) (o : SubObjects) : Class := c.mapSubObjects fun _ ↦ o

theorem mapSubObjects_id (c : Class) : (c.mapSubObjects fun o ↦ o) = c := by
  cases c
  rfl

theorem addVariable_mapSubObjects (f : SubObjects → SubObjects) (c : Class) (name : String)
    (ty : PinType) (flags : PropertyFlags) :
    PropertyScope.addVariable (c.mapSubObjects f) name ty flags =
      (PropertyScope.addVariable c name ty flags).map (mapSubObjects f) := by
  have hlink (p : Property) : (c.mapSubObjects f).linkProperty p =
      (c.linkProperty p).map (mapSubObjects f) := by
    have hfind : (c.mapSubObjects f).findOwnProperty? p.name = c.findOwnProperty? p.name := rfl
    unfold linkProperty
    rw [hfind]
    split <;> rfl
  unfold PropertyScope.addVariable
  cases Property.new name ty with
  | error e => rfl
  | ok p => exact hlink _

end Class

namespace Class

/-- What a class is around its members. -/
def frame (c : Class) : Option Class × SubObjects := (c.superClass, c.subObjects)

theorem superClass_of_frame {c d : Class} (h : c.frame = d.frame) : c.superClass = d.superClass :=
  congrArg Prod.fst h

theorem subObjects_of_frame {c d : Class} (h : c.frame = d.frame) : c.subObjects = d.subObjects :=
  congrArg Prod.snd h

end Class

/-! ## Shaping beside the sub-objects -/

namespace ClassState

/-- The step leaves the sub-objects aside: to change them first or afterwards is one, whatever was
reported. -/
def LeavesAside (f : SubObjects → SubObjects) (step : ClassState → ClassState) : Prop :=
  ∀ ⦃s t : ClassState⦄, t.cls = s.cls.mapSubObjects f →
    (step t).cls = (step s).cls.mapSubObjects f

namespace LeavesAside

variable {f : SubObjects → SubObjects} {step step' : ClassState → ClassState}

theorem modify {F : Class → Class}
    (hF : ∀ c, F (c.mapSubObjects f) = (F c).mapSubObjects f) :
    LeavesAside f fun s ↦ { s with cls := F s.cls } :=
  fun _ _ h ↦ (congrArg F h).trans (hF _)

theorem comp (h : LeavesAside f step) (h' : LeavesAside f step') :
    LeavesAside f fun s ↦ step' (step s) :=
  fun _ _ hs ↦ h' (h hs)

theorem foldl {α : Type} {step : ClassState → α → ClassState}
    (h : ∀ a, LeavesAside f (step · a)) (l : List α) : LeavesAside f (l.foldl step) := by
  induction l with
  | nil => exact fun _ _ hs ↦ hs
  | cons a l ih => exact (h a).comp ih

/-- What comes out is up to the class. -/
theorem congr (h : LeavesAside (fun o ↦ o) step) {s s' : ClassState} (hs : s'.cls = s.cls) :
    (step s').cls = (step s).cls :=
  (h (hs.trans s.cls.mapSubObjects_id.symm)).trans (Class.mapSubObjects_id _)

end LeavesAside

section Steps

variable (f : SubObjects → SubObjects)

/-- The property is added in both classes or in neither. -/
theorem addProperty_leavesAside (what name : String) (ty : PinType) (flags : PropertyFlags)
    {s s' : ClassState} (h : s'.cls = s.cls.mapSubObjects f) :
    (s'.addProperty what name ty flags).1 = (s.addProperty what name ty flags).1 ∧
      (s'.addProperty what name ty flags).2.cls =
        (s.addProperty what name ty flags).2.cls.mapSubObjects f := by
  unfold addProperty
  rw [h, Class.addVariable_mapSubObjects]
  cases PropertyScope.addVariable s.cls name ty flags with
  | ok cls => exact ⟨rfl, rfl⟩
  | error e => exact ⟨rfl, rfl⟩

theorem describeVariable_leavesAside (v : VariableDescription) :
    LeavesAside f (describeVariable · v) := by
  rintro ⟨cls, log⟩ ⟨_, log'⟩ rfl
  have hfind (g : Property → Property) :
      ((cls.mapSubObjects f).modifyProperty v.name g).findOwnProperty? v.name =
        (cls.modifyProperty v.name g).findOwnProperty? v.name := rfl
  unfold describeVariable
  dsimp only
  rw [hfind]
  split
  · rfl
  · split
    · split <;> rfl
    · rfl

theorem addVariable_leavesAside (v : VariableDescription) : LeavesAside f (addVariable · v) := by
  intro s s' h
  unfold addVariable
  dsimp only
  generalize (if v.repNotifyFunc.isSome then _ else v.flags) = flags
  obtain ⟨hadded, hcls⟩ := addProperty_leavesAside f s!"variable {v.name}" v.name v.ty flags h
  generalize s.addProperty s!"variable {v.name}" v.name v.ty flags = r at hadded hcls
  generalize s'.addProperty s!"variable {v.name}" v.name v.ty flags = r' at hadded hcls
  obtain ⟨_, s⟩ := r
  obtain ⟨added, s'⟩ := r'
  obtain rfl := hadded
  cases added with
  | true => exact describeVariable_leavesAside f v hcls
  | false => exact hcls

theorem addTimeline_leavesAside (t : TimelineTemplate) : LeavesAside f (addTimeline · t) := by
  intro s s' h
  unfold addTimeline
  dsimp only
  generalize (if t.replicated then _ else PropertyFlags.blueprintVisible) = flags
  exact LeavesAside.foldl (fun e _ _ h ↦ (addProperty_leavesAside f _ e.1 e.2 flags h).2)
    (timelineMembers t) h

/-- A component adds its template, so what is left aside must be so beside the templates. -/
theorem addComponent_leavesAside {f : SubObjects → SubObjects}
    (hf : ∀ o template, f { o with componentTemplates := o.componentTemplates ++ [template] } =
      { f o with componentTemplates := (f o).componentTemplates ++ [template] })
    (suffix : Bool) (c : ComponentNode) : LeavesAside f (addComponent suffix · c) := by
  intro s s' h
  unfold addComponent
  dsimp only
  generalize PropertyFlags.blueprintVisible ||| PropertyFlags.blueprintReadOnly = flags
  obtain ⟨hadded, hcls⟩ := addProperty_leavesAside f s!"component {c.variableName}" c.variableName
    (.object c.componentClass) flags h
  generalize s.addProperty s!"component {c.variableName}" c.variableName
    (.object c.componentClass) flags = r at hadded hcls
  generalize s'.addProperty s!"component {c.variableName}" c.variableName
    (.object c.componentClass) flags = r' at hadded hcls
  obtain ⟨_, s⟩ := r
  obtain ⟨added, s'⟩ := r'
  obtain rfl := hadded
  cases added with
  | false => exact hcls
  | true =>
    generalize (if suffix then c.variableName ++ "_GEN_VARIABLE" else c.variableName) = name
    have htemplate := hf s.cls.subObjects ⟨name, c.componentClass⟩
    dsimp only at hcls ⊢
    rw [hcls]
    unfold Class.mapSubObjects
    dsimp only [Class.subObjects] at htemplate ⊢
    rw [htemplate]

theorem addInterface_leavesAside (b : Blueprint) (interface : Class) :
    LeavesAside f (addInterface b · interface) := by
  rintro ⟨cls, log⟩ ⟨_, log'⟩ rfl
  have hinterfaces : (cls.mapSubObjects f).interfaces = cls.interfaces := rfl
  unfold addInterface
  dsimp only
  rw [hinterfaces]
  split
  · rfl
  · split <;> rfl

theorem settleFlags_leavesAside (b : Blueprint) : LeavesAside f (settleFlags · b) := by
  let flags (cls : Class) : ClassFlags := .union [cls.own.flags,
    b.parentClass.own.flags &&& ClassFlags.scriptInherit, ClassFlags.parsed,
    ClassFlags.compiledFromBlueprint, typeFlags b.blueprintType]
  let metadata (cls : Class) : Metadata := b.parentClass.own.metadata.entries.foldl
    (fun m e ↦ if m.contains e.1 then m else m.insert e.1 e.2) cls.own.metadata
  exact ((LeavesAside.modify (F := fun cls ↦ { cls with own.flags := flags cls }) fun _ ↦ rfl).comp
    (.foldl (addInterface_leavesAside f b) (b.implementedInterfaces.map (·.interface)))).comp
      (.modify (F := fun cls ↦
        { cls with own.metadata := hideCategories (metadata cls) b.hideCategories }) fun _ ↦ rfl)

end Steps

/-! ## Members -/

/-- The variables leave the sub-objects aside, and the timelines are those that are declared. -/
theorem withVariables_withSubObjects (b : Blueprint) {s s' : ClassState} {o : SubObjects}
    (h : s'.cls = s.cls.withSubObjects o) : (s'.withVariables b).cls =
      (s.withVariables b).cls.withSubObjects { o with timelines := b.timelines } := by
  have hadded := ((LeavesAside.foldl (addVariable_leavesAside fun _ ↦ o) b.newVariables.reverse).comp
    (.foldl (addTimeline_leavesAside fun _ ↦ o) b.timelines)) h
  exact congrArg (fun cls : Class ↦ { cls with own.timelines := b.timelines }) hadded

/-- A construction script replaces the templates and the last script, whatever they were. -/
theorem addConstructionScript_withSubObjects (suffix : Bool) (script : ConstructionScript)
    {s t : ClassState} {o : SubObjects} (h : t.cls = s.cls.withSubObjects o)
    (htimelines : o.timelines = s.cls.own.timelines) :
    (t.addConstructionScript suffix script).cls = (s.addConstructionScript suffix script).cls := by
  have hcleared : { t.cls with own.componentTemplates := [] } =
      Class.mapSubObjects (fun o' ↦ { o' with constructionScript := o.constructionScript })
        { s.cls with own.componentTemplates := [] } := by
    rw [h, Class.withSubObjects, Class.mapSubObjects, htimelines]
    rfl
  have hcomponents := LeavesAside.foldl (addComponent_leavesAside (fun _ _ ↦ rfl) suffix)
    script.components (s := { s with cls := { s.cls with own.componentTemplates := [] } })
      (t := { t with cls := { t.cls with own.componentTemplates := [] } }) hcleared
  exact congrArg (fun cls : Class ↦ { cls with own.constructionScript := some script }) hcomponents

/-- The class that a Blueprint shapes. -/
def shaped (s : ClassState) (b : Blueprint) (suffix : Bool) : ClassState :=
  (s.addMembers b suffix).settleFlags b

/-- A class that takes over what it left itself is shaped as it was. -/
theorem shaped_withSubObjects (c : Class) (b : Blueprint) (suffix : Bool) (o : SubObjects)
    (log log' : MessageLog) :
    let d := (shaped ⟨c.withSubObjects o, log⟩ b suffix).cls
    (shaped ⟨c.withSubObjects d.subObjects, log'⟩ b suffix).cls = d := by
  have hvariables (o : SubObjects) (log : MessageLog) :
      (withVariables ⟨c.withSubObjects o, log⟩ b).cls =
        (withVariables ⟨c, .empty⟩ b).cls.withSubObjects { o with timelines := b.timelines } :=
    withVariables_withSubObjects b (s := ⟨c, .empty⟩) rfl
  intro d
  cases hscript : b.constructionScript with
  | none =>
    have hshaped (o : SubObjects) (log : MessageLog) :
        (shaped ⟨c.withSubObjects o, log⟩ b suffix).cls =
          (settleFlags (withVariables ⟨c, .empty⟩ b) b).cls.withSubObjects
            { o with timelines := b.timelines } := by
      unfold shaped
      rw [addMembers_eq, hscript]
      exact settleFlags_leavesAside _ b (hvariables o log)
    have hd : d = _ := hshaped o log
    rw [hshaped, hd]
    rfl
  | some script =>
    have hmembers (o : SubObjects) (log : MessageLog) : addMembers ⟨c.withSubObjects o, log⟩ b suffix =
        (withVariables ⟨c.withSubObjects o, log⟩ b).addConstructionScript suffix script := by
      rw [addMembers_eq, hscript]
    have hreplaced := addConstructionScript_withSubObjects suffix script
      (s := withVariables ⟨c.withSubObjects o, log⟩ b)
      (t := withVariables ⟨c.withSubObjects d.subObjects, log'⟩ b)
      (o := { d.subObjects with timelines := b.timelines })
      (by rw [hvariables, hvariables]; rfl) (by rw [hvariables]; rfl)
    rw [← hmembers, ← hmembers] at hreplaced
    exact (settleFlags_leavesAside (fun o ↦ o) b).congr hreplaced

end ClassState

/-!
## Interfaces and timelines of a class

Shaping gives a class the timelines that the Blueprint declares and those of its interfaces that
are interfaces.  Members have nothing to do with either.
-/

/-- What a class implements and plays. -/
def Class.attachments (c : Class) : List Class × List TimelineTemplate :=
  (c.interfaces, c.own.timelines)

namespace ClassState

/-! ### Members -/

theorem attachments_foldl {α : Type} {f : ClassState → α → ClassState}
    (hf : ∀ s a, (f s a).cls.attachments = s.cls.attachments) (l : List α) (s : ClassState) :
    (l.foldl f s).cls.attachments = s.cls.attachments :=
  List.foldlRecOn (motive := fun s' : ClassState ↦ s'.cls.attachments = s.cls.attachments) l f rfl
    fun s' hs a _ ↦ (hf s' a).trans hs

theorem attachments_addProperty (s : ClassState) (what name : String) (ty : PinType)
    (flags : PropertyFlags) :
    (s.addProperty what name ty flags).2.cls.attachments = s.cls.attachments := by
  unfold addProperty
  split
  · next h =>
    obtain ⟨p, -, -, hlink⟩ := exists_link_of_addVariable h
    obtain ⟨-, rfl⟩ := Class.linkProperty_eq_ok hlink
    rfl
  · rfl

theorem attachments_describeVariable (s : ClassState) (v : VariableDescription) :
    (s.describeVariable v).cls.attachments = s.cls.attachments := by
  unfold describeVariable
  dsimp only
  split
  · rfl
  · split
    · split <;> rfl
    · rfl

theorem attachments_addVariable (s : ClassState) (v : VariableDescription) :
    (s.addVariable v).cls.attachments = s.cls.attachments := by
  unfold addVariable
  dsimp only
  generalize (if v.repNotifyFunc.isSome then _ else v.flags) = flags
  have hadd := s.attachments_addProperty s!"variable {v.name}" v.name v.ty flags
  generalize s.addProperty s!"variable {v.name}" v.name v.ty flags = r at hadd
  obtain ⟨_ | _, s'⟩ := r
  · exact hadd
  · exact (s'.attachments_describeVariable v).trans hadd

theorem attachments_addTimeline (s : ClassState) (t : TimelineTemplate) :
    (s.addTimeline t).cls.attachments = s.cls.attachments :=
  attachments_foldl (fun s (e : String × PinType) ↦ s.attachments_addProperty _ e.1 e.2 _)
    (timelineMembers t) s

theorem attachments_addComponent (suffix : Bool) (s : ClassState) (c : ComponentNode) :
    (addComponent suffix s c).cls.attachments = s.cls.attachments := by
  unfold addComponent
  dsimp only
  generalize PropertyFlags.blueprintVisible ||| PropertyFlags.blueprintReadOnly = flags
  have hadd := s.attachments_addProperty s!"component {c.variableName}" c.variableName
    (.object c.componentClass) flags
  generalize s.addProperty s!"component {c.variableName}" c.variableName
    (.object c.componentClass) flags = r at hadd
  obtain ⟨_ | _, s'⟩ := r <;> exact hadd

/-- The timelines are those that the Blueprint declares. -/
theorem attachments_addMembers (s : ClassState) (b : Blueprint) (suffix : Bool) :
    (s.addMembers b suffix).cls.attachments = (s.cls.interfaces, b.timelines) := by
  have hmembers := (attachments_foldl attachments_addTimeline b.timelines _).trans
    (attachments_foldl attachments_addVariable b.newVariables.reverse s)
  have hvariables : (s.withVariables b).cls.attachments = (s.cls.interfaces, b.timelines) :=
    congrArg (fun a : List Class × List TimelineTemplate ↦ (a.1, b.timelines)) hmembers
  rw [addMembers_eq]
  split
  · exact hvariables
  · exact (attachments_foldl (attachments_addComponent suffix) _ _).trans hvariables

/-! ### Interfaces -/

/-- Nothing but interfaces of the Blueprint is added, and the timelines stay. -/
theorem attachments_addInterfaces (b : Blueprint) (l : List Class) (s : ClassState) :
    (l.foldl (addInterface b) s).cls.interfaces ⊆ s.cls.interfaces ++ l ∧
      (l.foldl (addInterface b) s).cls.own.timelines = s.cls.own.timelines := by
  induction l generalizing s with
  | nil => exact ⟨List.subset_append_left _ _, rfl⟩
  | cons i l ih =>
    obtain ⟨hinterfaces, htimelines⟩ := ih (addInterface b s i)
    have hadd : (addInterface b s i).cls.interfaces ⊆ s.cls.interfaces ++ [i] ∧
        (addInterface b s i).cls.own.timelines = s.cls.own.timelines := by
      unfold addInterface
      split
      · exact ⟨List.subset_append_left _ _, rfl⟩
      · split
        · exact ⟨List.subset_append_left _ _, rfl⟩
        · exact ⟨List.Subset.refl _, rfl⟩
    refine ⟨fun c hc ↦ ?_, htimelines.trans hadd.2⟩
    rw [List.append_cons]
    refine (List.mem_append.1 (hinterfaces hc)).elim (fun hc ↦ ?_) (List.mem_append_right _)
    exact List.mem_append_left _ (hadd.1 hc)

/-- A shaped class has the timelines of the Blueprint and no interfaces beside its own. -/
theorem attachments_shaped (s : ClassState) (b : Blueprint) (suffix : Bool) :
    (shaped s b suffix).cls.interfaces ⊆
        s.cls.interfaces ++ b.implementedInterfaces.map (·.interface) ∧
      (shaped s b suffix).cls.own.timelines = b.timelines := by
  have hmembers := s.attachments_addMembers b suffix
  unfold shaped settleFlags
  generalize s.addMembers b suffix = s' at hmembers
  obtain ⟨hinterfaces, htimelines⟩ :
      s'.cls.interfaces = s.cls.interfaces ∧ s'.cls.own.timelines = b.timelines :=
    Prod.ext_iff.1 hmembers
  extract_lets parent flags cls own flagged added
  obtain ⟨hadded, hkept⟩ :=
    attachments_addInterfaces b (b.implementedInterfaces.map (·.interface)) flagged
  exact ⟨hinterfaces ▸ hadded, hkept.trans htimelines⟩

end ClassState

end VisualScript
