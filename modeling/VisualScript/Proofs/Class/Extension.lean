import VisualScript.Class.Basic
import VisualScript.Compile.Properties

/-!
# Classes that grow

While a class is compiled it gains members and never loses one: every property
and function that it had is still found under its name, and functions keep the
properties of their frames.
-/

namespace VisualScript

namespace Function

/-- Every property of the frame is still there. -/
def Extends (f g : Function) : Prop :=
  g.name = f.name ∧ ∀ name, (f.findProperty? name).isSome → (g.findProperty? name).isSome

theorem Extends.refl (f : Function) : f.Extends f := ⟨rfl, fun _ h ↦ h⟩

theorem Extends.trans {f g h : Function} (hfg : f.Extends g) (hgh : g.Extends h) : f.Extends h :=
  ⟨hgh.1.trans hfg.1, fun name hf ↦ hgh.2 name (hfg.2 name hf)⟩

theorem findProperty?_isSome {f : Function} {name : String} :
    (f.findProperty? name).isSome ↔ name ∈ f.properties.map (·.name) := by
  simp [findProperty?, List.mem_map]

/-- Functions whose frames have properties of the same names extend each other. -/
theorem extends_of_names {f g : Function} (hname : g.name = f.name)
    (h : g.properties.map (·.name) = f.properties.map (·.name)) : f.Extends g := by
  refine ⟨hname, fun name hf ↦ ?_⟩
  rwa [findProperty?_isSome, h, ← findProperty?_isSome]

end Function

namespace Class

/-! ## Looking up -/

theorem findProperty?_eq (c : Class) (name : String) :
    c.findProperty? name =
      (c.findOwnProperty? name).or (c.superClass.bind (·.findProperty? name)) := by
  obtain ⟨own, superClass, interfaces⟩ := c
  cases superClass <;>
    simp [findProperty?, hierarchy, List.findSome?_cons] <;>
    split <;> simp_all

theorem findOwnProperty?_isSome {c : Class} {name : String} :
    (c.findOwnProperty? name).isSome ↔ name ∈ c.own.properties.map (·.name) := by
  simp [findOwnProperty?, List.mem_map]

theorem findProperty?_isSome_of_own {c : Class} {name : String}
    (h : (c.findOwnProperty? name).isSome) : (c.findProperty? name).isSome := by
  rw [findProperty?_eq, Option.isSome_or, h, Bool.true_or]

theorem name_of_findOwnFunction? {c : Class} {name : String} {f : Function}
    (h : c.findOwnFunction? name = some f) : f.name = name := by
  simpa using List.find?_some h

/-! ## Growing -/

/-- Every member is still there. -/
structure Extends (c d : Class) : Prop where
  superClass : d.superClass = c.superClass
  property (name : String) :
    (c.findOwnProperty? name).isSome → (d.findOwnProperty? name).isSome
  function (name : String) (f : Function) : c.findOwnFunction? name = some f →
    ∃ g, d.findOwnFunction? name = some g ∧ f.Extends g

namespace Extends

theorem refl (c : Class) : c.Extends c := ⟨rfl, fun _ h ↦ h, fun _ f h ↦ ⟨f, h, .refl f⟩⟩

theorem trans {c d e : Class} (hcd : c.Extends d) (hde : d.Extends e) : c.Extends e where
  superClass := hde.superClass.trans hcd.superClass
  property name h := hde.property name (hcd.property name h)
  function name f h := by
    obtain ⟨g, hg, hfg⟩ := hcd.function name f h
    obtain ⟨g', hg', hgg'⟩ := hde.function name g hg
    exact ⟨g', hg', hfg.trans hgg'⟩

theorem findProperty? {c d : Class} (h : c.Extends d) {name : String}
    (hc : (c.findProperty? name).isSome) : (d.findProperty? name).isSome := by
  rw [findProperty?_eq, Option.isSome_or, Bool.or_eq_true] at hc ⊢
  rw [h.superClass]
  exact hc.imp_left (h.property name)

/-- Only what declares no members changes. -/
theorem of_members {c d : Class} (hsuper : d.superClass = c.superClass)
    (hproperties : d.own.properties.map (·.name) = c.own.properties.map (·.name))
    (hfunctions : d.own.functions = c.own.functions) : c.Extends d where
  superClass := hsuper
  property name h := by rwa [findOwnProperty?_isSome, hproperties, ← findOwnProperty?_isSome]
  function name f h := ⟨f, by rwa [findOwnFunction?, hfunctions], .refl f⟩

end Extends

theorem linkProperty_eq_ok {c d : Class} {p : Property} (h : c.linkProperty p = .ok d) :
    p.name ∉ c.own.properties.map (·.name) ∧
      d = { c with own.properties := p :: c.own.properties } := by
  unfold linkProperty at h
  split at h
  · cases h
  · next hnew => exact ⟨fun hmem ↦ hnew (findOwnProperty?_isSome.2 hmem), (Except.ok.inj h).symm⟩

theorem extends_linkProperty {c d : Class} {p : Property} (h : c.linkProperty p = .ok d) :
    c.Extends d := by
  obtain ⟨-, rfl⟩ := linkProperty_eq_ok h
  refine ⟨rfl, fun name hname ↦ ?_, fun name f hf ↦ ⟨f, hf, .refl f⟩⟩
  rw [findOwnProperty?_isSome] at hname ⊢
  exact List.mem_cons_of_mem _ hname

theorem addFunction_eq_ok {c d : Class} {f : Function} (h : c.addFunction f = .ok d) :
    c.findOwnFunction? f.name = none ∧
      d = { c with own.functions := c.own.functions ++ [f] } := by
  unfold addFunction at h
  split at h
  · cases h
  · next hnew => exact ⟨by simpa using hnew, (Except.ok.inj h).symm⟩

theorem findOwnFunction?_addFunction {c d : Class} {f : Function} (h : c.addFunction f = .ok d)
    (name : String) :
    d.findOwnFunction? name = if name = f.name then some f else c.findOwnFunction? name := by
  obtain ⟨hnew, rfl⟩ := addFunction_eq_ok h
  simp only [findOwnFunction?, List.find?_append] at hnew ⊢
  split
  · next heq => simp [heq, hnew]
  · next hne => simp [beq_eq_false_iff_ne.2 (Ne.symm hne)]

theorem extends_addFunction {c d : Class} {f : Function} (h : c.addFunction f = .ok d) :
    c.Extends d := by
  have hfind := findOwnFunction?_addFunction h
  obtain ⟨hnew, rfl⟩ := addFunction_eq_ok h
  refine ⟨rfl, fun name hname ↦ hname, fun name g hg ↦ ⟨g, ?_, .refl g⟩⟩
  rw [hfind, if_neg, hg]
  rintro rfl
  rw [hnew] at hg
  cases hg

/-! ## Changing members in place -/

section Modify

variable {α : Type} (key : α → String) (f : α → α)

/-- Changing the first element of a name changes what is found under that name only. -/
theorem find?_modify_findIdx {name : String} (hf : ∀ a, key a = name → key (f a) = name)
    (l : List α) (k : String) :
    (l.modify (l.findIdx (key · == name)) f).find? (key · == k) =
      if k = name then (l.find? (key · == name)).map f else l.find? (key · == k) := by
  induction l with
  | nil => simp
  | cons a l ih =>
    rw [List.findIdx_cons]
    by_cases ha : key a = name
    · by_cases hk : k = name
      · simp [ha, hk, hf a ha]
      · simp [ha, hf a ha, hk, beq_eq_false_iff_ne.2 (Ne.symm hk)]
    · simp only [beq_eq_false_iff_ne.2 ha, cond_false, List.modify_succ_cons, List.find?_cons]
      by_cases hk : k = name
      · simpa [hk, beq_eq_false_iff_ne.2 ha] using ih
      · rw [ih]
        simp [hk]

theorem map_modify_of_key {β : Type} (key : α → β) (hf : ∀ a, key (f a) = key a) (l : List α)
    (i : Nat) : (l.modify i f).map key = l.map key := by
  induction l generalizing i with
  | nil => simp
  | cons a l ih =>
    cases i with
    | zero => simp [hf]
    | succ i => simp [ih]

end Modify

theorem findOwnFunction?_modifyFunction (c : Class) {name : String} {f : Function → Function}
    (hf : ∀ g, g.name = name → (f g).name = name) (k : String) :
    (c.modifyFunction name f).findOwnFunction? k =
      if k = name then (c.findOwnFunction? name).map f else c.findOwnFunction? k :=
  find?_modify_findIdx Function.name f hf c.own.functions k

theorem extends_modifyFunction {c : Class} {name : String} {f : Function → Function}
    (hf : ∀ g, g.name = name → (f g).name = name)
    (hext : ∀ g, c.findOwnFunction? name = some g → g.Extends (f g)) :
    c.Extends (c.modifyFunction name f) := by
  refine ⟨rfl, fun _ h ↦ h, fun k g hg ↦ ?_⟩
  rw [findOwnFunction?_modifyFunction c hf]
  split
  · next hk => exact ⟨f g, by rw [← hk, hg]; rfl, hext g (hk ▸ hg)⟩
  · exact ⟨g, hg, .refl g⟩

theorem extends_modifyProperty (c : Class) (name : String) {f : Property → Property}
    (hf : ∀ p, (f p).name = p.name) : c.Extends (c.modifyProperty name f) :=
  .of_members rfl (map_modify_of_key f Property.name hf _ _) rfl

end Class

theorem map_name_placeAll (offset : Nat) (ps : List Property) :
    (placeAll offset ps).map (·.name) = ps.map (·.name) := by
  induction ps generalizing offset with
  | nil => rfl
  | cons p ps ih => simp [placeAll, ih, Property.place]

theorem Class.extends_staticLink (c : Class) : c.Extends c.staticLink :=
  .of_members rfl (map_name_placeAll _ _) rfl

theorem Function.extends_link (f : Function) : f.Extends f.link :=
  extends_of_names rfl (map_name_placeAll _ _)

/-!
## Classes that leave a function alone

What is done to a class for one function leaves the functions of other names as they
are, and so the functions that they override.
-/

namespace Class

/-! ### What a function overrides -/

theorem hierarchy_eq (c : Class) : c.hierarchy = c :: (c.superClass.map hierarchy).getD [] := by
  obtain ⟨own, superClass, interfaces⟩ := c
  cases superClass <;> rfl

/-- What is overridden is up to the ancestors and the interfaces. -/
theorem findOverridden?_congr {c d : Class} (hsuper : d.superClass = c.superClass)
    (hinterfaces : d.interfaces = c.interfaces) (name : String) :
    d.findOverridden? name = c.findOverridden? name := by
  unfold findOverridden? findInterfaceFunction?
  rw [hierarchy_eq, hierarchy_eq, List.flatMap_cons, List.flatMap_cons, hsuper, hinterfaces]

/-! ### Kin -/

/-- The classes have the same name, ancestors and interfaces. -/
structure SameKin (c d : Class) : Prop where
  name : d.name = c.name
  superClass : d.superClass = c.superClass
  interfaces : d.interfaces = c.interfaces

namespace SameKin

variable {c d e : Class}

theorem refl (c : Class) : SameKin c c := ⟨rfl, rfl, rfl⟩

theorem symm (h : SameKin c d) : SameKin d c :=
  ⟨h.name.symm, h.superClass.symm, h.interfaces.symm⟩

theorem trans (h : SameKin c d) (h' : SameKin d e) : SameKin c e :=
  ⟨h'.name.trans h.name, h'.superClass.trans h.superClass, h'.interfaces.trans h.interfaces⟩

theorem isChildOf (h : SameKin c d) (name : String) : d.isChildOf name = c.isChildOf name := by
  rw [Class.isChildOf, Class.isChildOf, hierarchy_eq, hierarchy_eq c, List.any_cons, List.any_cons,
    h.name, h.superClass]

theorem implementsInterface (h : SameKin c d) (name : String) :
    d.implementsInterface name = c.implementsInterface name := by
  rw [Class.implementsInterface, Class.implementsInterface, hierarchy_eq, hierarchy_eq c,
    List.any_cons, List.any_cons, h.interfaces, h.superClass]

end SameKin

/-! ### Leaving functions alone -/

/-- The functions of these names, and what functions override, are the same. -/
structure Spares (names : String → Prop) (c d : Class) : Prop extends SameKin c d where
  function {name : String} : names name → d.findOwnFunction? name = c.findOwnFunction? name

namespace Spares

variable {names names' : String → Prop} {c d e : Class}

theorem refl (names : String → Prop) (c : Class) : Spares names c c := ⟨.refl c, fun _ ↦ rfl⟩

theorem trans (h : Spares names c d) (h' : Spares names d e) : Spares names c e :=
  ⟨h.toSameKin.trans h'.toSameKin, fun hname ↦ (h'.function hname).trans (h.function hname)⟩

theorem mono (h : Spares names c d) (hsub : ∀ name, names' name → names name) :
    Spares names' c d :=
  ⟨h.toSameKin, fun hname ↦ h.function (hsub _ hname)⟩

theorem findOverridden? (h : Spares names c d) (name : String) :
    d.findOverridden? name = c.findOverridden? name :=
  findOverridden?_congr h.superClass h.interfaces name

/-- Where functions stay, those of all names do. -/
theorem of_functions (hfunctions : d.own.functions = c.own.functions) (hkin : SameKin c d) :
    Spares names c d :=
  ⟨hkin, fun _ ↦ by rw [findOwnFunction?, hfunctions, findOwnFunction?]⟩

end Spares

variable {c d : Class}

theorem spares_linkProperty {names : String → Prop} {p : Property} (h : c.linkProperty p = .ok d) :
    Spares names c d := by
  obtain ⟨-, rfl⟩ := linkProperty_eq_ok h
  exact .of_functions rfl ⟨rfl, rfl, rfl⟩

theorem spares_addFunction {f : Function} (h : c.addFunction f = .ok d) :
    Spares (· ≠ f.name) c d := by
  have hfind := findOwnFunction?_addFunction h
  obtain ⟨-, rfl⟩ := addFunction_eq_ok h
  exact ⟨⟨rfl, rfl, rfl⟩, fun hne ↦ (hfind _).trans (if_neg hne)⟩

theorem spares_modifyFunction (c : Class) {name : String} {f : Function → Function}
    (hf : ∀ g, g.name = name → (f g).name = name) :
    Spares (· ≠ name) c (c.modifyFunction name f) :=
  ⟨⟨rfl, rfl, rfl⟩, fun hne ↦ (findOwnFunction?_modifyFunction c hf _).trans (if_neg hne)⟩

end Class

end VisualScript
