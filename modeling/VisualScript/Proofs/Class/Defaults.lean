import VisualScript.Proofs.Class.Finishing
import VisualScript.Proofs.Graph.Fragment

/-!
# Default objects made from themselves

The values of a default object that still fit are kept for the next one.  A class whose
members stay makes the same default object from its last one, whether the declared
values count more or less than those that are kept.
-/

namespace VisualScript

/-! ## Tables -/

namespace Assoc

variable {κ ν : Type} [DecidableEq κ] {table entries : List (κ × ν)}

/-- A key that the table does not have comes last. -/
theorem map_fst_set (key : κ) (value : ν) (table : List (κ × ν)) :
    (set key value table).map (·.1) =
      if key ∈ table.map (·.1) then table.map (·.1) else table.map (·.1) ++ [key] := by
  induction table with
  | nil => rfl
  | cons e rest ih =>
    rw [set]
    by_cases he : e.1 = key
    · simp [he]
    · by_cases hkey : key ∈ rest.map (·.1) <;> simp [he, hkey, ih, Ne.symm he]

theorem mem_map_fst_set {key k : κ} {value : ν} :
    k ∈ (set key value table).map (·.1) ↔ k = key ∨ k ∈ table.map (·.1) := by
  rw [map_fst_set]
  split
  · next h => exact ⟨.inr, fun hk ↦ hk.elim (· ▸ h) id⟩
  · rw [List.mem_append, List.mem_singleton, or_comm]

theorem mem_map_fst_setAll {k : κ} :
    k ∈ (setAll table entries).map (·.1) ↔ k ∈ entries.map (·.1) ∨ k ∈ table.map (·.1) := by
  induction entries generalizing table with
  | nil => simp [setAll]
  | cons e rest ih =>
    have hstep : setAll table (e :: rest) = setAll (set e.1 e.2 table) rest := rfl
    rw [hstep, ih, mem_map_fst_set, List.map_cons, List.mem_cons]
    tauto

theorem nodup_setAll (h : (table.map (·.1)).Nodup) (entries : List (κ × ν)) :
    ((setAll table entries).map (·.1)).Nodup := by
  induction entries generalizing table with
  | nil => exact h
  | cons e rest ih =>
    refine ih (?_ : ((set e.1 e.2 table).map (·.1)).Nodup)
    rw [map_fst_set]
    split
    · exact h
    · next hnew =>
      exact List.nodup_append.2 ⟨h, List.nodup_singleton _, fun k hk k' hk' heq ↦
        hnew (List.mem_singleton.1 hk' ▸ heq ▸ hk)⟩

/-- Entries for keys of the table leave the keys as they are. -/
theorem map_fst_setAll (h : ∀ e ∈ entries, e.1 ∈ table.map (·.1)) :
    (setAll table entries).map (·.1) = table.map (·.1) := by
  induction entries generalizing table with
  | nil => rfl
  | cons e rest ih =>
    obtain ⟨hfirst, hrest⟩ := List.forall_mem_cons.1 h
    have hkeys : (set e.1 e.2 table).map (·.1) = table.map (·.1) := by
      rw [map_fst_set, if_pos hfirst]
    have hstep : setAll table (e :: rest) = setAll (set e.1 e.2 table) rest := rfl
    rw [hstep, ih (fun e' he' ↦ hkeys ▸ hrest e' he'), hkeys]

theorem lookup_eq_none_of_notMem {k : κ} (h : k ∉ table.map (·.1)) : table.lookup k = none :=
  Option.eq_none_iff_forall_ne_some.2 fun _ hk ↦ h (List.mem_map_of_mem (mem_of_lookup hk))

/-- Tables with the same keys, each of them once, are the same if they hold the same. -/
theorem ext_of_lookup {l l' : List (κ × ν)} (hkeys : l'.map (·.1) = l.map (·.1))
    (hnodup : (l.map (·.1)).Nodup) (h : ∀ k, l'.lookup k = l.lookup k) : l' = l := by
  induction l generalizing l' with
  | nil => exact List.map_eq_nil_iff.1 hkeys
  | cons e rest ih =>
    obtain ⟨e', rest', rfl, hkey, hrest⟩ := List.map_eq_cons_iff.1 hkeys
    obtain ⟨hfirst, hnodup⟩ := List.nodup_cons.1 hnodup
    simp only [lookup_cons_ite, hkey] at h
    have hvalue : e'.2 = e.2 := Option.some.inj (by simpa using h e.1)
    have hsame : rest' = rest := ih hrest hnodup fun k ↦ by
      by_cases hk : k = e.1
      · rw [lookup_eq_none_of_notMem (hk ▸ hrest ▸ hfirst), lookup_eq_none_of_notMem (hk ▸ hfirst)]
      · simpa [hk] using h k
    rw [hsame, Prod.ext hkey hvalue]

/-- A table that was made by setting entries is made again from those of its own that fit, if all
that were set first fit. -/
theorem setAll_setAll_filter {kept declared : List (κ × ν)} {fits : κ × ν → Bool}
    (hnodup : (table.map (·.1)).Nodup) (hkept : ∀ e ∈ kept, e.1 ∈ table.map (·.1) ∧ fits e = true)
    (hdeclared : ∀ e ∈ declared, e.1 ∈ table.map (·.1)) :
    let made := setAll (setAll table kept) declared
    setAll (setAll table (made.filter fits)) declared = made := by
  intro made
  have hfirst : (setAll table kept).map (·.1) = table.map (·.1) :=
    map_fst_setAll fun e he ↦ (hkept e he).1
  have hmade : made.map (·.1) = table.map (·.1) :=
    (map_fst_setAll fun e he ↦ hfirst ▸ hdeclared e he).trans hfirst
  have hagain : (setAll table (made.filter fits)).map (·.1) = table.map (·.1) :=
    map_fst_setAll fun e he ↦ hmade ▸ List.mem_map_of_mem (List.mem_filter.1 he).1
  have honce : (made.map (·.1)).Nodup := hmade ▸ hnodup
  have hfitting : ((made.filter fits).map (·.1)).Nodup :=
    honce.sublist (List.filter_sublist.map _)
  refine ext_of_lookup ?_ honce fun k ↦ ?_
  · rw [hmade, ← hagain]
    exact map_fst_setAll fun e he ↦ hagain ▸ hdeclared e he
  · have hlookup : made.lookup k =
        (declared.reverse.lookup k).or ((setAll table kept).lookup k) := lookup_setAll_reverse _ _ k
    rw [lookup_setAll_reverse, hlookup]
    cases hk : declared.reverse.lookup k with
    | some value => rfl
    | none =>
      rw [hk, Option.none_or] at hlookup
      rw [Option.none_or, Option.none_or, lookup_setAll hfitting, ← hlookup]
      have hbefore := lookup_setAll_reverse table kept k
      rw [hbefore] at hlookup
      -- a value that fits was kept, and one that does not was in the table from the start
      by_cases hfits : ∃ value, (k, value) ∈ made ∧ fits (k, value) = true
      · obtain ⟨value, hmem, hfits⟩ := hfits
        rw [lookup_of_mem hfitting (List.mem_filter.2 ⟨hmem, hfits⟩), lookup_of_mem honce hmem]
        rfl
      · have hnone : (made.filter fits).lookup k = none := by
          refine Option.eq_none_iff_forall_ne_some.2 fun value hvalue ↦ hfits ⟨value, ?_⟩
          exact List.mem_filter.1 (mem_of_lookup hvalue)
        have hnew : kept.reverse.lookup k = none := by
          refine Option.eq_none_iff_forall_ne_some.2 fun value hvalue ↦ hfits ⟨value, ?_, ?_⟩
          · rw [hvalue] at hlookup
            exact mem_of_lookup hlookup
          · exact (hkept _ (List.mem_reverse.1 (mem_of_lookup hvalue))).2
        rw [hnew, Option.none_or] at hlookup
        rw [hnone, Option.none_or, hlookup]

end Assoc

/-! ## Default objects -/

namespace ClassState

variable (c : Class)

/-- Every own property has a zero value. -/
theorem mem_zeroDefaults {name : String} (h : (c.findOwnProperty? name).isSome) :
    name ∈ (zeroDefaults c).values.map (·.1) := by
  have hname := Class.findOwnProperty?_isSome.1 h
  refine Assoc.mem_map_fst_setAll.2 (.inr (Assoc.mem_map_fst_setAll.2 (.inl ?_)))
  rw [List.map_map, List.map_reverse, List.mem_reverse]
  exact hname

theorem nodup_zeroDefaults : ((zeroDefaults c).values.map (·.1)).Nodup :=
  have hnone : (([] : List (String × Value)).map (·.1)).Nodup := .nil
  Assoc.nodup_setAll (Assoc.nodup_setAll hnone _) _

variable {c}

/-- A value that is kept is one of an own property. -/
theorem findOwnProperty?_of_fitting {old : Option DefaultObject} {e : String × Value}
    (he : e ∈ fittingValues c old) : (c.findOwnProperty? e.1).isSome := by
  have hfits := (List.mem_filter.1 he).2
  cases hp : c.findOwnProperty? e.1 with
  | none =>
    rw [hp] at hfits
    cases hfits
  | some p => rfl

/-- A value that is declared is one of an own property. -/
theorem findOwnProperty?_of_declared {vars : List VariableDescription} {e : String × Value}
    (he : e ∈ vars.filterMap (declaredDefault? c)) : (c.findOwnProperty? e.1).isSome := by
  obtain ⟨v, -, hv⟩ := List.mem_filterMap.1 he
  unfold declaredDefault? at hv
  split at hv
  · cases hv
  · next hown =>
    obtain ⟨value, -, rfl⟩ := Option.map_eq_some_iff.1 hv
    rw [Bool.or_eq_true, not_or, Option.isNone_iff_eq_none] at hown
    exact Option.isSome_iff_ne_none.2 hown.2

variable (c)

/-- The default object of a class is made again from itself. -/
theorem settledDefaults_settledDefaults (vars : List VariableDescription)
    (old : Option DefaultObject) (isRegenerating : Bool) :
    settledDefaults c vars (some (settledDefaults c vars old isRegenerating)) isRegenerating =
      settledDefaults c vars old isRegenerating := by
  have hdeclared : ∀ e ∈ vars.filterMap (declaredDefault? c),
      e.1 ∈ (zeroDefaults c).values.map (·.1) :=
    fun _ he ↦ mem_zeroDefaults c (findOwnProperty?_of_declared he)
  have hkept : ∀ e ∈ fittingValues c old, e.1 ∈ (zeroDefaults c).values.map (·.1) ∧
      ((c.findOwnProperty? e.1).any fun p ↦ e.2.shape = (Value.zero p.ty).shape) = true :=
    fun _ he ↦ ⟨mem_zeroDefaults c (findOwnProperty?_of_fitting he), (List.mem_filter.1 he).2⟩
  cases isRegenerating with
  | false =>
    exact congrArg DefaultObject.mk (Assoc.setAll_setAll_filter (nodup_zeroDefaults c) hkept hdeclared)
  | true =>
    -- here nothing is set after the values that are kept
    have hkeys := Assoc.map_fst_setAll hdeclared
    exact congrArg DefaultObject.mk (Assoc.setAll_setAll_filter
      (Assoc.nodup_setAll (nodup_zeroDefaults c) _) (hkeys ▸ hkept) (List.forall_mem_nil _))

end ClassState

/-!
## The layers of a default object

A default object has one value for each own property and for each name that an ancestor
has a default for.  The value comes from the last layer that has one: the zero value of the
type, what is inherited, and for own properties what the last default object held and what
variables declare.
-/

/-! ### The last entry of a key -/

namespace Assoc

variable {κ ν : Type} [DecidableEq κ]

/-- The value of the last entry of a key. -/
def last? (key : κ) (entries : List (κ × ν)) : Option ν :=
  ((entries.filter fun e ↦ e.1 = key).map (·.2)).getLast?

theorem last?_eq_lookup_reverse (key : κ) (entries : List (κ × ν)) :
    last? key entries = entries.reverse.lookup key := by
  rw [last?, ← List.head?_reverse, ← List.map_reverse, ← List.filter_reverse]
  induction entries.reverse with
  | nil => rfl
  | cons e rest ih =>
    rw [lookup_cons_ite, List.filter_cons]
    by_cases he : e.1 = key
    · simp [he]
    · simp [he, Ne.symm he, ih]

/-- What was set last counts, before what the table held. -/
theorem lookup_setAll_last? (table entries : List (κ × ν)) (key : κ) :
    (setAll table entries).lookup key = (last? key entries).or (table.lookup key) := by
  rw [last?_eq_lookup_reverse, lookup_setAll_reverse]

theorem last?_eq_none {key : κ} {entries : List (κ × ν)} (h : ∀ e ∈ entries, e.1 ≠ key) :
    last? key entries = none := by
  have hnone : (entries.filter fun e ↦ e.1 = key) = [] :=
    List.filter_eq_nil_iff.2 fun e he ↦ by simpa using h e he
  rw [last?, hnone]
  rfl

end Assoc

/-! ### What each layer has -/

namespace Class

/-- The class without itself: its ancestors, nearest first. -/
def ancestors (c : Class) : List Class := (c.superClass.map hierarchy).getD []

/-- The default values that the class holds itself. -/
def defaults (c : Class) : List (String × Value) := (c.own.defaultObject.map (·.values)).getD []

/-- The default of a name that the nearest ancestor has for it. -/
def inheritedDefault? (c : Class) (name : String) : Option Value :=
  c.ancestors.findSome? fun k ↦ Assoc.last? name k.defaults

theorem findOwnProperty?_of_mem {c : Class} (hnames : c.propertyNames.Nodup) {p : Property}
    (hp : p ∈ c.own.properties) : c.findOwnProperty? p.name = some p := by
  obtain ⟨before, after, hsplit⟩ := List.append_of_mem hp
  rw [propertyNames, hsplit, List.map_append, List.map_cons, List.nodup_append'] at hnames
  have hbefore : ∀ q ∈ before, (q.name == p.name) = false := fun q hq ↦
    beq_eq_false_iff_ne.2 fun heq ↦
      hnames.2.2 (heq ▸ List.mem_map_of_mem hq) List.mem_cons_self
  rw [findOwnProperty?, hsplit, List.find?_append, List.find?_eq_none.2 fun q hq ↦ by
    simp [hbefore q hq]]
  simp

theorem notMem_propertyNames {c : Class} {name : String} :
    name ∉ c.propertyNames ↔ c.findOwnProperty? name = none := by
  rw [propertyNames, ← findOwnProperty?_isSome, Bool.not_eq_true, Option.isSome_eq_false_iff,
    Option.isNone_iff_eq_none]

/-- Setting the values of classes in turn, the last class that has one for a name counts. -/
theorem get?_foldl_defaults (l : List Class) (d : DefaultObject) (name : String) :
    (l.foldl (fun d k ↦ d.setAll k.defaults) d).get? name =
      (l.reverse.findSome? fun k ↦ Assoc.last? name k.defaults).or (d.get? name) := by
  induction l generalizing d with
  | nil => rfl
  | cons k l ih =>
    rw [List.foldl_cons, ih, List.reverse_cons, List.findSome?_append, Option.or_assoc]
    congr 1
    have hset : (d.setAll k.defaults).get? name =
        (Assoc.last? name k.defaults).or (d.get? name) := Assoc.lookup_setAll_last? _ _ _
    rw [hset, List.findSome?_singleton]

theorem nodup_inheritedDefaults (c : Class) : (c.inheritedDefaults.values.map (·.1)).Nodup :=
  have hnone : (([] : List (String × Value)).map (·.1)).Nodup := .nil
  List.foldlRecOn (motive := fun d : DefaultObject ↦ (d.values.map (·.1)).Nodup) _ _ hnone
    fun _ hd _ _ ↦ Assoc.nodup_setAll hd _

theorem mem_inheritedDefaults {c : Class} {name : String} :
    name ∈ c.inheritedDefaults.values.map (·.1) ↔
      ∃ k ∈ c.hierarchy, name ∈ k.defaults.map (·.1) := by
  have hfold (l : List Class) (d : DefaultObject) :
      name ∈ (l.foldl (fun d k ↦ d.setAll k.defaults) d).values.map (·.1) ↔
        (∃ k ∈ l, name ∈ k.defaults.map (·.1)) ∨ name ∈ d.values.map (·.1) := by
    induction l generalizing d with
    | nil => simp
    | cons k l ih =>
      have hset : name ∈ (d.setAll k.defaults).values.map (·.1) ↔ _ := Assoc.mem_map_fst_setAll
      rw [List.foldl_cons, ih, hset, List.exists_mem_cons_iff, or_left_comm, or_assoc]
  have hall := hfold c.hierarchy.reverse .empty
  simp only [List.mem_reverse] at hall
  exact hall.trans (or_iff_left (List.not_mem_nil))

theorem get?_inheritedDefaults (c : Class) (name : String) : c.inheritedDefaults.get? name =
    c.hierarchy.findSome? fun k ↦ Assoc.last? name k.defaults := by
  have hfold := get?_foldl_defaults c.hierarchy.reverse .empty name
  have hempty : DefaultObject.empty.get? name = none := rfl
  rw [List.reverse_reverse, hempty, Option.or_none] at hfold
  exact hfold

end Class

namespace ClassState

/-- The last value of a property in the last default object that still has the form of its type. -/
def previousValue? (old : Option DefaultObject) (p : Property) : Option Value :=
  Assoc.last? p.name (((old.map (·.values)).getD []).filter fun e ↦
    e.2.shape = (Value.zero p.ty).shape)

/-- The value that the last variable of a name with a text that can be read declares. -/
def declaredValue? (vars : List VariableDescription) (name : String) : Option Value :=
  ((vars.filter fun v ↦ v.name = name ∧ v.defaultValue.isEmpty = false).filterMap fun v ↦
    Value.parse? v.ty v.defaultValue).getLast?

/-- The value of an own property: of the last layer that has one. -/
def layeredValue (c : Class) (vars : List VariableDescription) (old : Option DefaultObject)
    (isRegenerating : Bool) (p : Property) : Value :=
  let previous := previousValue? old p
  let declared := declaredValue? vars p.name
  let last := if isRegenerating then previous.or declared else declared.or previous
  (last.or (c.inheritedDefault? p.name)).getD (Value.zero p.ty)

/-- Whether a variable declares a default for an own property that cannot be read. -/
def declaresUnreadable (c : Class) (v : VariableDescription) : Bool :=
  !v.defaultValue.isEmpty && (c.findOwnProperty? v.name).isSome &&
    (Value.parse? v.ty v.defaultValue).isNone

def unreadableDefault (v : VariableDescription) : Message :=
  .warning s!"Failed to parse default value '{v.defaultValue}' for variable {v.name}; it keeps its zero value"
    [propertyToken v.name]

/-! ### The layers of the object -/

variable (c : Class) (vars : List VariableDescription) (old : Option DefaultObject)

theorem get?_zeroDefaults (name : String) : (zeroDefaults c).get? name =
    (c.inheritedDefault? name).or ((c.findOwnProperty? name).map fun p ↦ Value.zero p.ty) := by
  have hzero : (DefaultObject.empty.setAll
      (c.own.properties.reverse.map fun p ↦ (p.name, Value.zero p.ty))).get? name =
        (c.findOwnProperty? name).map fun p ↦ Value.zero p.ty := by
    have hset := Assoc.lookup_setAll_reverse []
      (c.own.properties.reverse.map fun p ↦ (p.name, Value.zero p.ty)) name
    rw [List.lookup_nil, Option.or_none, ← List.map_reverse, List.reverse_reverse] at hset
    refine Eq.trans hset ?_
    unfold Class.findOwnProperty?
    induction c.own.properties with
    | nil => rfl
    | cons p rest ih =>
      rw [List.map_cons, Assoc.lookup_cons_ite, List.find?_cons]
      by_cases hp : p.name = name
      · simp [hp]
      · simp [beq_eq_false_iff_ne.2 hp, Ne.symm hp, ih]
  unfold zeroDefaults Class.inheritedDefault? Class.ancestors
  dsimp only
  cases c.superClass with
  | none => exact hzero
  | some parent =>
    have hkeys := parent.nodup_inheritedDefaults
    have hset := Assoc.lookup_setAll hkeys (DefaultObject.empty.setAll
      (c.own.properties.reverse.map fun p ↦ (p.name, Value.zero p.ty))).values name
    refine Eq.trans hset ?_
    exact congrArg₂ Option.or (parent.get?_inheritedDefaults name) hzero

theorem last?_fittingValues {c : Class} {p : Property} (hp : c.findOwnProperty? p.name = some p) :
    Assoc.last? p.name (fittingValues c old) = previousValue? old p := by
  rw [previousValue?, Assoc.last?, Assoc.last?, fittingValues, List.filter_filter,
    List.filter_filter]
  refine congrArg (fun l : List (String × Value) ↦ (l.map (·.2)).getLast?) ?_
  refine List.filter_congr fun e _ ↦ ?_
  by_cases he : e.1 = p.name
  · rw [he, hp, Option.any_some]
  · simp [he]

theorem last?_declaredDefaults {c : Class} {name : String}
    (hown : (c.findOwnProperty? name).isSome) :
    Assoc.last? name (vars.filterMap (declaredDefault? c)) = declaredValue? vars name := by
  unfold Assoc.last? declaredValue?
  refine congrArg List.getLast? ?_
  have hnone : (c.findOwnProperty? name).isNone = false := by
    rwa [Option.isNone_eq_false_iff]
  induction vars with
  | nil => rfl
  | cons v vars ih =>
    rw [List.filterMap_cons, List.filter_cons, declaredDefault?]
    by_cases hname : v.name = name
    · subst hname
      cases hempty : v.defaultValue.isEmpty with
      | true => simpa using ih
      | false =>
        cases hvalue : Value.parse? v.ty v.defaultValue with
        | none => simpa [hnone, hvalue] using ih
        | some value => simpa [hnone, hvalue] using ih
    · split
      · simpa [hname] using ih
      · next e he =>
        have hkey : e.1 ≠ name := by
          split at he
          · cases he
          · obtain ⟨value, -, rfl⟩ := Option.map_eq_some_iff.1 he
            exact hname
        simpa [hname, hkey] using ih

/-- The default object is layered: one value for each name, and that of the last layer. -/
structure Layered (isRegenerating : Bool) (d : DefaultObject) : Prop where
  nodup : (d.values.map (·.1)).Nodup
  mem_iff : ∀ name, name ∈ d.values.map (·.1) ↔
    name ∈ c.propertyNames ∨ ∃ k ∈ c.ancestors, name ∈ k.defaults.map (·.1)
  own : ∀ p ∈ c.own.properties,
    d.get? p.name = some (layeredValue c vars old isRegenerating p)
  inherited : ∀ name, name ∉ c.propertyNames → d.get? name = c.inheritedDefault? name

theorem mem_zeroDefaults_iff {name : String} : name ∈ (zeroDefaults c).values.map (·.1) ↔
    name ∈ c.propertyNames ∨ ∃ k ∈ c.ancestors, name ∈ k.defaults.map (·.1) := by
  have hown : name ∈ (DefaultObject.empty.setAll
      (c.own.properties.reverse.map fun p ↦ (p.name, Value.zero p.ty))).values.map (·.1) ↔
        name ∈ c.propertyNames := by
    have hkeys : (c.own.properties.reverse.map fun p ↦ (p.name, Value.zero p.ty)).map (·.1) =
        c.propertyNames.reverse := by
      rw [List.map_map, List.map_reverse]
      rfl
    refine Assoc.mem_map_fst_setAll.trans ((or_iff_left List.not_mem_nil).trans ?_)
    rw [hkeys, List.mem_reverse]
  refine Assoc.mem_map_fst_setAll.trans (or_comm.trans (or_congr hown ?_))
  unfold Class.ancestors
  cases c.superClass with
  | none => simp
  | some parent => exact parent.mem_inheritedDefaults

/-- Two layers for own properties cover the zero values; the flag decides on their order. -/
theorem exists_settledDefaults_eq (hnames : c.propertyNames.Nodup) (isRegenerating : Bool) :
    ∃ first second,
      settledDefaults c vars old isRegenerating = ((zeroDefaults c).setAll first).setAll second ∧
      (∀ e ∈ first, e.1 ∈ c.propertyNames) ∧ (∀ e ∈ second, e.1 ∈ c.propertyNames) ∧
      ∀ p ∈ c.own.properties, (Assoc.last? p.name second).or (Assoc.last? p.name first) =
        if isRegenerating then (previousValue? old p).or (declaredValue? vars p.name)
        else (declaredValue? vars p.name).or (previousValue? old p) := by
  have hdeclared : ∀ e ∈ vars.filterMap (declaredDefault? c), e.1 ∈ c.propertyNames :=
    fun _ he ↦ Class.findOwnProperty?_isSome.1 (findOwnProperty?_of_declared he)
  have hkept : ∀ e ∈ fittingValues c old, e.1 ∈ c.propertyNames :=
    fun _ he ↦ Class.findOwnProperty?_isSome.1 (findOwnProperty?_of_fitting he)
  have hprevious : ∀ p ∈ c.own.properties, _ := fun p hp ↦
    last?_fittingValues old (Class.findOwnProperty?_of_mem hnames hp)
  have hvalue : ∀ p ∈ c.own.properties, _ := fun p hp ↦
    last?_declaredDefaults vars (Class.findOwnProperty?_isSome.2 (List.mem_map_of_mem hp))
  cases isRegenerating with
  | true =>
    exact ⟨_, _, rfl, hdeclared, hkept, fun p hp ↦ by rw [hprevious p hp, hvalue p hp]; rfl⟩
  | false =>
    exact ⟨_, _, rfl, hkept, hdeclared, fun p hp ↦ by rw [hprevious p hp, hvalue p hp]; rfl⟩

theorem layered_settledDefaults (hnames : c.propertyNames.Nodup) (isRegenerating : Bool) :
    Layered c vars old isRegenerating (settledDefaults c vars old isRegenerating) := by
  have hlookup (first second : List (String × Value)) (name : String) :
      ((((zeroDefaults c).setAll first).setAll second).get? name) =
        (Assoc.last? name second).or ((Assoc.last? name first).or ((c.inheritedDefault? name).or
          ((c.findOwnProperty? name).map fun p ↦ Value.zero p.ty))) := by
    rw [← get?_zeroDefaults]
    refine (Assoc.lookup_setAll_last? _ second name).trans (congrArg _ ?_)
    exact Assoc.lookup_setAll_last? _ first name
  obtain ⟨first, second, heq, hfirst, hsecond, hlast⟩ :=
    exists_settledDefaults_eq c vars old hnames isRegenerating
  rw [heq]
  refine ⟨?_, fun name ↦ ?_, fun p hp ↦ ?_, fun name hname ↦ ?_⟩
  · exact Assoc.nodup_setAll (Assoc.nodup_setAll (nodup_zeroDefaults c) _) _
  · have hzero : name ∈ (zeroDefaults c).values.map (·.1) ↔ _ := mem_zeroDefaults_iff c
    refine Assoc.mem_map_fst_setAll.trans ((or_congr_right Assoc.mem_map_fst_setAll).trans ?_)
    rw [hzero, List.mem_map, List.mem_map]
    refine ⟨?_, fun h ↦ .inr (.inr h)⟩
    rintro (⟨e, he, rfl⟩ | ⟨e, he, rfl⟩ | h)
    · exact .inl (hsecond e he)
    · exact .inl (hfirst e he)
    · exact h
  · rw [hlookup, ← Option.or_assoc, ← Option.or_assoc, hlast p hp,
      Class.findOwnProperty?_of_mem hnames hp]
    exact Option.or_some
  · have hnone {entries : List (String × Value)} (h : ∀ e ∈ entries, e.1 ∈ c.propertyNames) :
        Assoc.last? name entries = none :=
      Assoc.last?_eq_none fun e he heq ↦ hname (heq ▸ h e he)
    rw [hlookup, hnone hfirst, hnone hsecond, Class.notMem_propertyNames.1 hname]
    exact Option.or_none

/-! ### What is reported -/

theorem log_foldl_applyDeclared (acc : DefaultObject × MessageLog) :
    (vars.foldl (applyDeclared c) acc).2 =
      acc.2.pushAll ((vars.filter (declaresUnreadable c)).map unreadableDefault) := by
  induction vars generalizing acc with
  | nil => rfl
  | cons v vars ih =>
    have hstep : (applyDeclared c acc v).2 =
        acc.2.pushAll (([v].filter (declaresUnreadable c)).map unreadableDefault) := by
      rw [List.filter_singleton]
      unfold applyDeclared declaresUnreadable
      dsimp only
      rw [← Option.not_isNone (c.findOwnProperty? v.name), ← Bool.not_or]
      cases v.defaultValue.isEmpty || (c.findOwnProperty? v.name).isNone with
      | true => rfl
      | false =>
        cases Value.parse? v.ty v.defaultValue with
        | none => rfl
        | some value => rfl
    have happend : (v :: vars).filter (declaresUnreadable c) =
        [v].filter (declaresUnreadable c) ++ vars.filter (declaresUnreadable c) :=
      List.filter_append [v] vars
    rw [List.foldl_cons, ih, hstep, happend, List.map_append, MessageLog.pushAll,
      MessageLog.pushAll, MessageLog.pushAll, List.foldl_append]

theorem log_buildDefaults (s : ClassState) (b : Blueprint) (old : Option DefaultObject)
    (isRegenerating : Bool) : (s.buildDefaults b old isRegenerating).log = s.log.pushAll
      ((b.newVariables.filter (declaresUnreadable s.cls)).map unreadableDefault) := by
  have hlog (d : DefaultObject) := log_foldl_applyDeclared s.cls b.newVariables (d, s.log)
  unfold buildDefaults
  cases isRegenerating with
  | true => exact hlog _
  | false => exact hlog _

/-- The default object of a class with distinct properties has one value for each own property
and each name with an inherited default, which is that of the last layer that has one.  Each
declared default that cannot be read is reported once, and nothing else is. -/
theorem layered_buildDefaults (s : ClassState) (b : Blueprint) (old : Option DefaultObject)
    (isRegenerating : Bool) (hnames : s.cls.propertyNames.Nodup) :
    let s' := s.buildDefaults b old isRegenerating
    (∃ d, s'.cls = s.cls.withDefaults d ∧ Layered s.cls b.newVariables old isRegenerating d) ∧
    s'.log = s.log.pushAll
      ((b.newVariables.filter (declaresUnreadable s.cls)).map unreadableDefault) ∧
    s'.log.numWarnings = s.log.numWarnings + b.newVariables.countP (declaresUnreadable s.cls) ∧
    s'.log.numErrors = s.log.numErrors := by
  have hlog := log_buildDefaults s b old isRegenerating
  refine ⟨⟨_, cls_buildDefaults s b old isRegenerating,
    layered_settledDefaults s.cls b.newVariables old hnames isRegenerating⟩, hlog, ?_, ?_⟩
  · rw [hlog, MessageLog.numWarnings_pushAll, List.countP_map, List.countP_eq_length_filter,
      List.countP_eq_length_filter]
    refine congrArg (s.log.numWarnings + List.length ·) (List.filter_eq_self.2 fun v _ ↦ ?_)
    rfl
  · rw [hlog, MessageLog.numErrors_pushAll, List.countP_map, List.countP_eq_zero.2 fun v _ ↦ ?_]
    · rfl
    · exact Bool.false_ne_true

/-- A class with two numbers, under one that has two values for a third. -/
def soldier : Class where
  own :=
    { name := "Soldier"
      properties := [{ name := "Ammo", ty := { category := .int }, flags := .empty },
        { name := "Speed", ty := { category := .int }, flags := .empty }] }
  superClass := some <|
    (Class.new "Actor" none).withDefaults ⟨[("Health", .int 3), ("Health", .int 4)]⟩
  interfaces := []

/-- The variables of the class, one of them twice and one with a text that cannot be read. -/
def soldierBlueprint : Blueprint where
  name := "Soldier"
  parentClass := .new "Actor" none
  newVariables := [("Speed", "5"), ("Ammo", "many"), ("Speed", "6")].map fun e ↦
    { name := e.1, ty := { category := .int }, defaultValue := e.2 }

/-- The last text counts where it can be read.  Where none can, the last value that fits does. -/
theorem layered_buildDefaults_soldier :
    let old := some ⟨[("Ammo", .int 6), ("Speed", .int 8), ("Ammo", .int 7), ("Ammo", .bool true)]⟩
    soldier.propertyNames.Nodup ∧
      (∃ d, (buildDefaults ⟨soldier, .empty⟩ soldierBlueprint old false).cls =
          soldier.withDefaults d ∧ d.get? "Speed" = some (.int 6) ∧
            d.get? "Ammo" = some (.int 7) ∧ d.get? "Health" = some (.int 4)) ∧
        (buildDefaults ⟨soldier, .empty⟩ soldierBlueprint old false).log.numWarnings = 1 := by
  intro old
  have hnames : soldier.propertyNames.Nodup := by decide
  obtain ⟨⟨d, hcls, hlayered⟩, -, hwarnings, -⟩ :=
    layered_buildDefaults ⟨soldier, .empty⟩ soldierBlueprint old false hnames
  have hcount : soldierBlueprint.newVariables.countP (declaresUnreadable soldier) = 1 := by
    decide +kernel
  refine ⟨hnames, ⟨d, hcls, ?_, ?_, ?_⟩, hwarnings.trans (congrArg (0 + ·) hcount)⟩
  · exact hlayered.own _ (List.mem_cons_of_mem _ List.mem_cons_self)
  · exact hlayered.own _ List.mem_cons_self
  · exact hlayered.inherited "Health" (by decide)

end ClassState

end VisualScript
