import VisualScript.Proofs.Class.Extension
import VisualScript.Proofs.Flags
import VisualScript.Proofs.Log
import VisualScript.Proofs.Terminals.Basic

/-!
# Properties of terminals

A scope refuses a second property of a name, so when no error was reported, the
terminals that got properties have names of their own.
-/

namespace VisualScript

/-- A scope whose properties have names of their own. -/
class LawfulPropertyScope (σ : Type) extends PropertyScope σ where
  names : σ → List String
  notMem_of_link {scope scope' : σ} {p : Property} :
    link scope p = .ok scope' → p.name ∉ names scope
  mem_names_link {scope scope' : σ} {p : Property} (h : link scope p = .ok scope')
    (name : String) : name ∈ names scope' ↔ name = p.name ∨ name ∈ names scope

instance : LawfulPropertyScope Class where
  names c := c.own.properties.map (·.name)
  notMem_of_link h := (Class.linkProperty_eq_ok h).1
  mem_names_link h name := by
    obtain ⟨-, rfl⟩ := Class.linkProperty_eq_ok h
    simp

theorem Function.addProperty_eq_ok {f g : Function} {p : Property} (h : f.addProperty p = .ok g) :
    p.name ∉ f.properties.map (·.name) ∧ g = { f with properties := f.properties ++ [p] } := by
  unfold addProperty at h
  split at h
  · cases h
  · next hnew => exact ⟨fun hmem ↦ hnew (findProperty?_isSome.2 hmem), (Except.ok.inj h).symm⟩

instance : LawfulPropertyScope Function where
  names f := f.properties.map (·.name)
  notMem_of_link h := (Function.addProperty_eq_ok h).1
  mem_names_link h name := by
    obtain ⟨-, rfl⟩ := Function.addProperty_eq_ok h
    simp [or_comm]

open PropertyScope LawfulPropertyScope

variable {σ : Type} [LawfulPropertyScope σ]

/-! ## Parameters -/

namespace PropertyFlags

theorem contains_parm (flags : PropertyFlags) : flags.contains parm = flags.has 0 :=
  Flags.contains_single (by decide) (by decide)

/-- The flags of the property of a terminal say whether it is a parameter as its list does. -/
theorem contains_parm_propertyFlags (term : Terminal) (flags : PropertyFlags) :
    (term.propertyFlags flags).contains parm = flags.contains parm := by
  have hnone (c : Bool) {a : PropertyFlags} (ha : a.has 0 = false) :
      (if c then a else .empty : PropertyFlags).has 0 = false := by
    cases c
    · exact Flags.has_empty 0
    · exact ha
  rw [contains_parm, contains_parm, Terminal.propertyFlags, Flags.union]
  simp only [List.foldl_cons, List.foldl_nil, Flags.has_or, Flags.has_empty, Bool.false_or]
  rw [hnone _ (by decide), hnone _ (by decide), hnone _ (by decide), hnone _ (by decide),
    hnone _ (by decide)]
  simp only [Bool.or_false]

end PropertyFlags

theorem PropertyFlags.contains_returnParm (flags : PropertyFlags) :
    flags.contains returnParm = flags.has 3 :=
  Flags.contains_single (by decide) (by decide)

/-- Only a result of one name is what the function returns. -/
theorem PropertyFlags.name_of_contains_returnParm {term : Terminal} {flags : PropertyFlags}
    (hflags : flags.contains returnParm = false)
    (h : (term.propertyFlags flags).contains returnParm) : term.name = PinName.returnValue := by
  by_contra hname
  have hnone (c : Bool) {a : PropertyFlags} (ha : a.has 3 = false) :
      (if c then a else .empty : PropertyFlags).has 3 = false := by
    cases c
    · exact Flags.has_empty 3
    · exact ha
  rw [contains_returnParm] at h hflags
  simp only [Terminal.propertyFlags, Flags.union, List.foldl_cons, List.foldl_nil, Flags.has_or,
    Flags.has_empty, Bool.false_or, beq_eq_false_iff_ne.2 hname, Bool.and_false,
    Bool.false_eq_true, if_false, hflags] at h
  rw [hnone _ (by decide), hnone _ (by decide), hnone _ (by decide), hnone _ (by decide)] at h
  exact Bool.false_ne_true h

/-- A property that is linked under these flags: its type has storage, and its flags are these, but
for those that follow from its type. -/
structure Property.MadeWith (p : Property) (name : String) (ty : PinType) (flags : PropertyFlags) :
    Prop where
  name : p.name = name
  ty : p.ty = ty
  stored : p.ty.layout?.isSome
  has : ∀ i, PropertyFlags.zeroConstructor.has i = false → PropertyFlags.constParm.has i = false →
    p.flags.has i = flags.has i

theorem exists_madeWith_of_addVariable {scope scope' : σ} {name : String} {ty : PinType}
    {flags : PropertyFlags} (h : addVariable scope name ty flags = .ok scope') :
    ∃ p : Property, p.MadeWith name ty flags ∧ link scope p = .ok scope' := by
  unfold addVariable at h
  cases hp : Property.new name ty with
  | error e =>
    rw [hp] at h
    cases h
  | ok p =>
    obtain ⟨hname, hty, hstored, hnone⟩ : p.name = name ∧ p.ty = ty ∧ p.ty.layout?.isSome ∧
        ∀ i, PropertyFlags.zeroConstructor.has i = false → p.flags.has i = false := by
      unfold Property.new at hp
      split at hp
      · cases hp
      · next layout hlayout =>
        cases hp
        refine ⟨rfl, rfl, Option.isSome_iff_exists.2 ⟨layout, hlayout⟩, fun i hi ↦ ?_⟩
        dsimp only
        split
        · exact hi
        · exact Flags.has_empty i
    rw [hp] at h
    refine ⟨_, ?_, h⟩
    split
    · refine ⟨hname, hty, hstored, fun i hzero hconst ↦ ?_⟩
      simp only [Property.addFlags, Flags.has_or, hnone i hzero, hconst, Bool.false_or,
        Bool.or_false]
    · refine ⟨hname, hty, hstored, fun i hzero _ ↦ ?_⟩
      simp only [Property.addFlags, Flags.has_or, hnone i hzero, Bool.false_or]

theorem Property.MadeWith.isParameter {p : Property} {name : String} {ty : PinType}
    {flags : PropertyFlags} (h : p.MadeWith name ty flags) :
    p.isParameter = flags.contains PropertyFlags.parm := by
  rw [Property.isParameter, PropertyFlags.contains_parm, PropertyFlags.contains_parm]
  exact h.has 0 (by decide) (by decide)

theorem exists_link_of_addVariable {scope scope' : σ} {name : String} {ty : PinType}
    {flags : PropertyFlags} (h : addVariable scope name ty flags = .ok scope') :
    ∃ p, p.name = name ∧ p.isParameter = flags.contains PropertyFlags.parm ∧
      link scope p = .ok scope' := by
  obtain ⟨p, hmade, hlink⟩ := exists_madeWith_of_addVariable h
  exact ⟨p, hmade.name, hmade.isParameter, hlink⟩

/-- A property that a terminal of a list with these flags can get. -/
structure Property.ForTerminal (flags : PropertyFlags) (p : Property) : Prop where
  stored : p.ty.layout?.isSome
  isParameter : p.isParameter = flags.contains PropertyFlags.parm
  returned : flags.contains PropertyFlags.returnParm = false →
    p.flags.contains PropertyFlags.returnParm → p.name = PinName.returnValue

theorem Property.MadeWith.forTerminal {p : Property} {term : Terminal} {ty : PinType}
    {flags : PropertyFlags} (h : p.MadeWith term.name ty (term.propertyFlags flags)) :
    p.ForTerminal flags where
  stored := h.stored
  isParameter := h.isParameter.trans (PropertyFlags.contains_parm_propertyFlags term flags)
  returned hflags hreturn := by
    refine h.name.trans (PropertyFlags.name_of_contains_returnParm hflags ?_)
    rw [PropertyFlags.contains_returnParm] at hreturn ⊢
    exact (h.has 3 (by decide) (by decide)).symm.trans hreturn

namespace FunctionContext

def nameOf (c : FunctionContext) (t : TermId) : String := ((c.term? t).map (·.name)).getD ""

/-- What a terminal keeps when it gets a property. -/
def shapeOf (term : Terminal) : String × TermKind × PinType × Option String × String :=
  (term.name, term.kind, term.ty, term.defaultObject, term.defaultValue)

/-- The terminals have the same names, kinds and types, and all else is the same. -/
structure SameShape (c d : FunctionContext) : Prop where
  eq : d = { c with terms := d.terms }
  shapes : d.terms.map shapeOf = c.terms.map shapeOf

namespace SameShape

theorem refl (c : FunctionContext) : SameShape c c := ⟨rfl, rfl⟩

theorem trans {c d e : FunctionContext} (h : SameShape c d) (h' : SameShape d e) :
    SameShape c e where
  eq := by
    rw [h'.eq, h.eq]
  shapes := h'.shapes.trans h.shapes

theorem modifyTerm (c : FunctionContext) (t : TermId) {f : Terminal → Terminal}
    (hf : ∀ term : Terminal, term.Agrees (f term)) : SameShape c (c.modifyTerm t f) := by
  refine ⟨rfl, Class.map_modify_of_key f shapeOf (fun term ↦ ?_) c.terms t.index⟩
  rw [shapeOf, (hf term).name, (hf term).kind, (hf term).ty, (hf term).defaultObject,
    (hf term).defaultValue, shapeOf]

theorem outline {c d : FunctionContext} (h : SameShape c d) : d.outline = c.outline := by
  rw [h.eq]
  rfl

theorem nodeStatements {c d : FunctionContext} (h : SameShape c d) :
    d.nodeStatements = c.nodeStatements := by
  rw [h.eq]

theorem failed {c d : FunctionContext} (h : SameShape c d) : d.failed = c.failed := by
  rw [h.eq]

theorem shape {c d : FunctionContext} (h : SameShape c d) (t : TermId) :
    (d.term? t).map shapeOf = (c.term? t).map shapeOf := by
  rw [term?, term?, ← List.getElem?_map, ← List.getElem?_map, h.shapes]

theorem agrees {c d : FunctionContext} (h : SameShape c d) {t : TermId} {term : Terminal}
    (ht : c.term? t = some term) : ∃ term', d.term? t = some term' ∧ term.Agrees term' := by
  have hshape := h.shape t
  rw [ht, Option.map_some] at hshape
  obtain ⟨term', ht', heq⟩ := Option.map_eq_some_iff.1 hshape
  rw [shapeOf, shapeOf, Prod.mk.injEq, Prod.mk.injEq, Prod.mk.injEq, Prod.mk.injEq] at heq
  exact ⟨term', ht', heq.1, heq.2.1, heq.2.2.1, heq.2.2.2.1, heq.2.2.2.2⟩

theorem nameOf {c d : FunctionContext} (h : SameShape c d) (t : TermId) :
    d.nameOf t = c.nameOf t := by
  have hname (c : FunctionContext) : c.nameOf t = (((c.term? t).map shapeOf).map (·.1)).getD "" := by
    rw [Option.map_map]
    rfl
  rw [hname, hname, h.shape]

end SameShape

end FunctionContext

/-- The scope gains properties of these names, which are new and differ. -/
structure Gains (scope scope' : σ) (new : List String) : Prop where
  nodup : new.Nodup
  notMem : ∀ x ∈ new, x ∉ names scope
  mem_iff : ∀ x, x ∈ names scope' ↔ x ∈ new ∨ x ∈ names scope

theorem Gains.trans {a b c : σ} {xs ys : List String} (h : Gains a b xs) (h' : Gains b c ys) :
    Gains a c (xs ++ ys) where
  nodup := List.nodup_append'.2 ⟨h.nodup, h'.nodup, fun x hx hy ↦
    h'.notMem x hy ((h.mem_iff x).2 (.inl hx))⟩
  notMem x hx := by
    rcases List.mem_append.1 hx with hx | hx
    · exact h.notMem x hx
    · exact fun hin ↦ h'.notMem x hx ((h.mem_iff x).2 (.inr hin))
  mem_iff x := by
    rw [h'.mem_iff x, h.mem_iff x, List.mem_append]
    tauto

theorem gains_link {a b : σ} {p : Property} (h : link a p = .ok b) : Gains a b [p.name] where
  nodup := List.nodup_singleton _
  notMem x hx := by
    rw [List.mem_singleton.1 hx]
    exact notMem_of_link h
  mem_iff x := by rw [mem_names_link h, List.mem_singleton]

/-- Properties are linked into the scope in turn: their names, and whether they are parameters. -/
inductive Links : σ → List (String × Bool) → σ → Prop
  | nil (a : σ) : Links a [] a
  | cons {a b c : σ} {p : Property} {items : List (String × Bool)} :
      link a p = .ok b → Links b items c → Links a ((p.name, p.isParameter) :: items) c

namespace Links

theorem trans {a b c : σ} {items items' : List (String × Bool)} (h : Links a items b)
    (h' : Links b items' c) : Links a (items ++ items') c := by
  induction h with
  | nil => exact h'
  | cons hlink _ ih => exact .cons hlink (ih h')

theorem gains {a b : σ} {items : List (String × Bool)} (h : Links a items b) :
    Gains a b (items.map (·.1)) := by
  induction h with
  | nil => exact ⟨.nil, by simp, fun x ↦ by simp⟩
  | cons hlink _ ih => exact (gains_link hlink).trans ih

/-- The parameters of a function come in the order in which they are linked. -/
theorem parameters {f g : Function} {items : List (String × Bool)} (h : Links f items g) :
    g.parameters.map (·.name) = f.parameters.map (·.name) ++ (items.filter (·.2)).map (·.1) := by
  induction h with
  | nil => exact (List.append_nil _).symm
  | @cons a b c p items hlink _ ih =>
    obtain ⟨-, rfl⟩ := Function.addProperty_eq_ok hlink
    rw [ih, Function.parameters, Function.parameters, List.filter_append, List.map_append,
      List.append_assoc]
    cases hp : p.isParameter <;> simp [hp]

end Links

namespace PropertyState

variable (flags : PropertyFlags) (s : PropertyState σ) (t : TermId)

/-- What happens to one terminal: nothing, a reported refusal, or a new property. -/
inductive Added (flags : PropertyFlags) (s : PropertyState σ) (t : TermId) :
    PropertyState σ → Prop
  | skip : (∀ term, s.ctx.term? t = some term → term.associatedProperty.isSome) → Added flags s t s
  | refuse (text : String) (tokens : List SourceToken) :
      Added flags s t { s with log := s.log.error text tokens }
  | make {term : Terminal} {p : Property} {scope : σ} {log : MessageLog} :
      s.ctx.term? t = some term → p.name = term.name →
      p.isParameter = flags.contains PropertyFlags.parm → link s.scope p = .ok scope →
      log.numErrors = s.log.numErrors →
      Added flags s t ⟨scope, s.ctx.modifyTerm t fun term ↦
        { term with associatedProperty := some term.name }, log⟩

theorem added_addTerm : Added flags s t (addTerm flags s t) := by
  unfold addTerm
  cases hterm : s.ctx.term? t with
  | none => exact .skip fun term h ↦ by rw [hterm] at h; cases h
  | some term =>
    dsimp only
    split
    · next hold =>
      refine .skip fun term' h ↦ ?_
      rw [hterm] at h
      cases h
      exact hold
    · split
      · exact .refuse _ _
      · next scope hscope =>
        obtain ⟨p, hname, hparm, hlink⟩ := exists_link_of_addVariable hscope
        rw [PropertyFlags.contains_parm_propertyFlags] at hparm
        refine .make hterm hname hparm hlink ?_
        split
        · exact MessageLog.numErrors_addSource ..
        · rfl

variable {flags s t} {s' : PropertyState σ}

theorem Added.numErrors_le (h : Added flags s t s') : s.log.numErrors ≤ s'.log.numErrors := by
  cases h with
  | skip => exact Nat.le_refl _
  | refuse => exact Nat.le_succ _
  | make _ _ _ _ hlog => exact Nat.le_of_eq hlog.symm

theorem Added.sameShape (h : Added flags s t s') : s.ctx.SameShape s'.ctx := by
  cases h with
  | skip => exact .refl _
  | refuse => exact .refl _
  | make => exact .modifyTerm s.ctx t fun _ ↦ ⟨rfl, rfl, rfl, rfl, rfl⟩

theorem Added.term?_of_ne (h : Added flags s t s') {u : TermId} (hu : u ≠ t) :
    s'.ctx.term? u = s.ctx.term? u := by
  cases h with
  | skip => rfl
  | refuse => rfl
  | make => rw [FunctionContext.term?_modifyTerm, if_neg (Ne.symm hu)]

theorem numErrors_le_addTerms (s : PropertyState σ) (ts : List TermId) (flags : PropertyFlags) :
    s.log.numErrors ≤ (s.addTerms ts flags).log.numErrors := by
  induction ts generalizing s with
  | nil => exact Nat.le_refl _
  | cons t ts ih => exact Nat.le_trans (added_addTerm flags s t).numErrors_le (ih _)

theorem sameShape_addTerms (s : PropertyState σ) (ts : List TermId) (flags : PropertyFlags) :
    s.ctx.SameShape (s.addTerms ts flags).ctx := by
  induction ts generalizing s with
  | nil => exact .refl _
  | cons t ts ih => exact (added_addTerm flags s t).sameShape.trans (ih _)

theorem term?_addTerms_of_notMem {ts : List TermId} {u : TermId} (hu : u ∉ ts)
    (s : PropertyState σ) (flags : PropertyFlags) :
    (s.addTerms ts flags).ctx.term? u = s.ctx.term? u := by
  induction ts generalizing s with
  | nil => rfl
  | cons t ts ih =>
    obtain ⟨hne, hnot⟩ := List.ne_and_not_mem_of_not_mem_cons hu
    exact (ih hnot _).trans ((added_addTerm flags s t).term?_of_ne hne)

/-- What every link of a property for a terminal keeps, the terminals keep. -/
theorem scope_addTerms_of_forTerminal {P : σ → Prop} {flags : PropertyFlags}
    (hlink : ∀ {a b p}, Property.ForTerminal flags p → link a p = .ok b → P a → P b)
    {s : PropertyState σ} (hs : P s.scope) (ts : List TermId) : P (s.addTerms ts flags).scope := by
  induction ts generalizing s with
  | nil => exact hs
  | cons t ts ih =>
    refine ih ?_
    unfold addTerm
    split
    · exact hs
    · split
      · exact hs
      · dsimp only
        split
        · exact hs
        · next scope hscope =>
          obtain ⟨p, hmade, h⟩ := exists_madeWith_of_addVariable hscope
          exact hlink hmade.forTerminal h hs

/-- What every link keeps, the terminals keep. -/
theorem scope_addTerms {P : σ → Prop} (hlink : ∀ {a b p}, link a p = .ok b → P a → P b)
    {s : PropertyState σ} (hs : P s.scope) (ts : List TermId) (flags : PropertyFlags) :
    P (s.addTerms ts flags).scope :=
  scope_addTerms_of_forTerminal (fun _ ↦ hlink) hs ts

/-- Without an error the terminals are linked in turn. -/
theorem links_addTerms {ts : List TermId} (hnodup : ts.Nodup)
    (hfresh : ∀ t ∈ ts, ∃ term, s.ctx.term? t = some term ∧ term.associatedProperty = none)
    (hlog : (s.addTerms ts flags).log.numErrors ≤ s.log.numErrors) :
    Links s.scope (ts.map fun t ↦ (s.ctx.nameOf t, flags.contains PropertyFlags.parm))
      (s.addTerms ts flags).scope := by
  induction ts generalizing s with
  | nil => exact .nil _
  | cons t ts ih =>
    obtain ⟨hnew, hnodup⟩ := List.nodup_cons.1 hnodup
    obtain ⟨term, hterm, hnone⟩ := hfresh t List.mem_cons_self
    have hadded := added_addTerm flags s t
    have hstep : s.addTerms (t :: ts) flags = (addTerm flags s t).addTerms ts flags := rfl
    rw [hstep] at hlog ⊢
    generalize addTerm flags s t = s' at hadded hlog
    have hrest : ∀ u ∈ ts, s'.ctx.term? u = s.ctx.term? u := fun u hu ↦
      hadded.term?_of_ne fun heq ↦ hnew (heq ▸ hu)
    have hle := numErrors_le_addTerms s' ts flags
    have hle' := hadded.numErrors_le
    have hih := ih (s := s') hnodup (fun u hu ↦ by
      rw [hrest u hu]
      exact hfresh u (List.mem_cons_of_mem _ hu)) (Nat.le_trans hlog hle')
    rw [funext hadded.sameShape.nameOf] at hih
    cases hadded with
    | skip hold =>
      have hsome := hold term hterm
      rw [hnone] at hsome
      cases hsome
    | refuse text tokens =>
      simp only [MessageLog.numErrors_error] at hle
      omega
    | @make term' p scope log hterm' hname hparm hlink hlog' =>
      rw [hterm] at hterm'
      cases hterm'
      have hname' : s.ctx.nameOf t = p.name := by simp [FunctionContext.nameOf, hterm, hname]
      rw [List.map_cons, hname', ← hparm]
      exact .cons hlink (hparm ▸ hih)

/-- Without an error the scope gains the names of the terminals. -/
theorem gains_addTerms {ts : List TermId} (hnodup : ts.Nodup)
    (hfresh : ∀ t ∈ ts, ∃ term, s.ctx.term? t = some term ∧ term.associatedProperty = none)
    (hlog : (s.addTerms ts flags).log.numErrors ≤ s.log.numErrors) :
    Gains s.scope (s.addTerms ts flags).scope (ts.map s.ctx.nameOf) := by
  have hgains := (links_addTerms hnodup hfresh hlog).gains
  rwa [List.map_map] at hgains

/-! ## Several lists -/

/-- Makes the properties of several lists of terminals, each with flags of its own. -/
def addLists (s : PropertyState σ) (lists : List (List TermId × PropertyFlags)) :
    PropertyState σ :=
  lists.foldl (fun s l ↦ s.addTerms l.1 l.2) s

variable (lists : List (List TermId × PropertyFlags))

theorem numErrors_le_addLists (s : PropertyState σ) :
    s.log.numErrors ≤ (s.addLists lists).log.numErrors := by
  induction lists generalizing s with
  | nil => exact Nat.le_refl _
  | cons l lists ih => exact Nat.le_trans (numErrors_le_addTerms s l.1 l.2) (ih _)

theorem sameShape_addLists (s : PropertyState σ) : s.ctx.SameShape (s.addLists lists).ctx := by
  induction lists generalizing s with
  | nil => exact .refl _
  | cons l lists ih => exact (sameShape_addTerms s l.1 l.2).trans (ih _)

theorem term?_addLists_of_notMem {u : TermId} (hu : u ∉ lists.flatMap (·.1))
    (s : PropertyState σ) : (s.addLists lists).ctx.term? u = s.ctx.term? u := by
  induction lists generalizing s with
  | nil => rfl
  | cons l lists ih =>
    rw [List.flatMap_cons, List.mem_append, not_or] at hu
    exact (ih hu.2 _).trans (term?_addTerms_of_notMem hu.1 s l.2)

theorem scope_addLists {P : σ → Prop} (hlink : ∀ {a b p}, link a p = .ok b → P a → P b)
    {s : PropertyState σ} (hs : P s.scope) : P (s.addLists lists).scope := by
  induction lists generalizing s with
  | nil => exact hs
  | cons l lists ih => exact ih (scope_addTerms hlink hs l.1 l.2)

variable {lists}

/-- What the terminals of the lists are linked as. -/
def listItems (c : FunctionContext) (lists : List (List TermId × PropertyFlags)) :
    List (String × Bool) :=
  lists.flatMap fun l ↦ l.1.map fun t ↦ (c.nameOf t, l.2.contains PropertyFlags.parm)

theorem map_fst_listItems (c : FunctionContext) (lists : List (List TermId × PropertyFlags)) :
    (listItems c lists).map (·.1) = (lists.flatMap (·.1)).map c.nameOf := by
  simp only [listItems, List.map_flatMap, List.map_map]
  rfl

theorem links_addLists {s : PropertyState σ} (hnodup : (lists.flatMap (·.1)).Nodup)
    (hfresh : ∀ t ∈ lists.flatMap (·.1),
      ∃ term, s.ctx.term? t = some term ∧ term.associatedProperty = none)
    (hlog : (s.addLists lists).log.numErrors ≤ s.log.numErrors) :
    Links s.scope (listItems s.ctx lists) (s.addLists lists).scope := by
  induction lists generalizing s with
  | nil => exact .nil _
  | cons l lists ih =>
    rw [List.flatMap_cons] at hnodup hfresh
    obtain ⟨hfirst, hrest, hdisjoint⟩ := List.nodup_append'.1 hnodup
    have hstep : s.addLists (l :: lists) = (s.addTerms l.1 l.2).addLists lists := rfl
    rw [hstep] at hlog ⊢
    have hle := numErrors_le_addTerms s l.1 l.2
    have hle' := numErrors_le_addLists lists (s.addTerms l.1 l.2)
    have hlinks := links_addTerms hfirst (fun t ht ↦ hfresh t (List.mem_append_left _ ht))
      (Nat.le_trans hle' hlog)
    have hlinks' := ih (s := s.addTerms l.1 l.2) hrest (fun t ht ↦ by
      rw [term?_addTerms_of_notMem (fun hmem ↦ hdisjoint hmem ht)]
      exact hfresh t (List.mem_append_right _ ht)) (Nat.le_trans hlog hle)
    rw [listItems, funext (sameShape_addTerms s l.1 l.2).nameOf] at hlinks'
    rw [listItems, List.flatMap_cons]
    exact hlinks.trans hlinks'

end PropertyState

end VisualScript
