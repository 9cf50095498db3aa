import VisualScript.Compile.Context
import VisualScript.Compile.NetName
import Mathlib.Data.List.Nodup

/-!
# Terminals of a function

A terminal keeps its name and kind, and stands on the list of its kind.  Nets
lead to terminals; that of an input is a literal.
-/

namespace VisualScript

/-- A terminal that was only changed in how it is kept. -/
structure Terminal.Agrees (t t' : Terminal) : Prop where
  name : t'.name = t.name
  kind : t'.kind = t.kind
  ty : t'.ty = t.ty
  defaultObject : t'.defaultObject = t.defaultObject
  defaultValue : t'.defaultValue = t.defaultValue

namespace Terminal.Agrees

theorem refl (t : Terminal) : t.Agrees t := ⟨rfl, rfl, rfl, rfl, rfl⟩

theorem trans {t t' t'' : Terminal} (h : t.Agrees t') (h' : t'.Agrees t'') : t.Agrees t'' :=
  ⟨h'.name.trans h.name, h'.kind.trans h.kind, h'.ty.trans h.ty,
    h'.defaultObject.trans h.defaultObject, h'.defaultValue.trans h.defaultValue⟩

end Terminal.Agrees

namespace FunctionContext

variable (c : FunctionContext)

/-! ## Single terminals -/

@[simp]
theorem terms_enlist (t : TermId) (kind : TermKind) : (c.enlist t kind).terms = c.terms := by
  cases kind <;> rfl

@[simp]
theorem netMap_enlist (t : TermId) (kind : TermKind) : (c.enlist t kind).netMap = c.netMap := by
  cases kind <;> rfl

theorem term?_pushTerm (term : Terminal) (t : TermId) :
    (c.pushTerm term).2.term? t = if t.index = c.terms.length then some term else c.term? t := by
  simp only [pushTerm, term?, terms_enlist]
  split
  · next h => simp [h]
  · next h =>
    rcases Nat.lt_or_gt_of_ne h with hlt | hgt
    · rw [List.getElem?_append_left hlt]
    · rw [List.getElem?_eq_none (by simp; omega), List.getElem?_eq_none (by omega)]

theorem lt_of_term? {c : FunctionContext} {t : TermId} {term : Terminal}
    (h : c.term? t = some term) : t.index < c.terms.length :=
  (List.getElem?_eq_some_iff.1 h).1

theorem mem_terms_of_term? {c : FunctionContext} {t : TermId} {term : Terminal}
    (h : c.term? t = some term) : term ∈ c.terms :=
  List.mem_of_getElem? h

theorem exists_term?_of_mem {c : FunctionContext} {term : Terminal} (h : term ∈ c.terms) :
    ∃ t, c.term? t = some term := by
  obtain ⟨i, hi⟩ := List.getElem?_of_mem h
  exact ⟨⟨i⟩, hi⟩

theorem term?_pushTerm_of_some {c : FunctionContext} {t : TermId} {term : Terminal}
    (h : c.term? t = some term) (new : Terminal) : (c.pushTerm new).2.term? t = some term := by
  rw [term?_pushTerm, if_neg (Nat.ne_of_lt (lt_of_term? h)), h]

@[simp]
theorem term?_modifyTerm (t u : TermId) (f : Terminal → Terminal) :
    (c.modifyTerm t f).term? u = if t = u then (c.term? u).map f else c.term? u := by
  obtain ⟨i⟩ := t
  obtain ⟨j⟩ := u
  simp only [modifyTerm, term?, List.getElem?_modify, TermId.mk.injEq]
  split <;> simp

theorem mem_terms_pushTerm {term new : Terminal} :
    term ∈ (c.pushTerm new).2.terms ↔ term ∈ c.terms ∨ term = new := by
  simp [pushTerm]

theorem of_mem_terms_modifyTerm {t : TermId} {f : Terminal → Terminal} {term : Terminal}
    (h : term ∈ (c.modifyTerm t f).terms) : ∃ old ∈ c.terms, term = old ∨ term = f old := by
  obtain ⟨u, hu⟩ := exists_term?_of_mem h
  rw [term?_modifyTerm] at hu
  split at hu
  · obtain ⟨old, hold, rfl⟩ := Option.map_eq_some_iff.1 hu
    exact ⟨old, mem_terms_of_term? hold, .inr rfl⟩
  · exact ⟨term, mem_terms_of_term? hu, .inl rfl⟩

/-- A terminal that was just made may as well be made as it is changed. -/
theorem modifyTerm_pushTerm (term : Terminal) {f : Terminal → Terminal}
    (hf : (f term).kind = term.kind) :
    (c.pushTerm term).2.modifyTerm (c.pushTerm term).1 f = (c.pushTerm (f term)).2 := by
  have hterms : (c.terms ++ [term]).modify c.terms.length f = c.terms ++ [f term] := by
    rw [List.modify_eq_set_getElem?]
    simp
  unfold pushTerm modifyTerm
  dsimp only
  rw [terms_enlist, hf, hterms]
  cases term.kind <;> rfl

@[simp]
theorem length_terms_modifyTerm (t : TermId) (f : Terminal → Terminal) :
    (c.modifyTerm t f).terms.length = c.terms.length := by
  simp [modifyTerm]

/-! ## All but the terminals -/

/-- The function without what its nodes add to it. -/
def outline (c : FunctionContext) : FunctionContext where
  functionName := c.functionName
  graph := c.graph
  flags := c.flags
  delegateSignatureName := c.delegateSignatureName
  netFlags := c.netFlags
  stub := c.stub
  entryPoint := c.entryPoint
  executionList := c.executionList

section Outline

variable {c d : FunctionContext} (h : d.outline = c.outline)
include h

theorem functionName_of_outline : d.functionName = c.functionName :=
  (congrArg FunctionContext.functionName h :)

theorem graph_of_outline : d.graph = c.graph := (congrArg FunctionContext.graph h :)

theorem flags_of_outline : d.flags = c.flags := (congrArg FunctionContext.flags h :)

theorem delegateSignatureName_of_outline : d.delegateSignatureName = c.delegateSignatureName :=
  (congrArg FunctionContext.delegateSignatureName h :)

theorem stub_of_outline : d.stub = c.stub := (congrArg FunctionContext.stub h :)

theorem entryPoint_of_outline : d.entryPoint = c.entryPoint :=
  (congrArg FunctionContext.entryPoint h :)

theorem executionList_of_outline : d.executionList = c.executionList :=
  (congrArg FunctionContext.executionList h :)

end Outline

theorem outline_pushTerm (term : Terminal) : (c.pushTerm term).2.outline = c.outline := by
  cases h : term.kind <;> simp only [pushTerm, enlist, h] <;> rfl

theorem failed_pushTerm (term : Terminal) : (c.pushTerm term).2.failed = c.failed := by
  cases h : term.kind <;> simp only [pushTerm, enlist, h]

theorem nodeStatements_pushTerm (term : Terminal) :
    (c.pushTerm term).2.nodeStatements = c.nodeStatements := by
  cases h : term.kind <;> simp only [pushTerm, enlist, h]

theorem graph_pushTerm (term : Terminal) : (c.pushTerm term).2.graph = c.graph :=
  graph_of_outline (c.outline_pushTerm term)

/-! ## Lists by kind -/

/-- The list of the terminals of a kind. -/
def listOf : TermKind → List TermId
  | .parameter => c.parameters
  | .result => c.results
  | .frameLocal => c.locals
  | .eventGraphLocal => c.eventGraphLocals
  | .literal => c.literals
  | .memberReference => c.variableReferences
  | .userLocal => c.userLocals

def kindIs (t : TermId) (kind : TermKind) : Bool := (c.term? t).any (·.kind = kind)

/-- Every terminal stands on the list of its kind and on no other, in the order in which they
were made. -/
def Enlisted : Prop :=
  ∀ kind, c.listOf kind = ((List.range c.terms.length).map TermId.mk).filter (c.kindIs · kind)

theorem listOf_enlist (t : TermId) (kind kind' : TermKind) :
    (c.enlist t kind).listOf kind' =
      if kind = kind' then c.listOf kind' ++ [t] else c.listOf kind' := by
  cases kind <;> cases kind' <;> rfl

theorem listOf_pushTerm (term : Terminal) (kind : TermKind) :
    (c.pushTerm term).2.listOf kind =
      if term.kind = kind then c.listOf kind ++ [⟨c.terms.length⟩] else c.listOf kind := by
  simp only [pushTerm, listOf_enlist]
  cases kind <;> rfl

namespace Enlisted

variable {c}

theorem pushTerm (h : c.Enlisted) (term : Terminal) : (c.pushTerm term).2.Enlisted := by
  intro kind
  have hold : ∀ t ∈ (List.range c.terms.length).map TermId.mk,
      (c.pushTerm term).2.kindIs t kind = c.kindIs t kind := by
    intro t ht
    obtain ⟨i, hi, rfl⟩ := List.mem_map.1 ht
    rw [kindIs, term?_pushTerm, if_neg (Nat.ne_of_lt (List.mem_range.1 hi))]
    rfl
  have hnew : (c.pushTerm term).2.kindIs ⟨c.terms.length⟩ kind = decide (term.kind = kind) := by
    rw [kindIs, term?_pushTerm, if_pos rfl]
    rfl
  have hlength : (c.pushTerm term).2.terms.length = c.terms.length + 1 := by
    simp [FunctionContext.pushTerm]
  rw [listOf_pushTerm, hlength, List.range_succ, List.map_append, List.filter_append,
    List.filter_congr hold, ← h kind, List.map_singleton]
  by_cases hkind : term.kind = kind <;> simp [hkind, hnew]

/-- Changing a terminal but for its kind leaves it on its list. -/
theorem modifyTerm (h : c.Enlisted) (t : TermId) {f : Terminal → Terminal}
    (hf : ∀ term, (f term).kind = term.kind) : (c.modifyTerm t f).Enlisted := by
  intro kind
  have hkind : ∀ u, (c.modifyTerm t f).kindIs u kind = c.kindIs u kind := by
    intro u
    rw [kindIs, term?_modifyTerm]
    split
    · simp [kindIs, Option.any_map, hf]
    · rfl
  have hlist : (c.modifyTerm t f).listOf kind = c.listOf kind := by cases kind <;> rfl
  rw [hlist, h kind, length_terms_modifyTerm]
  exact List.filter_congr fun u _ ↦ (hkind u).symm

theorem mem_listOf (h : c.Enlisted) (kind : TermKind) {t : TermId} :
    t ∈ c.listOf kind ↔ ∃ term, c.term? t = some term ∧ term.kind = kind := by
  rw [h kind, List.mem_filter]
  simp only [kindIs, Option.any_eq_true, decide_eq_true_eq]
  refine and_iff_right_of_imp ?_
  rintro ⟨term, hterm, -⟩
  exact List.mem_map.2 ⟨t.index, List.mem_range.2 (lt_of_term? hterm), rfl⟩

theorem nodup_listOf (h : c.Enlisted) (kind : TermKind) : (c.listOf kind).Nodup := by
  rw [h kind]
  refine List.Nodup.filter _ (List.Nodup.map (fun i j hij ↦ ?_) List.nodup_range)
  simpa using hij

/-- No terminal stands on the lists of two kinds. -/
theorem disjoint_listOf (h : c.Enlisted) {kind kind' : TermKind} (hne : kind ≠ kind') :
    (c.listOf kind).Disjoint (c.listOf kind') := by
  intro t ht ht'
  obtain ⟨term, hterm, rfl⟩ := (h.mem_listOf _).1 ht
  obtain ⟨term', hterm', rfl⟩ := (h.mem_listOf _).1 ht'
  rw [hterm] at hterm'
  exact hne (Option.some.inj hterm' ▸ rfl)

end Enlisted

/-! ## Names -/

/-- There is a terminal of this kind and name. -/
def HasTerm (kind : TermKind) (name : String) : Prop :=
  ∃ t term, c.term? t = some term ∧ term.kind = kind ∧ term.name = name

variable {c} in
theorem HasTerm.pushTerm {kind : TermKind} {name : String} (h : c.HasTerm kind name)
    (new : Terminal) : (c.pushTerm new).2.HasTerm kind name := by
  obtain ⟨t, term, hterm, hkind⟩ := h
  exact ⟨t, term, term?_pushTerm_of_some hterm new, hkind⟩

variable {c} in
theorem Enlisted.findNamed?_isSome (h : c.Enlisted) (kind : TermKind) {name : String} :
    (c.findNamed? name (c.listOf kind)).isSome ↔ c.HasTerm kind name := by
  simp only [findNamed?, List.find?_isSome, Option.any_eq_true, beq_iff_eq]
  constructor
  · rintro ⟨t, ht, term, hterm, hname⟩
    obtain ⟨term', hterm', hkind⟩ := (h.mem_listOf _).1 ht
    rw [hterm] at hterm'
    cases hterm'
    exact ⟨t, term, hterm, hkind, hname⟩
  · rintro ⟨t, term, hterm, hkind, hname⟩
    exact ⟨t, (h.mem_listOf _).2 ⟨term, hterm, hkind⟩, term, hterm, hname⟩

/-! ## Nets -/

/-- Every net leads from a pin to a terminal, and that of an input is a literal. -/
def NetsTyped : Prop :=
  ∀ p t, c.net? p = some t → ∃ pin term, c.graph.pin? p = some pin ∧ c.term? t = some term ∧
    (pin.direction = .input → term.kind = .literal)

@[simp]
theorem net?_setNet (p q : PinId) (t : TermId) :
    (c.setNet p t).net? q = if q = p then some t else c.net? q :=
  Assoc.lookup_set p q t c.netMap

@[simp]
theorem net?_pushTerm (term : Terminal) (p : PinId) : (c.pushTerm term).2.net? p = c.net? p := by
  simp [net?, pushTerm]

namespace NetsTyped

variable {c}

theorem pushTerm (h : c.NetsTyped) (new : Terminal) : (c.pushTerm new).2.NetsTyped := by
  intro p t ht
  rw [net?_pushTerm] at ht
  obtain ⟨pin, term, hpin, hterm, hkind⟩ := h p t ht
  exact ⟨pin, term, by rwa [graph_pushTerm], term?_pushTerm_of_some hterm new, hkind⟩

theorem setNet (h : c.NetsTyped) {p : PinId} {t : TermId} {pin : Pin} {term : Terminal}
    (hpin : c.graph.pin? p = some pin) (hterm : c.term? t = some term)
    (hkind : pin.direction = .input → term.kind = .literal) : (c.setNet p t).NetsTyped := by
  intro q u hu
  rw [net?_setNet] at hu
  split at hu
  · next hq =>
    cases hu
    exact ⟨pin, term, hq ▸ hpin, hterm, hkind⟩
  · exact h q u hu

theorem modifyTerm (h : c.NetsTyped) (t : TermId) {f : Terminal → Terminal}
    (hf : ∀ term, (f term).kind = term.kind) : (c.modifyTerm t f).NetsTyped := by
  intro p u hu
  obtain ⟨pin, term, hpin, hterm, hkind⟩ := h p u hu
  by_cases heq : t = u
  · exact ⟨pin, f term, hpin, by simp [heq, hterm], fun hin ↦ (hf term).trans (hkind hin)⟩
  · exact ⟨pin, term, hpin, by simp [heq, hterm], hkind⟩

end NetsTyped

end FunctionContext

/-!
## Names that nets keep

A net that has a name keeps it, however many names are made after it, and every name is
made from that of a pin.
-/

namespace NetNameMap

/-- A name that is made for a pin, with a number behind it if it was used before. -/
def Made (name : String) : Prop :=
  ∃ g p, name = baseName g p ∨ ∃ k : Nat, name = baseName g p ++ "_" ++ toString k

/-- Every net that has a name keeps it, and other nets get names that are made for them. -/
structure Extends (m m' : NetNameMap) : Prop where
  kept : ∀ p name, m.get? p = some name → m'.get? p = some name
  made : ∀ p name, m'.get? p = some name → m.get? p = some name ∨ Made name

theorem Extends.refl (m : NetNameMap) : m.Extends m := ⟨fun _ _ ↦ id, fun _ _ ↦ .inl⟩

theorem Extends.trans {m m' m'' : NetNameMap} (h : m.Extends m') (h' : m'.Extends m'') :
    m.Extends m'' where
  kept p name hname := h'.kept p name (h.kept p name hname)
  made p name hname := by
    rcases h'.made p name hname with hold | hmade
    · exact h.made p name hold
    · exact .inr hmade

variable (m : NetNameMap) (g : Graph) (p : PinId)

theorem made_firstUnused (used : List String) (k fuel : Nat) {name : String}
    (hname : name = baseName g p ∨ ∃ k : Nat, name = baseName g p ++ "_" ++ toString k) :
    Made (firstUnused used (baseName g p) name k fuel) := by
  induction fuel generalizing name k with
  | zero => exact ⟨g, p, hname⟩
  | succ fuel ih =>
    unfold firstUnused
    split
    · exact ih (k + 1) (.inr ⟨k, rfl⟩)
    · exact ⟨g, p, hname⟩

theorem get?_nameOf : (m.nameOf g p).2.get? p = some (m.nameOf g p).1 := by
  unfold nameOf
  cases h : m.get? p with
  | some name => exact h
  | none => exact (Assoc.lookup_set _ _ _ _).trans (if_pos rfl)

theorem extends_nameOf : m.Extends (m.nameOf g p).2 := by
  unfold nameOf
  cases h : m.get? p with
  | some name' => exact .refl m
  | none =>
    refine ⟨fun q name hq ↦ ?_, fun q name hq ↦ ?_⟩
    · have hne : q ≠ p := by
        rintro rfl
        rw [h] at hq
        cases hq
      exact (Assoc.lookup_set _ _ _ _).trans ((if_neg hne).trans hq)
    · replace hq := (Assoc.lookup_set _ _ _ _).symm.trans hq
      split at hq
      · cases hq
        exact .inr (made_firstUnused g p _ _ _ (.inl rfl))
      · exact .inl hq

variable {m g p}

/-- A net that has a name is found under it. -/
theorem nameOf_of_get? {name : String} (h : m.get? p = some name) : (m.nameOf g p).1 = name := by
  rw [nameOf, h]

end NetNameMap

end VisualScript
