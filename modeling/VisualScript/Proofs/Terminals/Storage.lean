import VisualScript.Compile.Precompile
import VisualScript.Proofs.Terminals.Properties
import VisualScript.Proofs.Terminals.Variables

/-!
# Where terminals are stored

Terminals of the frame are stored in properties of the function, nets of the
event graph in properties of the class.  Storage once made stays while the class
grows.
-/

namespace VisualScript

/-! ## Stored terminals -/

namespace FunctionContext

/-- The terminals of the frame, in the order in which they become properties. -/
def frameTerms (c : FunctionContext) : List TermId :=
  (c.parameters ++ c.results) ++ (c.locals ++ c.userLocals)

/-- The lists that make up the frame, with the flags of their properties. -/
def frameLists (c : FunctionContext) : List (List TermId × PropertyFlags) :=
  [(c.parameters, PropertyFlags.parm), (c.results, PropertyFlags.parm),
    (c.locals ++ c.userLocals, .empty)]

theorem flatMap_frameLists (c : FunctionContext) : c.frameLists.flatMap (·.1) = c.frameTerms := by
  simp [frameLists, frameTerms]

/-- Every terminal has storage of its own. -/
structure Stored (c : FunctionContext) (cls : Class) : Prop where
  frame : ∃ f, cls.findOwnFunction? c.functionName = some f ∧ ∀ t term,
    c.term? t = some term → term.isLocal = true → (f.findProperty? term.name).isSome
  onClass : ∀ name, c.HasTerm .eventGraphLocal name → (cls.findOwnProperty? name).isSome
  members : ∀ term ∈ c.terms, term.kind = .memberReference →
    (cls.findProperty? term.name).isSome ∨ c.graph.NamesExplicitly term.name
  frameNames : ∀ t u term term', c.term? t = some term → c.term? u = some term' →
    term.isLocal = true → term'.isLocal = true → term.name = term'.name → t = u
  classNames : ∀ t u term term', c.term? t = some term → c.term? u = some term' →
    term.kind = .eventGraphLocal → term'.kind = .eventGraphLocal → term.name = term'.name → t = u

theorem Settled.extend {c : FunctionContext} {cls cls' : Class} {n : NodeId}
    (h : c.Settled cls n) (hext : cls.Extends cls') : c.Settled cls' n := fun var hvar ↦
  ⟨(h var hvar).term, (h var hvar).found.imp_right (Or.imp_right hext.findProperty?)⟩

theorem Stored.extend {c : FunctionContext} {cls cls' : Class} (h : c.Stored cls)
    (hext : cls.Extends cls') : c.Stored cls' where
  frame := by
    obtain ⟨f, hf, hframe⟩ := h.frame
    obtain ⟨g, hg, hfg⟩ := hext.function _ f hf
    exact ⟨g, hg, fun t term ht hlocal ↦ hfg.2 _ (hframe t term ht hlocal)⟩
  onClass name hname := hext.property name (h.onClass name hname)
  members term hterm hkind := (h.members term hterm hkind).imp_left hext.findProperty?
  frameNames := h.frameNames
  classNames := h.classNames

namespace SameShape

variable {c d : FunctionContext} (h : SameShape c d)
include h

theorem exists_term? {t : TermId} {term : Terminal} (hd : d.term? t = some term) :
    ∃ old, c.term? t = some old ∧ old.name = term.name ∧ old.kind = term.kind := by
  have hshape := h.shape t
  rw [hd, Option.map_some] at hshape
  obtain ⟨old, hold, heq⟩ := Option.map_eq_some_iff.1 hshape.symm
  exact ⟨old, hold, congrArg Prod.fst heq, congrArg (·.2.1) heq⟩

theorem hasTerm {kind : TermKind} {name : String} : d.HasTerm kind name ↔ c.HasTerm kind name := by
  simp only [HasTerm]
  refine exists_congr fun t ↦ ?_
  have hshape := h.shape t
  cases hd : d.term? t <;> cases hc : c.term? t <;> simp_all [shapeOf]

theorem enlisted (hc : c.Enlisted) : d.Enlisted := by
  intro kind
  have hlength : d.terms.length = c.terms.length := by
    rw [← List.length_map shapeOf, h.shapes, List.length_map]
  have hkind : ∀ t, d.kindIs t kind = c.kindIs t kind := by
    intro t
    have hmap (c : FunctionContext) :
        c.kindIs t kind = ((c.term? t).map shapeOf).any (·.2.1 = kind) := by
      rw [Option.any_map]
      rfl
    rw [hmap, hmap, h.shape]
  have hlist : d.listOf kind = c.listOf kind := by
    rw [h.eq]
    cases kind <;> rfl
  rw [hlist, hc kind, hlength]
  exact List.filter_congr fun t _ ↦ (hkind t).symm

theorem netsTyped (hc : c.NetsTyped) : d.NetsTyped := by
  have hnet : d.net? = c.net? := by rw [h.eq]; rfl
  have hgraph : d.graph = c.graph := by rw [h.eq]
  intro p t ht
  rw [hnet] at ht
  obtain ⟨pin, term, hpin, hterm, hkind⟩ := hc p t ht
  obtain ⟨new, hnew, hagrees⟩ := h.agrees hterm
  exact ⟨pin, new, by rwa [hgraph], hnew, fun hin ↦ hagrees.kind.trans (hkind hin)⟩

theorem settled {cls : Class} {n : NodeId} (hc : c.Settled cls n) : d.Settled cls n := by
  have hgraph : d.graph = c.graph := by rw [h.eq]
  intro var hvar
  rw [hgraph] at hvar
  obtain ⟨hterm, hfound⟩ := hc var hvar
  exact ⟨hterm.imp h.hasTerm.2 h.hasTerm.2, hfound.imp_right (Or.imp_left h.hasTerm.2)⟩

/-- Storage is found by name and kind. -/
theorem stored {cls : Class} (hc : c.Stored cls) : d.Stored cls where
  frame := by
    obtain ⟨f, hf, hframe⟩ := hc.frame
    have hfunction : d.functionName = c.functionName := by rw [h.eq]
    refine ⟨f, hfunction ▸ hf, fun t term hterm hlocal ↦ ?_⟩
    obtain ⟨old, hold, hname, hkind⟩ := h.exists_term? hterm
    rw [← hname]
    exact hframe t old hold (by rwa [Terminal.isLocal, hkind])
  onClass name hname := hc.onClass name (h.hasTerm.1 hname)
  members term hterm hmember := by
    obtain ⟨t, ht⟩ := exists_term?_of_mem hterm
    obtain ⟨old, hold, hname, hkind⟩ := h.exists_term? ht
    have hgraph : d.graph = c.graph := by rw [h.eq]
    rw [← hname, hgraph]
    exact hc.members old (mem_terms_of_term? hold) (hkind.trans hmember)
  frameNames t u term term' ht hu hlocal hlocal' heq := by
    obtain ⟨old, hold, hname, hkind⟩ := h.exists_term? ht
    obtain ⟨old', hold', hname', hkind'⟩ := h.exists_term? hu
    exact hc.frameNames t u old old' hold hold' (by rwa [Terminal.isLocal, hkind])
      (by rwa [Terminal.isLocal, hkind']) (by rw [hname, hname', heq])
  classNames t u term term' ht hu hclass hclass' heq := by
    obtain ⟨old, hold, hname, hkind⟩ := h.exists_term? ht
    obtain ⟨old', hold', hname', hkind'⟩ := h.exists_term? hu
    exact hc.classNames t u old old' hold hold' (hkind.trans hclass) (hkind'.trans hclass')
      (by rw [hname, hname', heq])

end SameShape

section Enlisted

variable {c : FunctionContext} (h : c.Enlisted)
include h

theorem Enlisted.mem_frameTerms {t : TermId} :
    t ∈ c.frameTerms ↔ ∃ term, c.term? t = some term ∧ term.isLocal = true := by
  have hparameter := h.mem_listOf (t := t) .parameter
  have hresult := h.mem_listOf (t := t) .result
  have hlocal := h.mem_listOf (t := t) .frameLocal
  have huser := h.mem_listOf (t := t) .userLocal
  simp only [listOf] at hparameter hresult hlocal huser
  simp only [frameTerms, List.mem_append, hparameter, hresult, hlocal, huser]
  constructor
  · rintro ((⟨term, hterm, hkind⟩ | ⟨term, hterm, hkind⟩) |
      (⟨term, hterm, hkind⟩ | ⟨term, hterm, hkind⟩)) <;>
      exact ⟨term, hterm, by simp [Terminal.isLocal, hkind]⟩
  · rintro ⟨term, hterm, hkind⟩
    unfold Terminal.isLocal at hkind
    split at hkind <;> simp_all

theorem Enlisted.nodup_frameTerms : c.frameTerms.Nodup := by
  have hnodup := h.nodup_listOf
  have hdisjoint (kind kind' : TermKind) (hne : kind ≠ kind') := h.disjoint_listOf hne
  have hfirst : (c.parameters ++ c.results).Nodup :=
    List.nodup_append'.2 ⟨hnodup .parameter, hnodup .result,
      hdisjoint .parameter .result (by decide)⟩
  have hsecond : (c.locals ++ c.userLocals).Nodup :=
    List.nodup_append'.2 ⟨hnodup .frameLocal, hnodup .userLocal,
      hdisjoint .frameLocal .userLocal (by decide)⟩
  refine List.nodup_append'.2 ⟨hfirst, hsecond, ?_⟩
  rw [List.disjoint_append_left, List.disjoint_append_right, List.disjoint_append_right]
  exact ⟨⟨hdisjoint .parameter .frameLocal (by decide), hdisjoint .parameter .userLocal (by decide)⟩,
    hdisjoint .result .frameLocal (by decide), hdisjoint .result .userLocal (by decide)⟩

end Enlisted

theorem nameOf_of_term? {c : FunctionContext} {t : TermId} {term : Terminal}
    (h : c.term? t = some term) : c.nameOf t = term.name := by
  rw [nameOf, h]
  rfl

/-- Terminals of a list whose names differ are the same if they have the same name. -/
theorem eq_of_nodup_names {c : FunctionContext} {ts : List TermId}
    (h : (ts.map c.nameOf).Nodup) {t u : TermId} (ht : t ∈ ts) (hu : u ∈ ts) {term term' : Terminal}
    (hterm : c.term? t = some term) (hterm' : c.term? u = some term')
    (hname : term.name = term'.name) : t = u := by
  refine List.inj_on_of_nodup_map h ht hu ?_
  rw [nameOf_of_term? hterm, nameOf_of_term? hterm', hname]

end FunctionContext

namespace FunctionState

open FunctionContext PropertyState

/-! ## Making the properties -/

/-- The frame of the function with a property for each of its terminals. -/
def frameProperties (s : FunctionState) (f : Function) : PropertyState Function :=
  addLists ⟨f, s.ctx, s.log⟩ s.ctx.frameLists

/-- The state with that frame on the class. -/
def withFrame (s : FunctionState) (f : Function) : FunctionState :=
  { s with
    cls := s.cls.modifyFunction s.ctx.functionName fun _ ↦ (s.frameProperties f).scope
    ctx := (s.frameProperties f).ctx
    log := (s.frameProperties f).log }

/-- The class with a property for each of these terminals. -/
def classProperties (s : FunctionState) (ts : List TermId) : PropertyState Class :=
  addTerms ⟨s.cls, s.ctx, s.log⟩ ts .empty

theorem createProperties_eq {s : FunctionState} {f : Function}
    (hf : s.cls.findOwnFunction? s.ctx.functionName = some f) :
    s.createProperties = { s.withFrame f with
      cls := ((s.withFrame f).classProperties s.ctx.eventGraphLocals).scope
      ctx := ((s.withFrame f).classProperties s.ctx.eventGraphLocals).ctx
      log := ((s.withFrame f).classProperties s.ctx.eventGraphLocals).log } := by
  simp only [createProperties, hf]
  rfl

section Properties

variable {s : FunctionState} {f : Function}

theorem extends_frameProperties (s : FunctionState) (f : Function) :
    f.Extends (s.frameProperties f).scope := by
  refine scope_addLists _ (fun {a b p} hlink ha ↦ ?_) (.refl f)
  obtain ⟨-, rfl⟩ := Function.addProperty_eq_ok hlink
  refine ha.trans ⟨rfl, fun name hname ↦ ?_⟩
  rw [Function.findProperty?_isSome] at hname ⊢
  rw [List.map_append]
  exact List.mem_append_left _ hname

theorem extends_classProperties (s : FunctionState) (ts : List TermId) :
    s.cls.Extends (s.classProperties ts).scope :=
  scope_addTerms (fun hlink ha ↦ ha.trans (Class.extends_linkProperty hlink)) (.refl s.cls) _ _

/-- Without an error the terminals of the frame are linked in turn. -/
theorem links_frameProperties (henlisted : s.ctx.Enlisted)
    (hfresh : ∀ term ∈ s.ctx.terms, term.associatedProperty = none)
    (hlog : (s.frameProperties f).log.numErrors ≤ s.log.numErrors) :
    Links f (listItems s.ctx s.ctx.frameLists) (s.frameProperties f).scope := by
  have hlists := flatMap_frameLists s.ctx
  refine links_addLists (s := ⟨f, s.ctx, s.log⟩) (hlists ▸ henlisted.nodup_frameTerms)
    (fun t ht ↦ ?_) hlog
  rw [hlists] at ht
  obtain ⟨term, hterm, -⟩ := henlisted.mem_frameTerms.1 ht
  exact ⟨term, hterm, hfresh term (mem_terms_of_term? hterm)⟩

/-- Without an error the frame gains the names of its terminals. -/
theorem gains_frameProperties (henlisted : s.ctx.Enlisted)
    (hfresh : ∀ term ∈ s.ctx.terms, term.associatedProperty = none)
    (hlog : (s.frameProperties f).log.numErrors ≤ s.log.numErrors) :
    Gains f (s.frameProperties f).scope (s.ctx.frameTerms.map s.ctx.nameOf) := by
  have hgains := (links_frameProperties henlisted hfresh hlog).gains
  rwa [map_fst_listItems, flatMap_frameLists] at hgains

/-- Without an error the parameters of the function are the parameters and the results. -/
theorem parameters_frameProperties (henlisted : s.ctx.Enlisted)
    (hfresh : ∀ term ∈ s.ctx.terms, term.associatedProperty = none)
    (hlog : (s.frameProperties f).log.numErrors ≤ s.log.numErrors) (hf : f.properties = []) :
    (s.frameProperties f).scope.parameters.map (·.name) =
      (s.ctx.parameters ++ s.ctx.results).map s.ctx.nameOf := by
  have hparm : PropertyFlags.parm.contains PropertyFlags.parm = true := by decide
  have hempty : (.empty : PropertyFlags).contains PropertyFlags.parm = false := by decide
  rw [(links_frameProperties henlisted hfresh hlog).parameters, Function.parameters, hf]
  simp [listItems, frameLists, hparm, hempty, List.filter_map, Function.comp_def]

/-- Without an error the class gains the names of the nets of the event graph. -/
theorem gains_classProperties (henlisted : s.ctx.Enlisted)
    (hfresh : ∀ term ∈ s.ctx.terms, term.associatedProperty = none)
    (hlog : ((s.withFrame f).classProperties s.ctx.eventGraphLocals).log.numErrors ≤
      (s.withFrame f).log.numErrors) :
    Gains (s.withFrame f).cls ((s.withFrame f).classProperties s.ctx.eventGraphLocals).scope
      (s.ctx.eventGraphLocals.map s.ctx.nameOf) := by
  have hmem {t : TermId} (ht : t ∈ s.ctx.eventGraphLocals) :=
    (henlisted.mem_listOf .eventGraphLocal).1 ht
  have hold : ∀ t ∈ s.ctx.eventGraphLocals, (s.withFrame f).ctx.term? t = s.ctx.term? t := by
    intro t ht
    obtain ⟨term, hterm, hkind⟩ := hmem ht
    refine term?_addLists_of_notMem _ ?_ (⟨f, s.ctx, s.log⟩ : PropertyState Function)
    rw [flatMap_frameLists, henlisted.mem_frameTerms]
    rintro ⟨term', hterm', hlocal⟩
    rw [hterm] at hterm'
    cases hterm'
    simp [Terminal.isLocal, hkind] at hlocal
  have hnames : s.ctx.eventGraphLocals.map (s.withFrame f).ctx.nameOf =
      s.ctx.eventGraphLocals.map s.ctx.nameOf :=
    List.map_congr_left fun t ht ↦ by rw [nameOf, nameOf, hold t ht]
  rw [← hnames]
  refine gains_addTerms (s := ⟨(s.withFrame f).cls, (s.withFrame f).ctx, (s.withFrame f).log⟩)
    (henlisted.nodup_listOf .eventGraphLocal) (fun t ht ↦ ?_) hlog
  obtain ⟨term, hterm, -⟩ := hmem ht
  exact ⟨term, (hold t ht).trans hterm, hfresh term (mem_terms_of_term? hterm)⟩

theorem extends_withFrame (hf : s.cls.findOwnFunction? s.ctx.functionName = some f) :
    s.cls.Extends (s.withFrame f).cls := by
  have hname : (s.frameProperties f).scope.name = s.ctx.functionName :=
    (extends_frameProperties s f).1.trans (Class.name_of_findOwnFunction? hf)
  refine Class.extends_modifyFunction (fun _ _ ↦ hname) fun g hg ↦ ?_
  rw [hf] at hg
  cases hg
  exact extends_frameProperties s f

theorem findOwnFunction?_withFrame (hf : s.cls.findOwnFunction? s.ctx.functionName = some f) :
    (s.withFrame f).cls.findOwnFunction? s.ctx.functionName = some (s.frameProperties f).scope := by
  have hname : (s.frameProperties f).scope.name = s.ctx.functionName :=
    (extends_frameProperties s f).1.trans (Class.name_of_findOwnFunction? hf)
  refine (Class.findOwnFunction?_modifyFunction s.cls (fun _ _ ↦ hname) s.ctx.functionName).trans ?_
  rw [if_pos rfl, hf]
  rfl

/-- Making properties changes only terminals, and neither name nor kind of one. -/
theorem sameShape_createProperties (s : FunctionState) :
    s.ctx.SameShape s.createProperties.ctx := by
  cases hf : s.cls.findOwnFunction? s.ctx.functionName with
  | none =>
    simp only [createProperties, hf]
    exact sameShape_addTerms (σ := Class) ⟨s.cls, s.ctx, s.log⟩ _ _
  | some f =>
    rw [createProperties_eq hf]
    exact (sameShape_addLists _ (⟨f, s.ctx, s.log⟩ : PropertyState Function)).trans
      (sameShape_addTerms (σ := Class) ⟨(s.withFrame f).cls, (s.withFrame f).ctx, (s.withFrame f).log⟩
        _ _)

theorem numErrors_le_createProperties (s : FunctionState) :
    s.log.numErrors ≤ s.createProperties.log.numErrors := by
  cases hf : s.cls.findOwnFunction? s.ctx.functionName with
  | none =>
    simp only [createProperties, hf]
    exact numErrors_le_addTerms (σ := Class) ⟨s.cls, s.ctx, s.log⟩ _ _
  | some f =>
    rw [createProperties_eq hf]
    exact Nat.le_trans (numErrors_le_addLists _ (⟨f, s.ctx, s.log⟩ : PropertyState Function))
      (numErrors_le_addTerms (σ := Class) ⟨_, _, (s.withFrame f).log⟩ _ _)

theorem extends_createProperties (s : FunctionState) : s.cls.Extends s.createProperties.cls := by
  cases hf : s.cls.findOwnFunction? s.ctx.functionName with
  | none =>
    simp only [createProperties, hf]
    exact extends_classProperties s _
  | some f =>
    rw [createProperties_eq hf]
    exact (extends_withFrame hf).trans (extends_classProperties (s.withFrame f) _)

/-- Without an error every terminal has storage, and the nets of the event graph had none on the
class before. -/
theorem stored_createProperties (hf : s.cls.findOwnFunction? s.ctx.functionName = some f)
    (hs : s.Registered) (hfresh : ∀ term ∈ s.ctx.terms, term.associatedProperty = none)
    (hlog : s.createProperties.log.numErrors ≤ s.log.numErrors) :
    s.createProperties.ctx.Stored s.createProperties.cls ∧
      ∀ name, s.ctx.HasTerm .eventGraphLocal name → s.cls.findOwnProperty? name = none := by
  have hshape := sameShape_createProperties s
  have hext := extends_createProperties s
  have hle := numErrors_le_addLists s.ctx.frameLists (⟨f, s.ctx, s.log⟩ : PropertyState Function)
  have hle' := numErrors_le_addTerms (σ := Class)
    ⟨(s.withFrame f).cls, (s.withFrame f).ctx, (s.withFrame f).log⟩ s.ctx.eventGraphLocals .empty
  rw [createProperties_eq hf] at hlog hshape hext ⊢
  have hframe := gains_frameProperties (f := f) hs.enlisted hfresh (Nat.le_trans hle' hlog)
  have hclass := gains_classProperties (f := f) hs.enlisted hfresh (Nat.le_trans hlog hle)
  have hclassTerm {t : TermId} {term : Terminal} (ht : s.ctx.term? t = some term)
      (hkind : term.kind = .eventGraphLocal) : t ∈ s.ctx.eventGraphLocals :=
    (hs.enlisted.mem_listOf .eventGraphLocal).2 ⟨term, ht, hkind⟩
  have hframeTerm {t : TermId} {term : Terminal} (ht : s.ctx.term? t = some term)
      (hlocal : term.isLocal = true) : t ∈ s.ctx.frameTerms :=
    hs.enlisted.mem_frameTerms.2 ⟨term, ht, hlocal⟩
  have hname {ts : List TermId} {t : TermId} {term : Terminal} (ht : s.ctx.term? t = some term)
      (hmem : t ∈ ts) : term.name ∈ ts.map s.ctx.nameOf :=
    List.mem_map.2 ⟨t, hmem, nameOf_of_term? ht⟩
  refine ⟨hshape.stored ⟨?_, ?_, ?_, ?_, ?_⟩, ?_⟩
  · obtain ⟨g, hg, hext'⟩ := (extends_classProperties (s.withFrame f) _).function _ _
      (findOwnFunction?_withFrame hf)
    refine ⟨g, hg, fun t term ht hlocal ↦ hext'.2 _ ?_⟩
    rw [Function.findProperty?_isSome]
    exact (hframe.mem_iff _).2 (.inl (hname ht (hframeTerm ht hlocal)))
  · rintro name ⟨t, term, ht, hkind, rfl⟩
    rw [Class.findOwnProperty?_isSome]
    exact (hclass.mem_iff _).2 (.inl (hname ht (hclassTerm ht hkind)))
  · exact fun term hterm hkind ↦ (hs.members term hterm hkind).imp_left hext.findProperty?
  · exact fun t u term term' ht hu hlocal hlocal' heq ↦
      eq_of_nodup_names hframe.nodup (hframeTerm ht hlocal) (hframeTerm hu hlocal') ht hu heq
  · exact fun t u term term' ht hu hkind hkind' heq ↦
      eq_of_nodup_names hclass.nodup (hclassTerm ht hkind) (hclassTerm hu hkind') ht hu heq
  · rintro name ⟨t, term, ht, hkind, rfl⟩
    have hnot := hclass.notMem _ (hname ht (hclassTerm ht hkind))
    rw [← Option.not_isSome_iff_eq_none, Class.findOwnProperty?_isSome]
    exact hnot

end Properties

end FunctionState

/-!
## Parameters and results

The terminals of a kind keep the order in which they were made.  Nothing but the entry
makes parameters, so that those of a function are the data outputs of its entry.
-/

/-- The names of the data outputs of a node. -/
def Graph.dataOutputs (g : Graph) (n : NodeId) : List String :=
  (g.filteredPins n .output false).filterMap fun p ↦ (g.pin? p).map (·.name)

/-! ### Names by kind -/

namespace FunctionContext

/-- The names of the terminals of a kind, in the order in which they were made. -/
def namesOf (c : FunctionContext) (kind : TermKind) : List String :=
  (c.terms.filter (·.kind = kind)).map (·.name)

variable {c d : FunctionContext}

theorem namesOf_pushTerm (c : FunctionContext) (term : Terminal) (kind : TermKind) :
    (c.pushTerm term).2.namesOf kind =
      c.namesOf kind ++ if term.kind = kind then [term.name] else [] := by
  have hterms : (c.pushTerm term).2.terms = c.terms ++ [term] := by
    simp only [pushTerm, terms_enlist]
  rw [namesOf, hterms, List.filter_append, List.map_append, namesOf]
  by_cases hkind : term.kind = kind <;> simp [hkind]

theorem SameShape.namesOf (h : SameShape c d) (kind : TermKind) :
    d.namesOf kind = c.namesOf kind := by
  have hnames (c : FunctionContext) : c.namesOf kind =
      ((c.terms.map shapeOf).filter (·.2.1 = kind)).map (·.1) := by
    rw [List.filter_map, List.map_map]
    rfl
  rw [hnames, hnames, h.shapes]

/-- The list of a kind has the terminals of that kind in their order. -/
theorem Enlisted.map_nameOf_listOf (h : c.Enlisted) (kind : TermKind) :
    (c.listOf kind).map c.nameOf = c.namesOf kind := by
  have hall : (List.range c.terms.length).map (c.terms[·]?) = c.terms.map some := by
    refine List.ext_getElem (by simp) fun i hi _ ↦ ?_
    rw [List.length_map, List.length_range] at hi
    simp [hi]
  calc (c.listOf kind).map c.nameOf
    _ = (((List.range c.terms.length).map (c.terms[·]?)).filter (·.any (·.kind = kind))).map
          fun term? ↦ (term?.map (·.name)).getD "" := by
      rw [h kind, List.filter_map, List.filter_map, List.map_map, List.map_map]
      rfl
    _ = c.namesOf kind := by
      rw [hall, List.filter_map, List.map_map]
      rfl

end FunctionContext

namespace FunctionState

section Steps

variable {kinds : TermKind → Prop} {code : Prop} {n : NodeId} {s s' : FunctionState}
  {kind : TermKind}

/-- A step that makes no terminal of a kind leaves those that there are. -/
theorem NodeStep.namesOf (h : NodeStep kinds code n s s') (hnot : ¬kinds kind) :
    s'.ctx.namesOf kind = s.ctx.namesOf kind := by
  cases h with
  | push term hkinds =>
    have hne : term.kind ≠ kind := fun heq ↦ hnot (heq ▸ hkinds)
    rw [FunctionContext.namesOf_pushTerm, if_neg hne, List.append_nil]
  | touch t f hf => exact (FunctionContext.SameShape.modifyTerm s.ctx t fun u ↦ (hf u).1).namesOf kind
  | _ => rfl

theorem GraphSteps.namesOf (h : GraphSteps kinds code s s') (hnot : ¬kinds kind) :
    s'.ctx.namesOf kind = s.ctx.namesOf kind :=
  h.keeps (P := fun t ↦ t.ctx.namesOf kind = s.ctx.namesOf kind) rfl
    fun hstep ht ↦ (hstep.namesOf hnot).trans ht

end Steps

/-! ### Nodes in turn -/

section Nodes

variable {env : CompileEnv} {s : FunctionState}

/-- The data outputs of an entry are made parameters in their order. -/
theorem namesOf_registerEntry (s : FunctionState) (n : NodeId) :
    (FunctionEntry.register s n).ctx.namesOf .parameter =
      s.ctx.namesOf .parameter ++ s.graph.dataOutputs n := by
  have hfold (ps : List PinId) (t : FunctionState) (hgraph : t.graph = s.graph) :
      (ps.foldl FunctionEntry.registerParameter t).ctx.namesOf .parameter =
        t.ctx.namesOf .parameter ++ ps.filterMap fun p ↦ (s.graph.pin? p).map (·.name) := by
    induction ps generalizing t with
    | nil => exact (List.append_nil _).symm
    | cons p ps ih =>
      rw [List.foldl_cons]
      cases hpin : s.graph.pin? p with
      | none =>
        have hsame : FunctionEntry.registerParameter t p = t := by
          rw [FunctionEntry.registerParameter, hgraph, hpin]
        rw [hsame, ih t hgraph, List.filterMap_cons_none (by rw [hpin]; rfl)]
      | some pin =>
        have hpush : (FunctionEntry.registerParameter t p).ctx.namesOf .parameter =
              t.ctx.namesOf .parameter ++ [pin.name] ∧
            (FunctionEntry.registerParameter t p).graph = s.graph := by
          rw [FunctionEntry.registerParameter, hgraph, hpin]
          exact ⟨t.ctx.namesOf_pushTerm _ _, hgraph⟩
        rw [ih _ hpush.2, hpush.1, List.filterMap_cons_some (by rw [hpin]; rfl), List.append_assoc]
        rfl
  exact hfold _ s rfl

/-- Nodes that make no terminal of a kind leave those that there are. -/
theorem namesOf_foldl_registerNode {kind : TermKind} {l : List NodeId}
    (hnot : ∀ n ∈ l, ∀ node, s.graph.kind? n = some node → kind ∉ node.makes) :
    (l.foldl (registerNode env) s).ctx.namesOf kind = s.ctx.namesOf kind := by
  induction l generalizing s with
  | nil => rfl
  | cons n l ih =>
    obtain ⟨hfirst, hrest⟩ := List.forall_mem_cons.1 hnot
    have hgraph := (graphSteps_registerNode env s n).sameFunction.graph
    rw [List.foldl_cons, ih (by rwa [hgraph])]
    unfold registerNode
    split
    · next node hnode =>
      split
      · exact (steps_register hnode).graphSteps.namesOf (hfirst node hnode)
      · rfl
    · rfl

/-- Where there is one entry, its data outputs are the parameters. -/
theorem namesOf_registerNodes {entry : NodeId} {data : EntryData}
    (hnodup : s.ctx.executionList.Nodup) (hentry : entry ∈ s.ctx.executionList)
    (hkind : s.graph.kind? entry = some (.functionEntry data))
    (hhandles : env.handles (.functionEntry data) = true)
    (hone : ∀ n ∈ s.ctx.executionList, ∀ node, s.graph.kind? n = some node →
      n ≠ entry → .parameter ∉ node.makes) :
    (s.registerNodes env).ctx.namesOf .parameter =
      s.ctx.namesOf .parameter ++ s.graph.dataOutputs entry := by
  obtain ⟨before, after, hlist⟩ := List.append_of_mem hentry
  rw [hlist] at hnodup hone
  obtain ⟨-, hafter, hbefore⟩ := List.nodup_append'.1 hnodup
  have hfirst : GraphSteps (· ≠ .userLocal) False s (before.foldl (registerNode env) s) :=
    graphSteps_foldl before fun s n ↦ graphSteps_registerNode env s n
  have hgraph := hfirst.sameFunction.graph
  have hturn : registerNode env (before.foldl (registerNode env) s) entry =
      FunctionEntry.register (before.foldl (registerNode env) s) entry := by
    simp only [registerNode, hgraph, hkind, hhandles, if_true]
    rfl
  have hgraph' : (FunctionEntry.register (before.foldl (registerNode env) s) entry).graph =
      s.graph := by
    rw [← hturn, (graphSteps_registerNode env _ entry).sameFunction.graph, hgraph]
  rw [registerNodes_eq, hlist, List.foldl_append, List.foldl_cons, hturn,
    namesOf_foldl_registerNode fun n hn node hnode ↦ ?_, namesOf_registerEntry, hgraph,
    namesOf_foldl_registerNode fun n hn node hnode ↦ ?_]
  · refine hone n (List.mem_append_left _ hn) node hnode ?_
    rintro rfl
    exact hbefore hn List.mem_cons_self
  · rw [hgraph'] at hnode
    refine hone n (List.mem_append_right _ (List.mem_cons_of_mem _ hn)) node hnode ?_
    rintro rfl
    exact (List.nodup_cons.1 hafter).1 hn

end Nodes

end FunctionState

end VisualScript
