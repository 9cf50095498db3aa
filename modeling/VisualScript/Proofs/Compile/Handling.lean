import VisualScript.Compile.Emit
import VisualScript.Compile.Precompile
import VisualScript.Proofs.Code.Emission
import VisualScript.Proofs.Compile.Frames
import VisualScript.Proofs.Compile.Simplification
import VisualScript.Proofs.Compile.Twins
import VisualScript.Proofs.Terminals.Steps

/-!
# Handling twins

The functions of twin graphs keep the same terminals, nets and code through every handler and are
prepared alike.  A node that keeps its number names its nets alike; the entry of the event graph has
none to name.
-/

namespace VisualScript

/-- The terminal without what it stands for in the graph. -/
def Terminal.bare (t : Terminal) : Terminal := { t with source := none }

namespace Pin

variable (ρ : NodeId → NodeId) (p : Pin)

@[simp]
theorem name_renumber : (p.renumber ρ).name = p.name := rfl

@[simp]
theorem ty_renumber : (p.renumber ρ).ty = p.ty := rfl

@[simp]
theorem isLinked_renumber : (p.renumber ρ).isLinked = p.isLinked := rfl

@[simp]
theorem isMeta_renumber : (p.renumber ρ).isMeta = p.isMeta := rfl

@[simp]
theorem direction_renumber : (p.renumber ρ).direction = p.direction := rfl

end Pin

namespace Graph.Twin

variable {ρ : NodeId → NodeId} {loose : NodeId → Prop} {shared : PinId → Prop} {g h : Graph}
  {n : NodeId} {p : PinId}

/-- A pin of a node that keeps its number names its net alike. -/
theorem nameOf_eq (ht : Twin ρ loose shared g h) (hp : shared p)
    (hkeeps : ∀ pin, g.pin? p = some pin → ρ pin.owner = pin.owner) (names : NetNameMap) :
    names.nameOf h p = names.nameOf g p := by
  have hbase : NetNameMap.baseName h p = NetNameMap.baseName g p := by
    unfold NetNameMap.baseName
    rw [ht.pin p hp]
    cases hpin : g.pin? p with
    | none => rfl
    | some pin =>
      have howner := ht.kind?_eq (ht.owner p pin hpin)
      rw [hkeeps pin hpin] at howner
      rw [Option.map_some]
      dsimp only
      rw [show (pin.renumber ρ).owner = ρ pin.owner from rfl, hkeeps pin hpin, howner,
        show (pin.renumber ρ).name = pin.name from rfl]
  rw [NetNameMap.nameOf, NetNameMap.nameOf, hbase]

end Graph.Twin

namespace FunctionContext

/-! ## What does not depend on numbers -/

/-- The function without its nodes. -/
def core (c : FunctionContext) : FunctionContext :=
  { c with
    graph := .empty ""
    entryPoint := none
    executionList := []
    terms := c.terms.map Terminal.bare
    nodeStatements := []
    nodeLabels := [] }

theorem term?_core (c : FunctionContext) (t : TermId) :
    c.core.term? t = (c.term? t).map Terminal.bare := by
  simp [term?, core]

theorem pushTerm_core (c : FunctionContext) (term : Terminal) :
    (c.pushTerm term).2.core = (c.core.pushTerm term.bare).2 ∧
      (c.pushTerm term).1 = (c.core.pushTerm term.bare).1 := by
  cases hkind : term.kind <;>
    simp [pushTerm, core, enlist, hkind, show term.bare.kind = term.kind from rfl]

theorem modifyTerm_core (c : FunctionContext) (t : TermId) {f : Terminal → Terminal}
    (hf : ∀ term, (f term).bare = f term.bare) :
    (c.modifyTerm t f).core = c.core.modifyTerm t f := by
  unfold modifyTerm core
  dsimp only
  congr 1
  refine List.ext_getElem? fun i ↦ ?_
  simp only [List.getElem?_map, List.getElem?_modify]
  cases c.terms[i]? with
  | none => rfl
  | some term =>
    split
    · exact congrArg some (hf term)
    · rfl

theorem findNamed?_core (c : FunctionContext) (name : String) (ts : List TermId) :
    c.core.findNamed? name ts = c.findNamed? name ts := by
  unfold findNamed?
  refine List.find?_congr fun t _ ↦ ?_
  rw [term?_core, Option.any_map]
  rfl

/-! ## Twins -/

/-- Two functions whose graphs are twins and which are the same but for the numbers of the nodes.
The extra nodes of the second have marks for their code.  All nodes keep their numbers but the entry
of the event graph. -/
structure Twin (ρ : NodeId → NodeId) (loose : NodeId → Prop) (shared : PinId → Prop)
    (c d : FunctionContext) : Prop where
  graph : Graph.Twin ρ loose shared c.graph d.graph
  core : d.core = c.core
  entry : d.entryPoint = c.entryPoint.map ρ
  entry_tight : ∀ n ∈ c.entryPoint, ¬loose n
  code : ∀ n, ¬loose n → d.nodeStatements.lookup (ρ n) = c.nodeStatements.lookup n
  marks : ∀ m, (∀ n, ¬loose n → ρ n ≠ m) → ∀ s ∈ d.statementsOf m, s.isMarker = true
  targets : ∀ n, ∀ s ∈ c.statementsOf n, ∀ p, s.target? = some (.pin p) → shared p
  fixed : ∀ n kind, c.graph.kind? n = some kind → (c.isEventGraph && kind.isEntry) = false → ρ n = n

namespace Twin

variable {ρ : NodeId → NodeId} {loose : NodeId → Prop} {shared : PinId → Prop}
  {c d : FunctionContext} {n : NodeId} {p : PinId}

section Reading

variable (h : Twin ρ loose shared c d)
include h

theorem isEventGraph : d.isEventGraph = c.isEventGraph :=
  (congrArg FunctionContext.isEventGraph h.core :)

theorem flags : d.flags = c.flags := (congrArg FunctionContext.flags h.core :)

theorem functionName : d.functionName = c.functionName :=
  (congrArg FunctionContext.functionName h.core :)

theorem net? (p : PinId) : d.net? p = c.net? p :=
  (congrArg (FunctionContext.net? · p) h.core :)

theorem term? (t : TermId) : (d.term? t).map Terminal.bare = (c.term? t).map Terminal.bare := by
  rw [← term?_core, ← term?_core, h.core]

theorem findNamed? (name : String) (ts : List TermId) :
    d.findNamed? name ts = c.findNamed? name ts := by
  rw [← findNamed?_core, ← findNamed?_core c, h.core]

theorem findResult? (name : String) : d.findResult? name = c.findResult? name := by
  rw [FunctionContext.findResult?, h.findNamed?]
  exact (congrArg (fun x : FunctionContext ↦ c.findNamed? name x.results) h.core :)

theorem inputTerm?_eq (hp : shared p) : d.inputTerm? p = c.inputTerm? p := by
  unfold inputTerm?
  rw [h.graph.pin p hp]
  cases c.graph.pin? p with
  | none => rfl
  | some pin => exact h.net? _

theorem statementsOf_eq (hn : ¬loose n) : d.statementsOf (ρ n) = c.statementsOf n := by
  rw [statementsOf, statementsOf, h.code n hn]

/-- A pin of a node keeps the number of its owner. -/
theorem keeps {kind : NodeKind} (hkind : c.graph.kind? n = some kind)
    (hentry : (c.isEventGraph && kind.isEntry) = false) (hp : p ∈ c.graph.pinsOf n) :
    ∀ pin, c.graph.pin? p = some pin → ρ pin.owner = pin.owner := by
  intro pin hpin
  have howner := (h.graph.wellFormed.mem_pinsOf n p).1 hp
  rw [Graph.ownerOf?, hpin] at howner
  obtain rfl := Option.some.inj howner
  exact h.fixed _ kind hkind hentry

end Reading

section Editing

variable (h : Twin ρ loose shared c d)
include h

theorem setGraph {g g' : Graph} (hgraph : Graph.Twin ρ loose shared g g')
    (hkinds : ∀ n kind, g.kind? n = some kind → c.graph.kind? n = some kind) :
    Twin ρ loose shared { c with graph := g } { d with graph := g' } :=
  { h with
    graph := hgraph
    fixed := fun n kind hkind ↦ h.fixed n kind (hkinds n kind hkind) }

theorem pushTerm {term term' : Terminal} (hterm : term'.bare = term.bare) :
    (d.pushTerm term').1 = (c.pushTerm term).1 ∧
      Twin ρ loose shared (c.pushTerm term).2 (d.pushTerm term').2 := by
  obtain ⟨hcore, hid⟩ := pushTerm_core c term
  obtain ⟨hcore', hid'⟩ := pushTerm_core d term'
  rw [hterm, h.core] at hcore' hid'
  refine ⟨hid'.trans hid.symm, ?_⟩
  have hsame := hcore'.trans hcore.symm
  have hkind : term'.kind = term.kind := (congrArg Terminal.kind hterm :)
  generalize hx : (c.pushTerm term).2 = x at hsame ⊢
  generalize hy : (d.pushTerm term').2 = y at hsame ⊢
  unfold FunctionContext.pushTerm at hx hy
  dsimp only at hx hy
  rw [hkind] at hy
  cases hk : term.kind <;> rw [hk] at hx hy <;> subst hx hy <;> exact { h with core := hsame }

theorem fail : Twin ρ loose shared { c with failed := true } { d with failed := true } :=
  { h with core := (congrArg (fun c : FunctionContext ↦ { c with failed := true }) h.core :) }

theorem setNetNames (names : NetNameMap) :
    Twin ρ loose shared { c with localNetNames := names } { d with localNetNames := names } :=
  { h with
    core := (congrArg (fun c : FunctionContext ↦ { c with localNetNames := names }) h.core :) }

theorem setNet (p : PinId) (t : TermId) : Twin ρ loose shared (c.setNet p t) (d.setNet p t) :=
  { h with core := (congrArg (FunctionContext.setNet · p t) h.core :) }

theorem pushTerm_setNet {term term' : Terminal} (hterm : term'.bare = term.bare) (p : PinId) :
    (d.pushTerm term').1 = (c.pushTerm term).1 ∧
      Twin ρ loose shared ((c.pushTerm term).2.setNet p (c.pushTerm term).1)
        ((d.pushTerm term').2.setNet p (d.pushTerm term').1) := by
  obtain ⟨hid, hpushed⟩ := h.pushTerm hterm
  rw [hid]
  exact ⟨rfl, hpushed.setNet p _⟩

theorem addTerm (kind : TermKind) (name : String) (ty : PinType)
    (source source' : Option SourceToken) :
    (d.addTerm kind name ty source').1 = (c.addTerm kind name ty source).1 ∧
      Twin ρ loose shared (c.addTerm kind name ty source).2 (d.addTerm kind name ty source').2 :=
  h.pushTerm rfl

theorem modifyTerm (t : TermId) {f : Terminal → Terminal}
    (hf : ∀ term, (f term).bare = f term.bare) :
    Twin ρ loose shared (c.modifyTerm t f) (d.modifyTerm t f) :=
  { h with core := by rw [modifyTerm_core c t hf, modifyTerm_core d t hf, h.core] }

theorem addLocalForPin (hp : shared p) (name : String) :
    (d.addLocalForPin p name).1 = (c.addLocalForPin p name).1 ∧
      Twin ρ loose shared (c.addLocalForPin p name).2 (d.addLocalForPin p name).2 := by
  unfold FunctionContext.addLocalForPin
  rw [h.graph.pin p hp, h.isEventGraph]
  cases c.graph.pin? p with
  | none => exact ⟨rfl, h⟩
  | some pin =>
    rw [Option.map_some]
    dsimp only
    generalize (if c.isEventGraph = true then TermKind.eventGraphLocal else _) = kind
    let term (source : SourceToken) : Terminal := .new kind name pin.ty (some source)
    have hbare : (term (d.graph.pinToken p)).bare = (term (c.graph.pinToken p)).bare := rfl
    obtain ⟨hid, hadded⟩ := h.pushTerm_setNet hbare p
    exact ⟨congrArg some hid, hadded⟩

theorem addLiteral (hp : shared p) : Twin ρ loose shared (c.addLiteral p).2 (d.addLiteral p).2 := by
  unfold FunctionContext.addLiteral
  rw [h.graph.pin p hp]
  cases c.graph.pin? p with
  | none => exact h
  | some pin =>
    rw [Option.map_some]
    dsimp only
    exact (h.pushTerm_setNet (by rfl) p).2

theorem variableTerm (name : String) (ty : PinType) (source source' : Option SourceToken) :
    (d.variableTerm name ty source').1 = (c.variableTerm name ty source).1 ∧
      Twin ρ loose shared (c.variableTerm name ty source).2 (d.variableTerm name ty source').2 := by
  have hlists : d.userLocals ++ d.variableReferences = c.userLocals ++ c.variableReferences :=
    (congrArg (fun x : FunctionContext ↦ x.userLocals ++ x.variableReferences) h.core :)
  unfold FunctionContext.variableTerm
  rw [h.findNamed?, hlists]
  split
  · exact ⟨rfl, h⟩
  · exact h.addTerm .memberReference name ty source source'

theorem append (hn : ¬loose n) {s : Statement} (hs : ∀ p, s.target? = some (.pin p) → shared p) :
    Twin ρ loose shared (c.append n s) (d.append (ρ n) s) := by
  refine { h with
    code := fun m hm ↦ ?_, marks := fun m hm t ht ↦ ?_, targets := fun m t ht p hp ↦ ?_ }
  · simp only [FunctionContext.append, Assoc.lookup_update, h.graph.injective.eq_iff, h.code n hn,
      h.code m hm]
  · rw [statementsOf, FunctionContext.append, Assoc.lookup_update, if_neg (hm n hn).symm] at ht
    exact h.marks m hm t ht
  · rw [statementsOf, FunctionContext.append, Assoc.lookup_update] at ht
    split at ht
    · next heq =>
      subst heq
      rcases List.mem_append.1 ht with ht | ht
      · exact h.targets m t ht p hp
      · rw [List.mem_singleton.1 ht] at hp
        exact hs p hp
    · exact h.targets m t ht p hp

theorem prependStatements {dest source : NodeId} (hdest : ¬loose dest) (hsource : ¬loose source) :
    Twin ρ loose shared (c.prependStatements dest source)
      (d.prependStatements (ρ dest) (ρ source)) := by
  unfold FunctionContext.prependStatements
  rw [h.code source hsource]
  cases hcode : c.nodeStatements.lookup source with
  | none => exact h
  | some code =>
    refine { h with
      code := fun m hm ↦ ?_, marks := fun m hm t ht ↦ ?_, targets := fun m t ht p hp ↦ ?_ }
    · simp only [Assoc.lookup_update, h.graph.injective.eq_iff, h.code dest hdest, h.code m hm]
    · rw [statementsOf, Assoc.lookup_update, if_neg (hm dest hdest).symm] at ht
      exact h.marks m hm t ht
    · rw [statementsOf, Assoc.lookup_update] at ht
      split at ht
      · rcases List.mem_append.1 ht with ht | ht
        · refine h.targets source t ?_ p hp
          rwa [statementsOf, hcode]
        · exact h.targets dest t ht p hp
      · exact h.targets m t ht p hp

/-- An extra node may be marked. -/
theorem mark {m : NodeId} (hm : ∀ n, ¬loose n → ρ n ≠ m) {s : Statement} (hs : s.isMarker = true) :
    Twin ρ loose shared c (d.append m s) := by
  refine { h with code := fun n hn ↦ ?_, marks := fun k hk t ht ↦ ?_ }
  · simp only [FunctionContext.append, Assoc.lookup_update, if_neg (hm n hn), h.code n hn]
  · rw [statementsOf, FunctionContext.append, Assoc.lookup_update] at ht
    split at ht
    · next heq =>
      subst heq
      rcases List.mem_append.1 ht with ht | ht
      · exact h.marks k hk t ht
      · rwa [List.mem_singleton.1 ht]
    · exact h.marks k hk t ht

end Editing

end Twin

end FunctionContext

/-! ## States -/

namespace FunctionState

/-- Two states with twin functions on the same class. -/
structure Twin (ρ : NodeId → NodeId) (loose : NodeId → Prop) (shared : PinId → Prop)
    (s t : FunctionState) : Prop where
  ctx : FunctionContext.Twin ρ loose shared s.ctx t.ctx
  cls : t.cls = s.cls
  names : t.classNetNames = s.classNetNames

namespace Twin

variable {ρ : NodeId → NodeId} {loose : NodeId → Prop} {shared : PinId → Prop}
  {s t : FunctionState} {n : NodeId} {p : PinId}

section Steps

variable (h : Twin ρ loose shared s t)
include h

theorem graph : Graph.Twin ρ loose shared s.graph t.graph := h.ctx.graph

theorem setCtx {c d : FunctionContext} (hctx : FunctionContext.Twin ρ loose shared c d) :
    Twin ρ loose shared { s with ctx := c } { t with ctx := d } := ⟨hctx, h.cls, h.names⟩

theorem setLog (log log' : MessageLog) :
    Twin ρ loose shared { s with log } { t with log := log' } := ⟨h.ctx, h.cls, h.names⟩

theorem error (text text' : String) (tokens tokens' : List SourceToken) :
    Twin ρ loose shared (s.error text tokens) (t.error text' tokens') := h.setLog _ _

theorem fail : Twin ρ loose shared s.fail t.fail := h.setCtx h.ctx.fail

theorem append (hn : ¬loose n) {u : Statement} (hu : ∀ p, u.target? = some (.pin p) → shared p) :
    Twin ρ loose shared (s.append n u) (t.append (ρ n) u) := h.setCtx (h.ctx.append hn hu)

theorem missingInput (p : PinId) : Twin ρ loose shared (s.missingInput p) (t.missingInput p) :=
  h.error _ _ _ _

theorem netName (hp : shared p)
    (hkeeps : ∀ pin, s.graph.pin? p = some pin → ρ pin.owner = pin.owner) :
    (t.netName p).1 = (s.netName p).1 ∧ Twin ρ loose shared (s.netName p).2 (t.netName p).2 := by
  have hframe : t.ctx.localNetNames = s.ctx.localNetNames :=
    (congrArg FunctionContext.localNetNames h.ctx.core :)
  unfold FunctionState.netName
  rw [h.ctx.isEventGraph, h.names, hframe, h.graph.nameOf_eq hp hkeeps, h.graph.nameOf_eq hp hkeeps]
  split
  · exact ⟨rfl, h.ctx, h.cls, rfl⟩
  · exact ⟨rfl, h.ctx.setNetNames (s.ctx.localNetNames.nameOf s.graph p).2, h.cls, rfl⟩

theorem addLocal (hp : shared p)
    (hkeeps : ∀ pin, s.graph.pin? p = some pin → ρ pin.owner = pin.owner) :
    (t.addLocal p).1 = (s.addLocal p).1 ∧
      Twin ρ loose shared (s.addLocal p).2 (t.addLocal p).2 := by
  obtain ⟨hname, hnamed⟩ := h.netName hp hkeeps
  unfold FunctionState.addLocal
  dsimp only
  rw [hname]
  obtain ⟨hid, hadded⟩ := hnamed.ctx.addLocalForPin hp (s.netName p).1
  exact ⟨hid, hnamed.setCtx hadded⟩

theorem addLiteral (hp : shared p) : Twin ρ loose shared (s.addLiteral p) (t.addLiteral p) :=
  h.setCtx (h.ctx.addLiteral hp)

theorem setNet (p : PinId) (u : TermId) : Twin ρ loose shared (s.setNet p u) (t.setNet p u) :=
  h.setCtx (h.ctx.setNet p u)

theorem registerPin (hp : shared p)
    (hkeeps : ∀ pin, s.graph.pin? p = some pin → ρ pin.owner = pin.owner) :
    Twin ρ loose shared (s.registerPin p) (t.registerPin p) := by
  unfold FunctionState.registerPin
  rw [h.graph.pin p hp]
  cases s.graph.pin? p with
  | none => exact h
  | some pin =>
    rw [Option.map_some]
    dsimp only
    rw [Pin.isMeta_renumber, Pin.direction_renumber, Pin.isLinked_renumber]
    split
    · exact h
    · cases pin.direction with
      | output => exact (h.addLocal hp hkeeps).2
      | input =>
        dsimp only
        split
        · exact h
        · exact h.addLiteral hp

theorem inputTerms_eq {ps : List PinId} (hps : ∀ p ∈ ps, shared p) :
    t.inputTerms ps = s.inputTerms ps := by
  unfold inputTerms
  induction ps with
  | nil => rfl
  | cons p ps ih =>
    obtain ⟨hp, hps⟩ := List.forall_mem_cons.1 hps
    rw [List.mapM_cons, List.mapM_cons, ih hps, h.ctx.inputTerm?_eq hp]

theorem gotoThen (hn : ¬loose n) : Twin ρ loose shared (s.gotoThen n) (t.gotoThen (ρ n)) := by
  unfold FunctionState.gotoThen
  dsimp only
  have hwired : (t.graph.findPin? (ρ n) PinName.thenOut (some .output)).filter
        (fun p ↦ !(t.graph.linksOf p).isEmpty) =
      (s.graph.findPin? n PinName.thenOut (some .output)).filter
        fun p ↦ !(s.graph.linksOf p).isEmpty := by
    rw [h.graph.findPin?_eq hn]
    cases hfind : s.graph.findPin? n PinName.thenOut (some .output) with
    | none => rfl
    | some p =>
      rw [Option.filter_some, Option.filter_some,
        h.graph.linksOf_eq (h.graph.shared_of_findPin? hfind)]
  rw [hwired, h.ctx.isEventGraph]
  refine h.append hn fun p hp ↦ ?_
  split at hp
  · next q hq =>
    cases hp
    exact h.graph.shared_of_findPin? (Option.filter_eq_some_iff.1 hq).1
  · split at hp <;> cases hp

end Steps

/-- A step for each of some things. -/
theorem foldl (h : Twin ρ loose shared s t) {α : Type} {f k : FunctionState → α → FunctionState}
    {l : List α}
    (hf : ∀ a ∈ l, ∀ s t, Twin ρ loose shared s t → Twin ρ loose shared (f s a) (k t a)) :
    Twin ρ loose shared (l.foldl f s) (l.foldl k t) :=
  List.foldl_rel (r := Twin ρ loose shared) h fun a ha s t ↦ hf a ha s t

/-- A step for each of some things on the way to which the graph stays. -/
theorem foldl_of_graph (h : Twin ρ loose shared s t) {α : Type}
    {f k : FunctionState → α → FunctionState} {l : List α}
    (hgraph : ∀ s a, (f s a).graph = s.graph)
    (hf : ∀ a ∈ l, ∀ s' t', s'.graph = s.graph → Twin ρ loose shared s' t' →
      Twin ρ loose shared (f s' a) (k t' a)) :
    Twin ρ loose shared (l.foldl f s) (l.foldl k t) := by
  have hfold := List.foldl_rel (r := fun s' t' ↦ s'.graph = s.graph ∧ Twin ρ loose shared s' t')
    (l := l) (f := f) (g := k) ⟨rfl, h⟩
    fun a ha s' t' hs ↦ ⟨(hgraph s' a).trans hs.1, hf a ha s' t' hs.1 hs.2⟩
  exact hfold.2

/-- Twin results of a step that ends in a state. -/
theorem outcome {α : Type} {x y : α × FunctionState}
    (h : y.1 = x.1 ∧ Twin ρ loose shared x.2 y.2) :
    ∃ a s t, x = (a, s) ∧ y = (a, t) ∧ Twin ρ loose shared s t :=
  ⟨x.1, x.2, y.2, rfl, Prod.ext h.1 rfl, h.2⟩

end Twin

theorem graph_addLocal (s : FunctionState) (p : PinId) : (s.addLocal p).2.graph = s.graph := by
  unfold addLocal netName FunctionContext.addLocalForPin FunctionContext.addTerm
  dsimp only
  split <;> dsimp only <;> split <;> first | rfl | exact FunctionContext.graph_pushTerm _ _

theorem graph_registerPin (s : FunctionState) (p : PinId) : (s.registerPin p).graph = s.graph := by
  have hliteral : (s.addLiteral p).graph = s.graph := by
    unfold addLiteral FunctionContext.addLiteral
    split
    · rfl
    · exact FunctionContext.graph_pushTerm _ _
  unfold registerPin
  split
  · rfl
  · split
    · rfl
    · split
      · exact s.graph_addLocal p
      · split
        · rfl
        · exact hliteral

end FunctionState

/-! ## Handlers -/

open FunctionState (Twin)

section Handlers

variable {ρ : NodeId → NodeId} {loose : NodeId → Prop} {shared : PinId → Prop}
  {s t : FunctionState} {n : NodeId} {p : PinId} (h : Twin ρ loose shared s t)
include h

namespace CallFunction

theorem inputs_eq (hn : ¬loose n) : inputs t.graph (ρ n) = inputs s.graph n := by
  unfold inputs
  rw [h.graph.filteredPins_eq hn]
  refine List.filter_congr fun p hp ↦ ?_
  rw [h.graph.pin p (h.graph.shared_of_mem_filteredPins hp), Option.any_map]
  rfl

theorem target?_eq (hn : ¬loose n) : target? t (ρ n) = target? s n := by
  unfold target? Graph.selfPin?
  rw [h.graph.findPin?_eq hn]
  cases hfind : s.graph.findPin? n PinName.self (some .input) with
  | none => rfl
  | some p =>
    have hp := h.graph.shared_of_findPin? hfind
    simp only [Option.bind_eq_bind, Option.bind_some, h.graph.linksOf_eq hp, h.ctx.inputTerm?_eq hp]

theorem outputTerms_eq (ps : List PinId) : outputTerms t ps = outputTerms s ps := by
  unfold outputTerms
  simp only [h.ctx.net?]

theorem partition_eq {outs : List (PinId × TermId)} (houts : ∀ o ∈ outs, shared o.1) :
    outs.partition (fun o ↦ isReturn t.graph o.1) =
      outs.partition fun o ↦ isReturn s.graph o.1 := by
  have hsame : ∀ o ∈ outs, isReturn t.graph o.1 = isReturn s.graph o.1 := fun o ho ↦ by
    rw [isReturn, h.graph.pin o.1 (houts o ho), Option.any_map]
    rfl
  rw [List.partition_eq_filter_filter, List.partition_eq_filter_filter, List.filter_congr hsame]
  congr 1
  exact List.filter_congr fun o ho ↦ congrArg not (hsame o ho)

theorem twin_compile (hn : ¬loose n) (call : CallData) :
    Twin ρ loose shared (compile s n call) (compile t (ρ n) call) := by
  unfold compile
  have hinputs : ∀ p ∈ inputs s.graph n, shared p := fun p hp ↦
    h.graph.shared_of_mem_filteredPins (List.mem_of_mem_filter hp)
  rw [inputs_eq h hn, h.inputTerms_eq hinputs, h.graph.filteredPins_eq hn, outputTerms_eq h,
    target?_eq h hn]
  cases s.inputTerms (inputs s.graph n) with
  | error p => exact h.missingInput p
  | ok ins =>
    dsimp only
    cases houts : outputTerms s (s.graph.filteredPins n .output false) with
    | error p => exact h.error _ _ _ _
    | ok outs =>
      have hshared : ∀ o ∈ outs, shared o.1 := by
        rw [FunctionState.outputTerms_eq_ok houts]
        intro o ho
        obtain ⟨p, hp, ho⟩ := List.mem_filterMap.1 ho
        obtain ⟨u, -, rfl⟩ := Option.map_eq_some_iff.1 ho
        exact h.graph.shared_of_mem_filteredPins hp
      dsimp only
      rw [partition_eq h hshared]
      have happended := h.append hn (u := .callFunction call.function (target? s n)
        (ins ++ (outs.partition fun o ↦ isReturn s.graph o.1).2.map (·.2))
        ((outs.partition fun o ↦ isReturn s.graph o.1).1.getLast?.map (·.2))) fun p hp ↦ by cases hp
      split
      · exact happended
      · exact happended.gotoThen hn

end CallFunction

theorem MakeArray.twin_compile (hn : ¬loose n) :
    Twin ρ loose shared (compile s n) (compile t (ρ n)) := by
  unfold compile
  rw [h.graph.findPin?_eq hn, funext h.ctx.net?, h.graph.filteredPins_eq hn,
    h.inputTerms_eq fun p ↦ h.graph.shared_of_mem_filteredPins]
  split
  · exact h.error _ _ _ _
  · split
    · exact h.missingInput _
    · exact h.append hn fun p hp ↦ by cases hp

namespace FunctionEntry

theorem twin_registerParameter (hp : shared p) :
    Twin ρ loose shared (registerParameter s p) (registerParameter t p) := by
  unfold registerParameter
  rw [h.graph.pin p hp]
  cases s.graph.pin? p with
  | none => exact h
  | some pin =>
    rw [Option.map_some]
    dsimp only
    exact h.setCtx (h.ctx.pushTerm_setNet (by rfl) p).2

theorem twin_register (hn : ¬loose n) : Twin ρ loose shared (register s n) (register t (ρ n)) := by
  unfold register
  rw [h.graph.filteredPins_eq hn]
  exact h.foldl fun p hp _ _ h' ↦ twin_registerParameter h' (h.graph.shared_of_mem_filteredPins hp)

theorem twin_compile (hn : ¬loose n) : Twin ρ loose shared (compile s n) (compile t (ρ n)) := by
  unfold compile
  rw [h.graph.findPin?_eq hn, funext h.ctx.net?, h.ctx.isEventGraph]
  split
  · split
    · exact h.append hn fun p hp ↦ by cases hp
    · exact h.error _ _ _ _
  · exact h.gotoThen hn

end FunctionEntry

/-- A step for each of some pins of a node that keeps its number. -/
theorem FunctionState.Twin.foldl_pins {kind : NodeKind} (hkind : s.graph.kind? n = some kind)
    (hentry : kind.isEntry = false) {f : FunctionState → PinId → FunctionState} {l : List PinId}
    (hl : l ⊆ s.graph.pinsOf n) (hgraph : ∀ s p, (f s p).graph = s.graph)
    (hf : ∀ s t p, Twin ρ loose shared s t → shared p →
      (∀ pin, s.graph.pin? p = some pin → ρ pin.owner = pin.owner) →
        Twin ρ loose shared (f s p) (f t p)) :
    Twin ρ loose shared (l.foldl f s) (l.foldl f t) := by
  refine h.foldl_of_graph hgraph fun p hp s' t' hsame h' ↦ ?_
  refine hf s' t' p h' (h.graph.pins n p (hl hp)) ?_
  rw [hsame]
  exact h.ctx.keeps hkind (by rw [hentry, Bool.and_false]) (hl hp)

theorem Event.twin_register (hn : ¬loose n) {kind : NodeKind} (hkind : s.graph.kind? n = some kind)
    (hentry : kind.isEntry = false) : Twin ρ loose shared (register s n) (register t (ρ n)) := by
  unfold register
  rw [h.graph.filteredPins_eq hn, h.ctx.isEventGraph]
  split
  · refine h.foldl_pins hkind hentry (fun p hp ↦ (Graph.mem_filteredPins.1 hp).1)
      FunctionState.graph_addLocal fun s t p h' hp hkeeps ↦ (h'.addLocal hp hkeeps).2
  · exact (h.error _ _ _ _).fail

namespace FunctionResult

theorem twin_registerResult (hp : shared p) :
    Twin ρ loose shared (registerResult s p) (registerResult t p) := by
  unfold registerResult
  rw [h.graph.pin p hp]
  cases s.graph.pin? p with
  | none => exact h
  | some pin =>
    simp only [Option.map_some, Pin.name_renumber, Pin.ty_renumber, Pin.isLinked_renumber,
      h.ctx.findResult?]
    have hresult : Twin ρ loose shared
        (if (s.ctx.findResult? pin.name).isSome then s
          else { s with
            ctx := (s.ctx.addTerm .result pin.name pin.ty (some (s.graph.pinToken p))).2 })
        (if (s.ctx.findResult? pin.name).isSome then t
          else { t with
            ctx := (t.ctx.addTerm .result pin.name pin.ty (some (t.graph.pinToken p))).2 }) := by
      split
      · exact h
      · exact h.setCtx (h.ctx.addTerm .result pin.name pin.ty _ _).2
    split
    · exact hresult
    · exact hresult.addLiteral hp

theorem twin_register (hn : ¬loose n) : Twin ρ loose shared (register s n) (register t (ρ n)) := by
  unfold register
  rw [h.graph.filteredPins_eq hn]
  exact h.foldl fun p hp _ _ h' ↦ twin_registerResult h' (h.graph.shared_of_mem_filteredPins hp)

theorem twin_assignResult (hn : ¬loose n) (hp : shared p) :
    Twin ρ loose shared (assignResult n s p) (assignResult (ρ n) t p) := by
  unfold assignResult
  rw [h.graph.pin p hp, h.ctx.inputTerm?_eq hp, funext h.ctx.findResult?]
  cases s.graph.pin? p with
  | none => exact h
  | some pin =>
    simp only [Option.map_some, Pin.name_renumber]
    cases s.ctx.inputTerm? p with
    | none => exact h.missingInput p
    | some rhs =>
      cases s.ctx.findResult? pin.name with
      | none => exact h
      | some lhs => exact h.append hn fun p hp ↦ by cases hp

theorem twin_compile (hn : ¬loose n) : Twin ρ loose shared (compile s n) (compile t (ρ n)) := by
  unfold compile
  rw [h.graph.filteredPins_eq hn]
  have hassigned := h.foldl (f := assignResult n) (k := assignResult (ρ n))
    (l := s.graph.filteredPins n .input false)
    fun p hp _ _ h' ↦ twin_assignResult h' hn (h.graph.shared_of_mem_filteredPins hp)
  exact hassigned.append hn fun p hp ↦ by cases hp

end FunctionResult

theorem Branch.twin_compile (hn : ¬loose n) :
    Twin ρ loose shared (compile s n) (compile t (ρ n)) := by
  unfold compile
  rw [h.graph.findPin?_eq hn, h.graph.findPin?_eq hn, h.graph.findPin?_eq hn]
  split
  · next condition thenPin elsePin hcondition hthen helse =>
    rw [h.ctx.inputTerm?_eq (h.graph.shared_of_findPin? hcondition)]
    split
    · exact h.missingInput _
    · refine (h.append hn fun p hp ↦ ?_).append hn fun p hp ↦ ?_
      · cases hp
        exact h.graph.shared_of_findPin? helse
      · cases hp
        exact h.graph.shared_of_findPin? hthen
  · exact h.error _ _ _ _

namespace Knot

theorem twin_bridge (m m' : NodeId) {target source : PinId} (htarget : shared target)
    (hsource : shared source) :
    Twin ρ loose shared (bridge m target s source) (bridge m' target t source) := by
  unfold bridge
  have hlinked := h.graph.makeLink hsource htarget
  cases hg : s.graph.makeLink source target with
  | error e =>
    rw [hg] at hlinked
    generalize t.graph.makeLink source target = y at hlinked ⊢
    cases hlinked with
    | error e e' => exact h.error _ _ _ _
  | ok g =>
    rw [hg] at hlinked
    generalize t.graph.makeLink source target = y at hlinked ⊢
    cases hlinked with
    | ok hgraph =>
      exact h.setCtx (h.ctx.setGraph hgraph fun k kind hk ↦
        (Graph.kind?_of_nodes (Graph.nodes_makeLink hg) k).symm.trans hk)

theorem twin_release (m m' : NodeId) {output target : PinId} {sources : List PinId}
    (htarget : shared target) (hsources : ∀ p ∈ sources, shared p)
    (value : String) (object : Option String) :
    Twin ρ loose shared (release m output sources value object s target)
      (release m' output sources value object t target) := by
  have hbroken := h.graph.breakLink output target
  have hgraph : Graph.Twin ρ loose shared
      (if sources.isEmpty then (s.graph.breakLink output target).setDefaults target value object
        else s.graph.breakLink output target)
      (if sources.isEmpty then (t.graph.breakLink output target).setDefaults target value object
        else t.graph.breakLink output target) := by
    split
    · exact hbroken.setDefaults target value object
    · exact hbroken
  have hnodes : (if sources.isEmpty then (s.graph.breakLink output target).setDefaults target value
      object else s.graph.breakLink output target).nodes = s.graph.nodes := by
    split <;> rfl
  refine FunctionState.Twin.foldl (h.setCtx (h.ctx.setGraph hgraph fun k kind hk ↦
    (Graph.kind?_of_nodes hnodes k).symm.trans hk)) fun p hp _ _ h' ↦ ?_
  exact twin_bridge h' m m' htarget (hsources p hp)

theorem twin_removeNode (hn : ¬loose n) : Twin ρ loose shared
    { s with ctx.graph := s.graph.removeNode n }
    { t with ctx.graph := t.graph.removeNode (ρ n) } := by
  refine h.setCtx (h.ctx.setGraph (h.graph.removeNode hn) fun k kind hk ↦ ?_)
  by_cases hnk : n = k
  · subst hnk
    cases hcontains : s.graph.contains n with
    | false => rwa [Graph.removeNode_of_not_contains hcontains] at hk
    | true =>
      rw [Graph.kind?, Graph.node?_removeNode hcontains, if_pos rfl] at hk
      cases hk
  · rwa [Graph.kind?_removeNode hnk] at hk

theorem twin_transform (hn : ¬loose n) :
    Twin ρ loose shared (transform s n) (transform t (ρ n)) := by
  unfold transform
  rw [h.graph.findPin?_eq hn, h.graph.findPin?_eq hn]
  split
  · next input output hinput houtput =>
    have hinput := h.graph.shared_of_findPin? hinput
    have houtput := h.graph.shared_of_findPin? houtput
    rw [h.graph.pin input hinput, h.graph.linksOf_eq hinput, h.graph.linksOf_eq houtput]
    have hreleased (value : String) (object : Option String) :=
      h.foldl (f := release n output (s.graph.linksOf input) value object)
        (k := release (ρ n) output (s.graph.linksOf input) value object)
        (l := s.graph.linksOf output) fun target htarget _ _ h' ↦
          twin_release h' n (ρ n) (h.graph.shared_of_mem_linksOf htarget)
            (fun p ↦ h.graph.shared_of_mem_linksOf) value object
    have hcollapsed (value : String) (object : Option String) :=
      twin_removeNode (hreleased value object) hn
    cases s.graph.pin? input with
    | none => exact hcollapsed "" none
    | some pin => exact hcollapsed pin.defaultValue pin.defaultObject
  · exact h

end Knot

theorem VariableAccess.twin_resolve (m m' : NodeId) (var : VariableReference) (report : Bool) :
    (resolve t m' var report).1 = (resolve s m var report).1 ∧
      Twin ρ loose shared (resolve s m var report).2 (resolve t m' var report).2 := by
  have hlocal : isUserLocal t.ctx var.name = isUserLocal s.ctx var.name := by
    rw [isUserLocal, h.ctx.findNamed?]
    exact (congrArg (fun c : FunctionContext ↦ (s.ctx.findNamed? var.name c.userLocals).isSome)
      h.ctx.core :)
  unfold resolve
  rw [hlocal, h.cls]
  split
  · refine ⟨rfl, ?_⟩
    dsimp only
    split
    · exact h.error _ _ _ _
    · exact h
  · obtain ⟨hid, hvariable⟩ := h.ctx.variableTerm (storageName var) var.ty
      (some (s.graph.nodeToken m)) (some (t.graph.nodeToken m'))
    exact ⟨congrArg some hid, hvariable, rfl, h.names⟩

open VariableAccess

theorem VariableGet.twin_register (hn : ¬loose n) (var : VariableReference) :
    Twin ρ loose shared (register s n var) (register t (ρ n) var) := by
  obtain ⟨u, s', t', hs, ht, hresolved⟩ := Twin.outcome (twin_resolve h n (ρ n) var true)
  unfold register
  rw [hs, ht]
  cases u with
  | none => exact hresolved
  | some u =>
    dsimp only
    rw [hresolved.graph.filteredPins_eq hn]
    exact hresolved.foldl fun p _ _ _ h' ↦ h'.setNet p u

namespace VariableSet

theorem twin_resolveMember (m m' : NodeId) (report : Bool) (pairs : List (TermId × PinId))
    (hp : shared p) :
    (resolveMember m' report (pairs, t) p).1 = (resolveMember m report (pairs, s) p).1 ∧
      Twin ρ loose shared (resolveMember m report (pairs, s) p).2
        (resolveMember m' report (pairs, t) p).2 := by
  unfold resolveMember
  dsimp only
  rw [h.graph.pin p hp]
  cases s.graph.pin? p with
  | none => exact ⟨rfl, h⟩
  | some pin =>
    simp only [Option.map_some, Pin.name_renumber, Pin.ty_renumber]
    obtain ⟨u, s', t', hs, ht, hresolved⟩ :=
      Twin.outcome (twin_resolve h m m' (.selfMember pin.name pin.ty) report)
    rw [hs, ht]
    cases u with
    | none => exact ⟨rfl, hresolved⟩
    | some u => exact ⟨rfl, hresolved⟩

omit h in
theorem shared_of_resolveMember (m : NodeId) (report : Bool)
    {acc : List (TermId × PinId) × FunctionState} (hacc : ∀ a ∈ acc.1, shared a.2) (hp : shared p) :
    ∀ a ∈ (resolveMember m report acc p).1, shared a.2 := by
  unfold resolveMember
  dsimp only
  split
  · exact hacc
  · split
    · exact hacc
    · exact List.forall_mem_append.2 ⟨hacc, List.forall_mem_singleton.2 hp⟩

theorem twin_assignments (hn : ¬loose n) (var : Option VariableReference) (report : Bool) :
    (assignments t (ρ n) var report).1 = (assignments s n var report).1 ∧
      (∀ a ∈ (assignments s n var report).1, shared a.2) ∧
        Twin ρ loose shared (assignments s n var report).2 (assignments t (ρ n) var report).2 := by
  unfold assignments
  rw [h.graph.filteredPins_eq hn]
  have hshared : ∀ p ∈ s.graph.filteredPins n .input false, shared p :=
    fun p ↦ h.graph.shared_of_mem_filteredPins
  generalize s.graph.filteredPins n .input false = pins at hshared ⊢
  cases var with
  | none =>
    refine List.foldl_rel (r := fun x y : List (TermId × PinId) × FunctionState ↦
      y.1 = x.1 ∧ (∀ a ∈ x.1, shared a.2) ∧ Twin ρ loose shared x.2 y.2)
      ⟨rfl, by simp, h⟩ fun p hp x y hxy ↦ ?_
    obtain ⟨pairs, s'⟩ := x
    obtain ⟨_, t'⟩ := y
    obtain ⟨rfl, hpairs, h'⟩ := hxy
    obtain ⟨hsame, hresolved⟩ := twin_resolveMember h' n (ρ n) report _ (hshared p hp)
    exact ⟨hsame, shared_of_resolveMember n report hpairs (hshared p hp), hresolved⟩
  | some var =>
    obtain ⟨u, s', t', hs, ht, hresolved⟩ := Twin.outcome (twin_resolve h n (ρ n) var report)
    dsimp only
    rw [hs, ht]
    cases u with
    | none => exact ⟨rfl, by simp, hresolved⟩
    | some u =>
      refine ⟨rfl, fun a ha ↦ ?_, hresolved⟩
      obtain ⟨p, hp, rfl⟩ := List.mem_map.1 ha
      exact hshared p hp

theorem twin_register (hn : ¬loose n) (var : Option VariableReference) :
    Twin ρ loose shared (register s n var) (register t (ρ n) var) := by
  obtain ⟨hsame, hshared, hassigned⟩ := twin_assignments h hn var true
  obtain ⟨pairs, s', t', hs, ht, hassigned⟩ := Twin.outcome ⟨hsame, hassigned⟩
  rw [hs] at hshared
  unfold register
  rw [hs, ht]
  refine hassigned.foldl fun a ha s t h' ↦ ?_
  rw [h'.graph.linksOf_eq (hshared a ha)]
  split
  · exact h'.addLiteral (hshared a ha)
  · exact h'

theorem twin_assign (hn : ¬loose n) {a : TermId × PinId} (ha : shared a.2) :
    Twin ρ loose shared (assign n s a) (assign (ρ n) t a) := by
  unfold assign
  rw [h.ctx.inputTerm?_eq ha]
  split
  · exact h.missingInput _
  · exact h.append hn fun p hp ↦ by cases hp

theorem twin_compile (hn : ¬loose n) (var : Option VariableReference) :
    Twin ρ loose shared (compile s n var) (compile t (ρ n) var) := by
  obtain ⟨hsame, hshared, hassigned⟩ := twin_assignments h hn var false
  obtain ⟨pairs, s', t', hs, ht, hassigned⟩ := Twin.outcome ⟨hsame, hassigned⟩
  rw [hs] at hshared
  unfold compile
  rw [hs, ht]
  have hpairs := hassigned.foldl (f := assign n) (k := assign (ρ n)) (l := pairs)
    fun a ha _ _ h' ↦ twin_assign h' hn (hshared a ha)
  exact hpairs.gotoThen hn

end VariableSet

namespace TemporaryVariable

omit h in
theorem graph_registerTemporary (s : FunctionState) (p : PinId) :
    (registerTemporary s p).graph = s.graph := by
  have hgraph := s.graph_addLocal p
  unfold registerTemporary
  split
  · next heq => rwa [heq] at hgraph
  · next heq => rwa [heq] at hgraph

theorem twin_registerTemporary (hp : shared p)
    (hkeeps : ∀ pin, s.graph.pin? p = some pin → ρ pin.owner = pin.owner) :
    Twin ρ loose shared (registerTemporary s p) (registerTemporary t p) := by
  obtain ⟨u, s', t', hs, ht, hadded⟩ := Twin.outcome (h.addLocal hp hkeeps)
  unfold registerTemporary
  rw [hs, ht]
  cases u with
  | none => exact hadded
  | some u =>
    refine hadded.setCtx (hadded.ctx.modifyTerm u fun term ↦ ?_)
    rw [show term.bare.kind = term.kind from rfl]
    split <;> rfl

theorem twin_register (hn : ¬loose n) {kind : NodeKind} (hkind : s.graph.kind? n = some kind)
    (hentry : kind.isEntry = false) : Twin ρ loose shared (register s n) (register t (ρ n)) := by
  unfold register
  rw [h.graph.filteredPins_eq hn]
  exact h.foldl_pins hkind hentry (fun p hp ↦ (Graph.mem_filteredPins.1 hp).1)
    graph_registerTemporary fun s t p h' hp hkeeps ↦ twin_registerTemporary h' hp hkeeps

end TemporaryVariable

namespace TimelineNode

theorem twin_registerTrack (timeline : String) (hp : shared p) :
    Twin ρ loose shared (registerTrack timeline s p) (registerTrack timeline t p) := by
  unfold registerTrack
  rw [h.graph.pin p hp, h.cls]
  cases s.graph.pin? p with
  | none => exact h
  | some pin =>
    rw [Option.map_some]
    dsimp only
    rw [Pin.name_renumber, Pin.ty_renumber]
    split
    · exact h.error _ _ _ _
    · obtain ⟨hid, hvariable⟩ := h.ctx.variableTerm (memberName timeline pin.name) pin.ty
        (some (s.graph.pinToken p)) (some (t.graph.pinToken p))
      rw [hid]
      exact ⟨hvariable.setNet p _, rfl, h.names⟩

theorem twin_register (hn : ¬loose n) (timeline : String) :
    Twin ρ loose shared (register s n timeline) (register t (ρ n) timeline) := by
  unfold register
  rw [h.graph.filteredPins_eq hn, h.ctx.isEventGraph]
  split
  · exact h.foldl fun p hp _ _ h' ↦ twin_registerTrack h' timeline
      (h.graph.shared_of_mem_filteredPins hp)
  · exact (h.error _ _ _ _).fail

end TimelineNode

namespace NodeKind

variable (kind : NodeKind) (hn : ¬loose n)
include hn

theorem twin_transform : Twin ρ loose shared (kind.transform s n) (kind.transform t (ρ n)) := by
  cases kind with
  | knot ty => exact Knot.twin_transform h hn
  | _ => exact h

theorem twin_register (hkind : s.graph.kind? n = some kind) :
    Twin ρ loose shared (kind.register s n) (kind.register t (ρ n)) := by
  have hpins (hentry : kind.isEntry = false) :
      Twin ρ loose shared (s.registerPins n) (t.registerPins (ρ n)) := by
    unfold FunctionState.registerPins
    rw [h.graph.pinsOf_eq hn]
    exact h.foldl_pins hkind hentry (List.Subset.refl _) FunctionState.graph_registerPin
      fun s t p h' hp hkeeps ↦ h'.registerPin hp hkeeps
  cases kind with
  | functionEntry data => exact FunctionEntry.twin_register h hn
  | functionResult => exact FunctionResult.twin_register h hn
  | event data => exact Event.twin_register h hn hkind rfl
  | variableGet var => exact VariableGet.twin_register h hn var
  | variableSet var => exact VariableSet.twin_register h hn var
  | temporaryVariable ty => exact TemporaryVariable.twin_register h hn hkind rfl
  | timeline name => exact TimelineNode.twin_register h hn name
  | callFunction call => exact hpins rfl
  | branch => exact hpins rfl
  | makeArray ty count => exact hpins rfl
  | _ => exact h

theorem twin_compile : Twin ρ loose shared (kind.compile s n) (kind.compile t (ρ n)) := by
  cases kind with
  | functionEntry data => exact FunctionEntry.twin_compile h hn
  | functionResult => exact FunctionResult.twin_compile h hn
  | event data => exact h.gotoThen hn
  | callFunction call => exact CallFunction.twin_compile h hn call
  | variableSet var => exact VariableSet.twin_compile h hn var
  | branch => exact Branch.twin_compile h hn
  | makeArray ty count => exact MakeArray.twin_compile h hn
  | _ => exact h

end NodeKind

end Handlers

/-! ## Properties -/

namespace PropertyState

variable {σ : Type} [PropertyScope σ] {ρ : NodeId → NodeId} {loose : NodeId → Prop}
  {shared : PinId → Prop} {s t : PropertyState σ}

/-- Two states with twin functions in the same scope. -/
structure Twin (ρ : NodeId → NodeId) (loose : NodeId → Prop) (shared : PinId → Prop)
    (s t : PropertyState σ) : Prop where
  ctx : FunctionContext.Twin ρ loose shared s.ctx t.ctx
  scope : t.scope = s.scope

theorem twin_addTerm (h : Twin ρ loose shared s t) (flags : PropertyFlags) (u : TermId) :
    Twin ρ loose shared (addTerm flags s u) (addTerm flags t u) := by
  have hterm := h.ctx.term? u
  unfold addTerm
  generalize s.ctx.term? u = x at hterm ⊢
  generalize t.ctx.term? u = y at hterm ⊢
  cases x with
  | none =>
    obtain rfl := Option.map_eq_none_iff.1 hterm
    exact h
  | some term =>
    obtain ⟨term', rfl, hbare⟩ := Option.map_eq_some_iff.1 hterm
    have hname : term'.name = term.name := (congrArg Terminal.name hbare :)
    have hty : term'.ty = term.ty := (congrArg Terminal.ty hbare :)
    have hassociated : term'.associatedProperty = term.associatedProperty :=
      (congrArg Terminal.associatedProperty hbare :)
    have hflags : term'.propertyFlags flags = term.propertyFlags flags :=
      (congrArg (Terminal.propertyFlags · flags) hbare :)
    dsimp only
    rw [h.scope, hname, hty, hassociated, hflags]
    split
    · exact h
    · split
      · exact ⟨h.ctx, rfl⟩
      · exact ⟨h.ctx.modifyTerm u fun _ ↦ rfl, rfl⟩

theorem twin_addTerms (h : Twin ρ loose shared s t) (ts : List TermId) (flags : PropertyFlags) :
    Twin ρ loose shared (s.addTerms ts flags) (t.addTerms ts flags) :=
  List.foldl_rel (r := Twin ρ loose shared) h fun u _ _ _ h ↦ twin_addTerm h flags u

theorem twin_addLists {σ : Type} [LawfulPropertyScope σ] {s t : PropertyState σ}
    (h : Twin ρ loose shared s t) (lists : List (List TermId × PropertyFlags)) :
    Twin ρ loose shared (s.addLists lists) (t.addLists lists) :=
  List.foldl_rel (r := Twin ρ loose shared) h fun list _ _ _ h ↦ twin_addTerms h list.1 list.2

end PropertyState

namespace FunctionState.Twin

variable {ρ : NodeId → NodeId} {loose : NodeId → Prop} {shared : PinId → Prop}
  {s t : FunctionState} {n entry : NodeId} (h : Twin ρ loose shared s t)
include h

theorem createProperties : Twin ρ loose shared s.createProperties t.createProperties := by
  have hlists : t.ctx.frameLists = s.ctx.frameLists :=
    (congrArg FunctionContext.frameLists h.ctx.core :)
  have hlocals : t.ctx.eventGraphLocals = s.ctx.eventGraphLocals :=
    (congrArg FunctionContext.eventGraphLocals h.ctx.core :)
  have hclass {s' t' : FunctionState} (h' : Twin ρ loose shared s' t') (ts : List TermId) :
      Twin ρ loose shared { s' with
          cls := (s'.classProperties ts).scope
          ctx := (s'.classProperties ts).ctx
          log := (s'.classProperties ts).log } { t' with
          cls := (t'.classProperties ts).scope
          ctx := (t'.classProperties ts).ctx
          log := (t'.classProperties ts).log } := by
    have hproperties : PropertyState.Twin ρ loose shared (s'.classProperties ts)
        (t'.classProperties ts) := PropertyState.twin_addTerms ⟨h'.ctx, h'.cls⟩ ts .empty
    exact ⟨hproperties.ctx, hproperties.scope, h'.names⟩
  cases hf : s.cls.findOwnFunction? s.ctx.functionName with
  | none =>
    have hf' : t.cls.findOwnFunction? t.ctx.functionName = none := by
      rw [h.cls, h.ctx.functionName, hf]
    simp only [FunctionState.createProperties, hf, hf', hlocals]
    exact hclass h s.ctx.eventGraphLocals
  | some f =>
    have hf' : t.cls.findOwnFunction? t.ctx.functionName = some f := by
      rw [h.cls, h.ctx.functionName, hf]
    rw [createProperties_eq hf, createProperties_eq hf', hlocals]
    refine hclass ?_ s.ctx.eventGraphLocals
    have hframe :
        PropertyState.Twin ρ loose shared (s.frameProperties f) (t.frameProperties f) := by
      unfold frameProperties
      rw [hlists]
      exact PropertyState.twin_addLists (s := ⟨f, s.ctx, s.log⟩) (t := ⟨f, t.ctx, t.log⟩)
        ⟨h.ctx, rfl⟩ s.ctx.frameLists
    refine ⟨hframe.ctx, ?_, h.names⟩
    unfold withFrame
    dsimp only
    rw [h.cls, h.ctx.functionName, hframe.scope]

/-! ## Preparing -/

/-- A step for every node, which extra nodes do nothing in. -/
theorem foldl_nodes (env : CompileEnv) {f : NodeKind → FunctionState → NodeId → FunctionState}
    (hf : ∀ kind s t n, Twin ρ loose shared s t → ¬loose n → s.graph.kind? n = some kind →
      Twin ρ loose shared (f kind s n) (f kind t (ρ n)))
    (hcomment : ∀ text s n, f (.comment text) s n = s) {l l' : List NodeId}
    (hl : Graph.Counterparts ρ loose l l')
    (htight : ∀ n ∈ l, ¬loose n) :
    Twin ρ loose shared
      (l.foldl (fun s n ↦ match s.graph.kind? n with
        | some kind => if env.handles kind then f kind s n else s
        | none => s) s)
      (l'.foldl (fun s n ↦ match s.graph.kind? n with
        | some kind => if env.handles kind then f kind s n else s
        | none => s) t) := by
  refine hl.foldl (fun s t m _ hm h ↦ ?_) (fun s t n m hn _ hnm h ↦ ?_) h
  · split
    · next kind hkind =>
      obtain ⟨x, hx, rfl⟩ := Option.map_eq_some_iff.1 hkind
      obtain ⟨text, htext⟩ := NodeKind.exists_of_isComment (h.graph.extra m x hm hx)
      rw [htext, hcomment, ite_self]
      exact h
    · exact h
  · subst hnm
    have hloose := htight n hn
    rw [h.graph.kind?_eq hloose]
    split
    · next kind hkind =>
      split
      · exact hf kind s t n h hloose hkind
      · exact h
    · exact h

theorem transformNodes (env : CompileEnv) :
    Twin ρ loose shared (s.transformNodes env) (t.transformNodes env) :=
  h.foldl_nodes env (f := NodeKind.transform)
    (fun kind _ _ _ h hn _ ↦ NodeKind.twin_transform h kind hn) (fun _ _ _ ↦ rfl)
    h.graph.order h.graph.tight

theorem registerNodes (env : CompileEnv)
    (hl : Graph.Counterparts ρ loose s.ctx.executionList t.ctx.executionList)
    (htight : ∀ n ∈ s.ctx.executionList, ¬loose n) :
    Twin ρ loose shared (s.registerNodes env) (t.registerNodes env) :=
  h.foldl_nodes env (f := NodeKind.register)
    (fun kind _ _ _ h hn hkind ↦ NodeKind.twin_register h kind hn hkind) (fun _ _ _ ↦ rfl)
    hl htight

theorem entryData_eq (hn : ¬loose entry) :
    entryData t.graph (ρ entry) = entryData s.graph entry := by
  rw [entryData, entryData, h.graph.kind?_eq hn]

theorem createFunction (hn : ¬loose entry) :
    (t.createFunction (ρ entry)).1 = (s.createFunction entry).1 ∧
      Twin ρ loose shared (s.createFunction entry).2 (t.createFunction (ρ entry)).2 := by
  have hfault (overridden : Option (String × Function)) :
      t.creationFault? overridden = s.creationFault? overridden := by
    unfold creationFault?
    rw [h.cls]
    exact (congrArg (fun c : FunctionContext ↦ creationFault? { s with ctx := c } overridden)
      h.ctx.core :)
  have hnew (data : EntryData) (overridden : Option (String × Function)) :
      newFunction t.ctx data overridden = newFunction s.ctx data overridden :=
    (congrArg (newFunction · data overridden) h.ctx.core :)
  unfold FunctionState.createFunction
  dsimp only
  rw [hfault, hnew, h.ctx.functionName, h.cls, h.entryData_eq hn]
  split
  · exact ⟨rfl, h.error _ _ _ _⟩
  · split
    · exact ⟨rfl, h.error _ _ _ _⟩
    · refine ⟨rfl, { h.ctx with core := ?_ }, rfl, h.names⟩
      exact (congrArg (FunctionContext.markAsNetFunction · _) h.ctx.core :)

theorem addUserLocal (m : NodeId) (v : LocalVariable) :
    Twin ρ loose shared (addUserLocal n s v) (addUserLocal m t v) := by
  obtain ⟨hid, hadded⟩ := h.ctx.addTerm .userLocal v.name v.ty (some (s.graph.nodeToken n))
    (some (t.graph.nodeToken m))
  unfold FunctionState.addUserLocal
  dsimp only
  rw [hid]
  exact h.setCtx (hadded.modifyTerm _ fun _ ↦ rfl)

theorem checkSignature (m : NodeId) (overridden : Option (String × Function)) :
    Twin ρ loose shared (s.checkSignature n overridden) (t.checkSignature m overridden) := by
  cases overridden with
  | none => exact h
  | some o =>
    unfold FunctionState.checkSignature
    rw [h.ctx.functionName, h.cls]
    dsimp only
    split
    · exact h
    · split
      · exact h
      · exact h.error _ _ _ _

theorem dropUnusedWorldContext (env : CompileEnv) (hn : ¬loose entry) : Twin ρ loose shared
    { s with ctx.graph := dropUnusedWorldContext env entry s.graph }
    { t with ctx.graph := FunctionState.dropUnusedWorldContext env (ρ entry) t.graph } := by
  unfold FunctionState.dropUnusedWorldContext
  rw [h.graph.findPin?_eq hn]
  split
  · exact h
  · split
    · next p hp =>
      rw [h.graph.linksOf_eq (h.graph.shared_of_findPin? hp)]
      split
      · exact h.setCtx (h.ctx.setGraph (h.graph.removePin (h.graph.shared_of_findPin? hp))
          fun k kind hk ↦ (Graph.kind?_removePin _ p k).symm.trans hk)
      · exact h
    · exact h

theorem layOut (env : CompileEnv) (hn : ¬loose entry) :
    Twin ρ loose shared (s.layOut env entry) (t.layOut env (ρ entry)) := by
  have hscheduled : Twin ρ loose shared
      { s with ctx.executionList := s.graph.schedule.1, log := s.log.pushAll s.graph.schedule.2 }
      { t with ctx.executionList := t.graph.schedule.1, log := t.log.pushAll t.graph.schedule.2 } :=
    ⟨{ h.ctx with core := h.ctx.core }, h.cls, h.names⟩
  have hlocals := hscheduled.foldl (f := FunctionState.addUserLocal entry)
    (k := FunctionState.addUserLocal (ρ entry)) (l := (entryData s.graph entry).localVariables)
    fun v _ _ _ h ↦ h.addUserLocal (ρ entry) v
  rw [layOut_eq, layOut_eq, registered, registered, h.entryData_eq hn]
  refine (hlocals.registerNodes env ?_ ?_).createProperties
  · rw [(graphSteps_addUserLocals entry _ _).sameFunction.executionList,
      (graphSteps_addUserLocals (ρ entry) _ _).sameFunction.executionList]
    exact h.graph.schedule
  · rw [(graphSteps_addUserLocals entry _ _).sameFunction.executionList]
    exact fun n hn ↦ h.graph.tight n (Graph.mem_order_of_mem_schedule hn)

end FunctionState.Twin

end VisualScript
