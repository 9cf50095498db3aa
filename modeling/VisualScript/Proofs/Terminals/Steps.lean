import VisualScript.Handler.Dispatch
import VisualScript.Proofs.Log
import VisualScript.Proofs.Terminals.Basic
import Mathlib.Logic.Relation

/-!
# What a node does to its function

Whatever kind a node is of, registering and compiling it are made of a few steps:
it names nets, makes terminals, leads its own pins to them, appends statements of
its own and reports errors.  What these steps keep, every handler keeps.
-/

namespace VisualScript

/-- A variable that a node of the graph reads or writes on a class that it names. -/
def Graph.NamesExplicitly (g : Graph) (storage : String) : Prop :=
  ∃ n var owner, (g.kind? n = some (.variableGet var) ∨ g.kind? n = some (.variableSet (some var))) ∧
    var.owner = some owner ∧ storage = owner ++ "." ++ var.name

/-- What the terminal was made for is part of a graph and not a property. -/
def Terminal.Sourced (t : Terminal) : Prop := ∀ name, t.source.map (·.object) ≠ some (.property name)

namespace FunctionState

/-- A terminal that a node may make: a fresh one and, if it is kept on the class, one for a net of
the event graph, and if it stands for a member, one that the class has or that is named
explicitly. -/
structure Admits (s : FunctionState) (term : Terminal) : Prop where
  unassociated : term.associatedProperty = none
  sourced : term.Sourced
  stored : term.kind = .eventGraphLocal →
    s.ctx.isEventGraph = true ∧ ∃ p, s.classNetNames.get? p = some term.name
  member : term.kind = .memberReference →
    (s.cls.findProperty? term.name).isSome ∨ s.graph.NamesExplicitly term.name

/-- One step of the node `n`, which may make terminals of some kinds and may append code. -/
inductive NodeStep (kinds : TermKind → Prop) (code : Prop) (n : NodeId) (s : FunctionState) :
    FunctionState → Prop
  | names (onClass inFrame : NetNameMap) : s.classNetNames.Extends onClass →
      NodeStep kinds code n s { s with classNetNames := onClass, ctx.localNetNames := inFrame }
  | push (term : Terminal) : kinds term.kind → s.Admits term →
      NodeStep kinds code n s { s with ctx := (s.ctx.pushTerm term).2 }
  | net {p : PinId} {t : TermId} {pin : Pin} {term : Terminal} : p ∈ s.graph.pinsOf n →
      s.graph.pin? p = some pin → s.ctx.term? t = some term →
      (pin.direction = .input → term.kind = .literal) → NodeStep kinds code n s (s.setNet p t)
  | touch (t : TermId) (f : Terminal → Terminal) :
      (∀ term, term.Agrees (f term) ∧
        (f term).associatedProperty = term.associatedProperty ∧ (f term).source = term.source) →
      NodeStep kinds code n s { s with ctx := s.ctx.modifyTerm t f }
  | append (statement : Statement) : code → NodeStep kinds code n s (s.append n statement)
  | error (text : String) (tokens : List SourceToken) :
      NodeStep kinds code n s (s.error text tokens)
  | stop (text : String) (tokens : List SourceToken) :
      NodeStep kinds code n s (s.error text tokens).fail

/-- Any number of steps of a node. -/
abbrev NodeSteps (kinds : TermKind → Prop) (code : Prop) (n : NodeId) :
    FunctionState → FunctionState → Prop :=
  Relation.ReflTransGen (NodeStep kinds code n)

/-- Any number of steps of any nodes. -/
abbrev GraphSteps (kinds : TermKind → Prop) (code : Prop) :
    FunctionState → FunctionState → Prop :=
  Relation.ReflTransGen fun s s' ↦ ∃ n, NodeStep kinds code n s s'

/-- What registering a node may do; local variables are declared before. -/
abbrev RegisterSteps : NodeId → FunctionState → FunctionState → Prop :=
  NodeSteps (· ≠ .userLocal) False

/-- What compiling a node may do. -/
abbrev CompileSteps : NodeId → FunctionState → FunctionState → Prop :=
  NodeSteps (· = .memberReference) True

theorem NodeStep.mono {kinds kinds' : TermKind → Prop} {code : Prop} {n : NodeId}
    {s s' : FunctionState} (h : NodeStep kinds code n s s') (hkinds : ∀ kind, kinds kind → kinds' kind) :
    NodeStep kinds' code n s s' := by
  cases h with
  | names onClass inFrame hnames => exact .names onClass inFrame hnames
  | push term hkind hadmits => exact .push term (hkinds _ hkind) hadmits
  | net hmem hpin hterm hliteral => exact .net hmem hpin hterm hliteral
  | touch t f hf => exact .touch t f hf
  | append statement hcode => exact .append statement hcode
  | error text tokens => exact .error text tokens
  | stop text tokens => exact .stop text tokens

theorem GraphSteps.mono {kinds kinds' : TermKind → Prop} {code : Prop} {s s' : FunctionState}
    (h : GraphSteps kinds code s s') (hkinds : ∀ kind, kinds kind → kinds' kind) :
    GraphSteps kinds' code s s' :=
  Relation.ReflTransGen.mono (fun _ _ hstep ↦ hstep.imp fun _ ↦ (·.mono hkinds)) s s' h

/-! ## The function -/

/-- The same function of the same class is under compilation. -/
structure SameFunction (s s' : FunctionState) : Prop where
  outline : s'.ctx.outline = s.ctx.outline
  cls : s'.cls = s.cls

namespace SameFunction

theorem refl (s : FunctionState) : SameFunction s s := ⟨rfl, rfl⟩

theorem trans {s t u : FunctionState} (h : SameFunction s t) (h' : SameFunction t u) :
    SameFunction s u :=
  ⟨h'.outline.trans h.outline, h'.cls.trans h.cls⟩

variable {s s' : FunctionState} (h : SameFunction s s')
include h

theorem graph : s'.graph = s.graph := FunctionContext.graph_of_outline h.outline

theorem functionName : s'.ctx.functionName = s.ctx.functionName :=
  FunctionContext.functionName_of_outline h.outline

theorem flags : s'.ctx.flags = s.ctx.flags := FunctionContext.flags_of_outline h.outline

theorem delegateSignatureName : s'.ctx.delegateSignatureName = s.ctx.delegateSignatureName :=
  FunctionContext.delegateSignatureName_of_outline h.outline

theorem stub : s'.ctx.stub = s.ctx.stub := FunctionContext.stub_of_outline h.outline

theorem entryPoint : s'.ctx.entryPoint = s.ctx.entryPoint :=
  FunctionContext.entryPoint_of_outline h.outline

theorem executionList : s'.ctx.executionList = s.ctx.executionList :=
  FunctionContext.executionList_of_outline h.outline

end SameFunction

/-! ## What steps keep -/

section Steps

variable {kinds : TermKind → Prop} {code : Prop} {n : NodeId} {s s' : FunctionState}

theorem NodeStep.sameFunction (h : NodeStep kinds code n s s') : SameFunction s s' := by
  cases h with
  | push term => exact ⟨FunctionContext.outline_pushTerm s.ctx term, rfl⟩
  | _ => exact ⟨rfl, rfl⟩

theorem NodeSteps.graphSteps (h : NodeSteps kinds code n s s') : GraphSteps kinds code s s' :=
  Relation.ReflTransGen.mono (fun _ _ hstep ↦ ⟨n, hstep⟩) s s' h

/-- What every step keeps, any steps keep. -/
theorem GraphSteps.keeps {P : FunctionState → Prop} (h : GraphSteps kinds code s s') (hs : P s)
    (hstep : ∀ {n t t'}, NodeStep kinds code n t t' → P t → P t') : P s' := by
  induction h with
  | refl => exact hs
  | tail _ hlast ih =>
    obtain ⟨n, hlast⟩ := hlast
    exact hstep hlast ih

theorem GraphSteps.sameFunction (h : GraphSteps kinds code s s') : SameFunction s s' :=
  h.keeps (.refl s) fun hstep hs ↦ hs.trans hstep.sameFunction

theorem NodeSteps.sameFunction (h : NodeSteps kinds code n s s') : SameFunction s s' :=
  h.graphSteps.sameFunction

/-- Errors are never taken back, and a function that fails has one. -/
theorem NodeStep.errors (h : NodeStep kinds code n s s') :
    s.log.numErrors ≤ s'.log.numErrors ∧
      (s'.ctx.failed = s.ctx.failed ∨ s.log.numErrors < s'.log.numErrors) := by
  cases h with
  | push term => exact ⟨Nat.le_refl _, .inl (FunctionContext.failed_pushTerm s.ctx term)⟩
  | error text tokens => exact ⟨Nat.le_succ _, .inl rfl⟩
  | stop text tokens => exact ⟨Nat.le_succ _, .inr (Nat.lt_succ_self _)⟩
  | _ => exact ⟨Nat.le_refl _, .inl rfl⟩

theorem GraphSteps.errors (h : GraphSteps kinds code s s') :
    s.log.numErrors ≤ s'.log.numErrors ∧
      (s'.ctx.failed = s.ctx.failed ∨ s.log.numErrors < s'.log.numErrors) := by
  induction h with
  | refl => exact ⟨Nat.le_refl _, .inl rfl⟩
  | tail _ hstep ih =>
    obtain ⟨n, hstep⟩ := hstep
    obtain ⟨hle, hfailed⟩ := hstep.errors
    obtain ⟨ihle, ihfailed⟩ := ih
    refine ⟨Nat.le_trans ihle hle, ?_⟩
    rcases ihfailed, hfailed with ⟨ihsame | ihlt, hsame | hlt⟩
    · exact .inl (hsame.trans ihsame)
    · exact .inr (Nat.lt_of_le_of_lt ihle hlt)
    · exact .inr (Nat.lt_of_lt_of_le ihlt hle)
    · exact .inr (Nat.lt_of_lt_of_le ihlt hle)

/-- A node that does not append code leaves all code as it is. -/
theorem NodeStep.nodeStatements (h : NodeStep kinds False n s s') :
    s'.ctx.nodeStatements = s.ctx.nodeStatements := by
  cases h with
  | push term => exact FunctionContext.nodeStatements_pushTerm s.ctx term
  | append statement hcode => exact hcode.elim
  | _ => rfl

theorem GraphSteps.nodeStatements (h : GraphSteps kinds False s s') :
    s'.ctx.nodeStatements = s.ctx.nodeStatements :=
  h.keeps (P := fun t ↦ t.ctx.nodeStatements = s.ctx.nodeStatements) rfl
    fun hstep ht ↦ hstep.nodeStatements.trans ht

/-! ### Terminals -/

/-- Every terminal stands on its list, every net is typed, and members are there. -/
structure Registered (s : FunctionState) : Prop where
  enlisted : s.ctx.Enlisted
  nets : s.ctx.NetsTyped
  members : ∀ term ∈ s.ctx.terms, term.kind = .memberReference →
    (s.cls.findProperty? term.name).isSome ∨ s.graph.NamesExplicitly term.name

theorem NodeStep.registered (h : NodeStep kinds code n s s') (hs : s.Registered) :
    s'.Registered := by
  obtain ⟨henlisted, hnets, hmembers⟩ := hs
  cases h with
  | push term hkind hadmits =>
    refine ⟨henlisted.pushTerm term, hnets.pushTerm term, fun old hold hmember ↦ ?_⟩
    simp only [graph, FunctionContext.graph_pushTerm]
    rcases (s.ctx.mem_terms_pushTerm).1 hold with hold | rfl
    · exact hmembers old hold hmember
    · exact hadmits.member hmember
  | net hmem hpin hterm hkind => exact ⟨henlisted, hnets.setNet hpin hterm hkind, hmembers⟩
  | touch t f hf =>
    refine ⟨henlisted.modifyTerm t fun term ↦ (hf term).1.kind,
      hnets.modifyTerm t fun term ↦ (hf term).1.kind, fun term hterm hmember ↦ ?_⟩
    obtain ⟨old, hold, rfl | rfl⟩ := s.ctx.of_mem_terms_modifyTerm hterm
    · exact hmembers term hold hmember
    · rw [(hf old).1.name]
      exact hmembers old hold ((hf old).1.kind ▸ hmember)
  | _ => exact ⟨henlisted, hnets, hmembers⟩

theorem GraphSteps.registered (h : GraphSteps kinds code s s') (hs : s.Registered) :
    s'.Registered :=
  h.keeps hs NodeStep.registered

/-- No node makes properties. -/
theorem NodeStep.unassociated (h : NodeStep kinds code n s s')
    (hs : ∀ term ∈ s.ctx.terms, term.associatedProperty = none) :
    ∀ term ∈ s'.ctx.terms, term.associatedProperty = none := by
  cases h with
  | push new hkind hadmits =>
    intro term hterm
    rcases (s.ctx.mem_terms_pushTerm).1 hterm with hold | rfl
    · exact hs term hold
    · exact hadmits.unassociated
  | touch t f hf =>
    intro term hterm
    obtain ⟨old, hold, rfl | rfl⟩ := s.ctx.of_mem_terms_modifyTerm hterm
    · exact hs term hold
    · exact (hf old).2.1.trans (hs old hold)
  | _ => exact hs

theorem GraphSteps.unassociated (h : GraphSteps kinds code s s')
    (hs : ∀ term ∈ s.ctx.terms, term.associatedProperty = none) :
    ∀ term ∈ s'.ctx.terms, term.associatedProperty = none :=
  h.keeps (P := fun t ↦ ∀ term ∈ t.ctx.terms, term.associatedProperty = none) hs
    NodeStep.unassociated

/-! ### Sources -/

/-- No node adds to the table of sources. -/
theorem NodeStep.sources (h : NodeStep kinds code n s s') : s'.log.sources = s.log.sources := by
  cases h <;> rfl

theorem GraphSteps.sources (h : GraphSteps kinds code s s') : s'.log.sources = s.log.sources :=
  h.keeps (P := fun t ↦ t.log.sources = s.log.sources) rfl fun hstep ht ↦ hstep.sources.trans ht

theorem NodeStep.sourced (h : NodeStep kinds code n s s')
    (hs : ∀ term ∈ s.ctx.terms, term.Sourced) : ∀ term ∈ s'.ctx.terms, term.Sourced := by
  cases h with
  | push new hkind hadmits =>
    intro term hterm
    rcases (s.ctx.mem_terms_pushTerm).1 hterm with hold | rfl
    · exact hs term hold
    · exact hadmits.sourced
  | touch t f hf =>
    intro term hterm
    obtain ⟨old, hold, rfl | rfl⟩ := s.ctx.of_mem_terms_modifyTerm hterm
    · exact hs term hold
    · rw [Terminal.Sourced, (hf old).2.2]
      exact hs old hold
  | _ => exact hs

theorem GraphSteps.sourced (h : GraphSteps kinds code s s')
    (hs : ∀ term ∈ s.ctx.terms, term.Sourced) : ∀ term ∈ s'.ctx.terms, term.Sourced :=
  h.keeps (P := fun t ↦ ∀ term ∈ t.ctx.terms, term.Sourced) hs NodeStep.sourced

end Steps

end FunctionState

end VisualScript
