import VisualScript.Proofs.Class.Defaults
import VisualScript.Proofs.Class.Inheritance
import VisualScript.Proofs.Reports.Functions

/-!
# Compiling again

A compiled Blueprint has settled names, and its class is what the next compile starts from.
That compile shapes the same class from what is carried over, makes the same functions
whatever was reported, and gives the class the same default object.
-/

namespace VisualScript

open Logged (Alike)

/-! ## Settled Blueprints -/

open Naming in
/-- Settling renames members and references to them, and graphs of functions.  What is up to none
of these stays. -/
theorem Blueprint.settleNames_keeps {α : Type} (F : Blueprint → α)
    (hgraphs : ∀ b f, F (b.mapGraphs f) = F b)
    (hvariables : ∀ b i name, F { b with
      newVariables := b.newVariables.modify i fun v ↦ { v with name } } = F b)
    (htimelines : ∀ b i name, F { b with
      timelines := b.timelines.modify i fun t ↦ { t with name } } = F b)
    (hscript : ∀ b script, F { b with constructionScript := script } = F b)
    (hfunctions : ∀ b graphs, F { b with functionGraphs := graphs } = F b)
    (b : Blueprint) (log : MessageLog) : F (b.settleNames log).1 = F b := by
  have hloop {step : Naming → Nat → Naming}
      (hstep : ∀ s i, F (step s i).blueprint = F s.blueprint) (l : List Nat) (s : Naming) :
      F (l.foldl step s).blueprint = F s.blueprint :=
    List.foldlRecOn (motive := fun s' : Naming ↦ F s'.blueprint = F s.blueprint) l step rfl
      fun s' hs i _ ↦ (hstep s' i).trans hs
  have hvariable (s : Naming) (i : Nat) : F (s.settleVariable i).blueprint = F s.blueprint := by
    unfold settleVariable
    split
    · rfl
    · dsimp only
      split
      · rfl
      · rw [hvariables]
        split
        · rfl
        · exact hgraphs _ _
  have htimeline (s : Naming) (i : Nat) : F (s.settleTimeline i).blueprint = F s.blueprint := by
    unfold settleTimeline
    split
    · rfl
    · dsimp only
      split
      · rfl
      · exact (htimelines _ _ _).trans (hgraphs _ _)
  have hfunction (s : Naming) (i : Nat) : F (s.settleFunction i).blueprint = F s.blueprint := by
    unfold settleFunction
    split
    · rfl
    · dsimp only
      split
      · rfl
      · exact (hfunctions _ _).trans (hgraphs _ _)
  have hcomponents (s : Naming) : F s.settleComponents.blueprint = F s.blueprint := by
    unfold settleComponents
    split
    · rfl
    · exact List.foldlRecOn (motive := fun s' : Naming ↦ F s'.blueprint = F s.blueprint) _ _
        (hscript _ _) fun _ hs _ _ ↦ (hgraphs _ _).trans hs
  exact (hloop hfunction _ _).trans ((hcomponents _).trans
    ((hloop htimeline _ _).trans (hloop hvariable _ _)))

/-- Settling names changes nothing that the functions are compiled under. -/
theorem Blueprint.environment_settleNames (b : Blueprint) (options : CompileOptions)
    (log : MessageLog) : (b.settleNames log).1.environment options = b.environment options :=
  settleNames_keeps (·.environment options) (fun _ _ ↦ rfl) (fun _ _ _ ↦ rfl) (fun _ _ _ ↦ rfl)
    (fun _ _ ↦ rfl) (fun _ _ ↦ rfl) b log

namespace Blueprint

/-! ## The class that is carried over -/

/-- The class that a compile starts from, but for what is carried over. -/
def blankClass (b : Blueprint) : Class :=
  let c := Class.new b.generatedClassName (some b.parentClass)
  { c with own.generatedBy := some b.name }

/-- What is carried over from the last class. -/
def carried (b : Blueprint) : SubObjects := b.generatedClass.elim {} (·.subObjects)

theorem freshClass_eq (b : Blueprint) : b.freshClass =
    (b.blankClass.withSubObjects b.carried, b.generatedClass.bind (·.own.defaultObject)) := by
  unfold freshClass carried
  cases b.generatedClass <;> rfl

/-- The Blueprint with another class, and other graphs to look at. -/
def withProducts (b : Blueprint) (cls : Option Class) (graphs : List Graph) : Blueprint :=
  { b with generatedClass := cls, intermediateGeneratedGraphs := graphs }

variable (b : Blueprint) (options : CompileOptions) (suffix : Bool)

variable {b} {b' : Blueprint} {log : MessageLog}

/-- The class is shaped from the settled declarations and what is carried over. -/
theorem shaped_eq (h : b.settleNames .empty = (b', log)) :
    let s := ClassState.shaped ⟨b'.blankClass.withSubObjects b'.carried, log⟩ b' suffix
    b.shaped suffix =
      { blueprint := { b' with generatedClass := none }, cls := s.cls, log := s.log } := by
  unfold shaped
  rw [h]
  dsimp only
  rw [freshClass_eq]
  rfl

/-- A class that carries over what it left is shaped as it was, whatever was reported. -/
theorem alike_shaped (h : b.settleNames .empty = (b', log)) {cls : Class} {graphs : List Graph}
    (hsettled : (b'.withProducts (some cls) graphs).settleNames .empty =
      (b'.withProducts (some cls) graphs, .empty))
    (hcarried : cls.subObjects = (b.shaped suffix).cls.subObjects) :
    Alike (b.shaped suffix) ((b'.withProducts (some cls) graphs).shaped suffix) := by
  have hcls : (ClassState.shaped ⟨b'.blankClass.withSubObjects cls.subObjects, .empty⟩ b' suffix).cls =
      (ClassState.shaped ⟨b'.blankClass.withSubObjects b'.carried, log⟩ b' suffix).cls := by
    rw [hcarried, shaped_eq suffix h]
    exact ClassState.shaped_withSubObjects b'.blankClass b' suffix _ _ _
  have hagain : (ClassState.shaped ⟨(b'.withProducts (some cls) graphs).blankClass.withSubObjects
      (b'.withProducts (some cls) graphs).carried, .empty⟩ (b'.withProducts (some cls) graphs)
        suffix) = ClassState.shaped ⟨b'.blankClass.withSubObjects cls.subObjects, .empty⟩ b' suffix :=
    rfl
  rw [shaped_eq suffix h, shaped_eq suffix hsettled, hagain, hcls]
  exact ⟨_, graphs, rfl⟩

/-! ## The class of a compile -/

/-- The class is finished around the functions and gets the scripts. -/
theorem cls_compile (h : b.settleNames .empty = (b', log)) : (b.compile options suffix).cls =
    let c := (b.shaped suffix).compileFunctions (b.environment options)
    (c.linkedClass.withDefaults (ClassState.settledDefaults c.linkedClass c.blueprint.newVariables
      b'.freshClass.2 options.isRegeneratingOnLoad)).generateCode c.contexts
        options.isSkeletonOnly := by
  dsimp only
  rw [compile_eq_deliver, Compilation.cls_deliver, Compilation.cls_finishClass,
    (Compilation.finishClass_keeps _ _ _).2.2, h]
  rfl

theorem defaultObject_compile (h : b.settleNames .empty = (b', log)) :
    let c := (b.shaped suffix).compileFunctions (b.environment options)
    (b.compile options suffix).cls.own.defaultObject =
      some (ClassState.settledDefaults c.linkedClass c.blueprint.newVariables
        b'.freshClass.2 options.isRegeneratingOnLoad) := by
  have hgenerated (c : Class) (contexts : List FunctionContext) (skeletonOnly : Bool) :
      (c.generateCode contexts skeletonOnly).own.defaultObject = c.own.defaultObject :=
    List.foldlRecOn (motive := fun d : Class ↦ d.own.defaultObject = c.own.defaultObject)
      contexts _ rfl fun _ hd _ _ ↦ hd
  dsimp only
  rw [cls_compile options suffix h, hgenerated]
  rfl

/-! ## Names that stay -/

/-- Settling renames no function graph: each name is acceptable beside the settled members and
those before it. -/
def KeepsFunctions (b : Blueprint) : Prop :=
  (NameValidator.ofNames (Naming.propertyNames (b.settleNames .empty).1)).changes
    b.declarations.functionNames = []

theorem settleNames_withProducts (h : b.settleNames .empty = (b', log)) (hends : b.MembersEnd)
    (hkept : b.KeepsFunctions) (cls : Option Class) (graphs : List Graph) :
    (b'.withProducts cls graphs).settleNames .empty = (b'.withProducts cls graphs, .empty) := by
  obtain ⟨⟨b₁, v, log₁⟩, hb', hproperties, hnames, -, -, hmembers⟩ := exists_settled .empty hends
  have haccepts := NameValidator.changes_eq_nil_iff.1 hkept
  rw [h] at hb' hproperties hmembers haccepts
  rw [← hproperties, ← hnames] at haccepts
  -- none of the function graphs is renamed, so the members alone were settled
  obtain rfl : b₁ = b' := (Naming.settleFunctions_of_accepts haccepts).1.symm.trans hb'
  exact settleNames_of_accepts hmembers haccepts

/-- If no function graph was renamed, then a compiled Blueprint compiles to the class that it has,
and no name in it changes or is reported.  It matters neither which class there was before the
first compile nor which defaults count more. -/
theorem compile_idempotent (hends : b.MembersEnd) (hkept : b.KeepsFunctions) :
    let c := b.compile options suffix
    c.blueprint.settleNames .empty = (c.blueprint, .empty) ∧
      (c.blueprint.compile options suffix).cls = c.cls := by
  intro c
  obtain ⟨graphs, hblueprint⟩ := b.blueprint_compile options suffix
  obtain ⟨⟨b', log⟩, h⟩ : ∃ r, b.settleNames .empty = r := ⟨_, rfl⟩
  rw [h] at hblueprint
  have hsettled := settleNames_withProducts h hends hkept (some c.cls) graphs
  have hcarried : c.cls.subObjects = (b.shaped suffix).cls.subObjects :=
    Class.subObjects_of_frame (b.accounted_compile options suffix).frame
  have halike := Compilation.compileFunctions_ignoresLog (b.environment options)
    (alike_shaped suffix h hsettled hcarried)
  have henvironment : (b'.withProducts (some c.cls) graphs).environment options =
      b.environment options := by
    have hkept := b.environment_settleNames options .empty
    rw [h] at hkept
    exact hkept
  have hblueprint : c.blueprint = b'.withProducts (some c.cls) graphs := hblueprint
  rw [hblueprint]
  refine ⟨hsettled, ?_⟩
  obtain ⟨log', graphs', hagain⟩ := halike
  have hold : (b'.withProducts (some c.cls) graphs).freshClass.2 = c.cls.own.defaultObject := rfl
  have hcls : c.cls = _ := cls_compile options suffix h
  rw [cls_compile options suffix hsettled, henvironment, hagain, hold,
    defaultObject_compile options suffix h, hcls]
  generalize (b.shaped suffix).compileFunctions (b.environment options) = c₁
  have hlinked : Compilation.linkedClass { c₁ with
      log := log'
      blueprint := { c₁.blueprint with intermediateGeneratedGraphs := graphs' } } = c₁.linkedClass :=
    Compilation.linkedClass_congr rfl (List.forall₂_same.2 fun ctx _ ↦ .refl ctx)
  dsimp only
  rw [hlinked, ClassState.settledDefaults_settledDefaults]

/-- A Blueprint with a class from before, which has a value for its variable under the name that
it gets, and a template for a component that is gone. -/
def revised : Blueprint :=
  let old := Class.new "Reader_C" none
  { reading ["A"] "A" with
    newVariables := [{ VariableDescription.new "A" .int with defaultValue := "3" }]
    generatedClass := some { old with
      own.defaultObject := some ⟨[("A_1", .int 7)]⟩
      own.componentTemplates := [⟨"Lamp_GEN_VARIABLE", "Light"⟩] } }

theorem compile_idempotent_revised :
    let options : CompileOptions := { isRegeneratingOnLoad := true }
    let c := revised.compile options true
    revised.MembersEnd ∧ revised.KeepsFunctions ∧
      c.blueprint.settleNames .empty = (c.blueprint, .empty) ∧
      (c.blueprint.compile options true).cls = c.cls := by
  intro options c
  have hends : revised.MembersEnd := .of_length (by decide +kernel)
  have hkept : revised.KeepsFunctions := by
    unfold KeepsFunctions
    decide +kernel
  exact ⟨hends, hkept, compile_idempotent options true hends hkept⟩

end Blueprint

end VisualScript
