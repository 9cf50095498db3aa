import Mathlib.Data.List.Forall2
import VisualScript.Proofs.Class.Carrying
import VisualScript.Proofs.Compile.Isolation

/-!
# Finished classes

What is done to a class around its functions is up to the class and what the Blueprint
declares.  Nothing of it is up to what was reported, and finishing leaves the functions
alone.
-/

namespace VisualScript

/-- The class with this default object. -/
def Class.withDefaults (c : Class) (defaults : DefaultObject) : Class :=
  { c with own.defaultObject := some defaults }

/-! ## Finishing -/

namespace ClassState

theorem checkRepNotifies_congr {s s' : ClassState} (h : s'.cls = s.cls) :
    s'.checkRepNotifies.cls = s.checkRepNotifies.cls := by
  have hclear (e : String × String) : LeavesAside (fun o ↦ o) (clearRepNotify · e) :=
    .modify (F := (·.modifyProperty e.1 fun p ↦
      { p with repNotify := none, flags := p.flags.without PropertyFlags.repNotify })) fun _ ↦ rfl
  unfold checkRepNotifies
  rw [h]
  exact (LeavesAside.foldl hclear _).congr h

theorem cls_checkDelegates (s : ClassState) : s.checkDelegates.cls = s.cls :=
  List.foldlRecOn (motive := fun s' : ClassState ↦ s'.cls = s.cls) _ _ rfl
    fun _ hs _ _ ↦ hs

/-! ### Default objects -/

/-- The default that a variable declares for an own property, if it can be read. -/
def declaredDefault? (c : Class) (v : VariableDescription) : Option (String × Value) :=
  if v.defaultValue.isEmpty || (c.findOwnProperty? v.name).isNone then none
  else (Value.parse? v.ty v.defaultValue).map (v.name, ·)

/-- The default object of a class with these variables, made from the last one. -/
def settledDefaults (c : Class) (vars : List VariableDescription)
    (old : Option DefaultObject) (isRegenerating : Bool) : DefaultObject :=
  let declared := vars.filterMap (declaredDefault? c)
  let kept := fittingValues c old
  if isRegenerating then ((zeroDefaults c).setAll declared).setAll kept
  else ((zeroDefaults c).setAll kept).setAll declared

theorem foldl_applyDeclared (c : Class) (vars : List VariableDescription)
    (acc : DefaultObject × MessageLog) :
    (vars.foldl (applyDeclared c) acc).1 =
      acc.1.setAll (vars.filterMap (declaredDefault? c)) := by
  induction vars generalizing acc with
  | nil => rfl
  | cons v vars ih =>
    rw [List.foldl_cons, ih, List.filterMap_cons]
    unfold applyDeclared declaredDefault?
    dsimp only
    split
    · rfl
    · cases Value.parse? v.ty v.defaultValue with
      | none => rfl
      | some value => rfl

theorem cls_buildDefaults (s : ClassState) (b : Blueprint) (old : Option DefaultObject)
    (isRegenerating : Bool) : (s.buildDefaults b old isRegenerating).cls =
      s.cls.withDefaults (settledDefaults s.cls b.newVariables old isRegenerating) := by
  have hdeclared (d : DefaultObject) := foldl_applyDeclared s.cls b.newVariables (d, s.log)
  unfold buildDefaults settledDefaults
  cases isRegenerating with
  | true =>
    exact congrArg (fun d : DefaultObject ↦
      s.cls.withDefaults (d.setAll (fittingValues s.cls old))) (hdeclared _)
  | false =>
    exact congrArg s.cls.withDefaults (hdeclared _)

end ClassState

/-! ### Around the functions -/

namespace Compilation

open FunctionState (SameHeader)

theorem bindDelegate_congr {c c' : Compilation} {ctx ctx' : FunctionContext}
    (hcls : c'.cls = c.cls) (hheader : SameHeader ctx ctx') :
    (c'.bindDelegate ctx').cls = (c.bindDelegate ctx).cls := by
  unfold bindDelegate
  rw [hcls, hheader.delegateSignatureName, hheader.functionName]
  split
  · exact hcls
  · split <;> rfl

/-- The class with the delegates bound and laid out, without a default object. -/
def linkedClass (c : Compilation) : Class :=
  let c := c.contexts.foldl bindDelegate c
  (ClassState.mk c.cls c.log).checkRepNotifies.cls.staticLink

theorem linkedClass_congr {c c' : Compilation} (hcls : c'.cls = c.cls)
    (hcontexts : List.Forall₂ SameHeader c.contexts c'.contexts) :
    c'.linkedClass = c.linkedClass := by
  have hbound {contexts contexts' : List FunctionContext}
      (h : List.Forall₂ SameHeader contexts contexts') {c c' : Compilation}
      (hcls : c'.cls = c.cls) :
      (contexts'.foldl bindDelegate c').cls = (contexts.foldl bindDelegate c).cls := by
    induction h generalizing c c' with
    | nil => exact hcls
    | cons hheader _ ih => exact ih (bindDelegate_congr hcls hheader)
  exact congrArg Class.staticLink (ClassState.checkRepNotifies_congr (hbound hcontexts hcls))

/-- Linking keeps the functions and gives the class no further properties. -/
theorem adds_linkedClass (c : Compilation) : c.cls.Adds c.linkedClass [] := by
  have hbound : c.cls.Adds (c.contexts.foldl bindDelegate c).cls [] := by
    refine List.foldlRecOn (motive := fun c' : Compilation ↦ c.cls.Adds c'.cls []) c.contexts
      bindDelegate (.refl _ _) fun c' hc ctx _ ↦ hc.trans (?_ : c'.cls.Adds _ [])
    unfold bindDelegate
    split
    · exact .refl _ _
    · split
      · exact .modifyProperty _ _ _ fun _ ↦ rfl
      · exact .refl _ _
  have hchecked (s : ClassState) : s.cls.Adds s.checkRepNotifies.cls [] := by
    have hcleared (s : ClassState) (e : String × String) :
        s.cls.Adds (s.clearRepNotify e).cls [] := .modifyProperty s.cls e.1 _ fun _ ↦ rfl
    exact (ClassState.adds_foldl hcleared _ s).mono fun name hname ↦ by simp at hname
  have hlinked (d : Class) : d.Adds d.staticLink [] := .of_eq rfl rfl (map_name_placeAll _ _)
  exact (hbound.trans (hchecked ⟨_, (c.contexts.foldl bindDelegate c).log⟩)).trans (hlinked _)

theorem frame_linkedClass (c : Compilation) : c.linkedClass.frame = c.cls.frame := by
  have hbound : (c.contexts.foldl bindDelegate c).cls.frame = c.cls.frame := by
    refine List.foldlRecOn (motive := fun c' : Compilation ↦ c'.cls.frame = c.cls.frame) c.contexts
      bindDelegate rfl fun c' hc ctx _ ↦ ?_
    rw [← hc]
    unfold bindDelegate
    split
    · rfl
    · split <;> rfl
  have hchecked (s : ClassState) : s.checkRepNotifies.cls.frame = s.cls.frame :=
    List.foldlRecOn (motive := fun s' : ClassState ↦ s'.cls.frame = s.cls.frame) _ _ rfl
      fun _ hs _ _ ↦ hs
  exact (hchecked _).trans hbound

theorem blueprint_bindDelegates (c : Compilation) (contexts : List FunctionContext) :
    (contexts.foldl bindDelegate c).blueprint = c.blueprint := by
  refine List.foldlRecOn (motive := fun c' : Compilation ↦ c'.blueprint = c.blueprint) contexts
    bindDelegate rfl fun c' hc ctx _ ↦ ?_
  rw [← hc]
  unfold bindDelegate
  split
  · rfl
  · split <;> rfl

theorem cls_finishClass (env : CompileEnv) (old : Option DefaultObject) (c : Compilation) :
    (c.finishClass env old).cls = c.linkedClass.withDefaults
      (ClassState.settledDefaults c.linkedClass c.blueprint.newVariables old
        env.options.isRegeneratingOnLoad) := by
  have hblueprint := c.blueprint_bindDelegates c.contexts
  refine (ClassState.cls_buildDefaults _ _ old _).trans ?_
  dsimp only
  rw [ClassState.cls_checkDelegates, hblueprint, linkedClass]

end Compilation

/-- The shaped class has no functions, and properties for what the Blueprint declares. -/
theorem Blueprint.adds_shaped (b : Blueprint) (suffix : Bool) :
    (b.settleNames .empty).1.freshClass.1.Adds (b.shaped suffix).cls
      (ClassState.declaredNames (b.settleNames .empty).1) := by
  unfold Blueprint.shaped
  generalize b.settleNames .empty = settled
  let c : Compilation := {
    blueprint := { settled.1 with generatedClass := none }
    cls := settled.1.freshClass.1
    log := settled.2 }
  exact c.adds_shapeClass suffix

/-!
## The compiled Blueprint

A compile keeps the Blueprint under its settled names and puts the class on it.
-/

namespace Compilation

/-! ### The Blueprint of a compile -/

theorem blueprint_runPass (c : Compilation) (selected : FunctionContext → Bool)
    (pass : FunctionState → FunctionState) : (c.runPass selected pass).blueprint = c.blueprint := by
  rw [runPass_eq]
  refine List.foldlRecOn (motive := fun c' : Compilation ↦ c'.blueprint = c.blueprint) c.contexts
    (advance selected pass) rfl fun c' hc ctx _ ↦ ?_
  rw [← hc]
  unfold advance
  split <;> rfl

@[simp]
theorem blueprint_patchStubs (c : Compilation) : c.patchStubs.blueprint = c.blueprint := rfl

section Environment

variable (env : CompileEnv) (c : Compilation)

theorem blueprint_precompile : (c.precompile env).blueprint = c.blueprint :=
  (blueprint_runPass _ _ _).trans (blueprint_runPass _ _ _)

theorem blueprint_addFunctions : (c.addFunctions env).blueprint = c.blueprint :=
  (Lists.addFunctions (sound_true env c.blueprint) ⟨rfl, fun _ _ ↦ trivial⟩).1

theorem blueprint_compileFunctions : (c.compileFunctions env).blueprint = c.blueprint := by
  unfold compileFunctions
  dsimp only
  rw [blueprint_patchStubs, blueprint_runPass]
  split
  · rw [blueprint_precompile, blueprint_addFunctions]
  · rw [blueprint_runPass, blueprint_precompile, blueprint_addFunctions]

theorem blueprint_finishClass (old : Option DefaultObject) :
    (c.finishClass env old).blueprint = c.blueprint :=
  blueprint_bindDelegates c c.contexts

/-- The Blueprint gets its class, and maybe the graphs of the functions to look at. -/
theorem blueprint_deliver : ∃ graphs, (c.deliver env).blueprint = { c.blueprint with
    generatedClass := some (c.deliver env).cls, intermediateGeneratedGraphs := graphs } := by
  refine ⟨if env.options.saveIntermediateProducts then c.contexts.map (·.graph)
    else c.blueprint.intermediateGeneratedGraphs, ?_⟩
  unfold deliver
  dsimp only
  split <;> rfl

/-! ### The class of a compile -/

theorem cls_deliver : (c.deliver env).cls =
    c.cls.generateCode c.contexts env.options.isSkeletonOnly := rfl

/-- Listing the functions makes none of them on the class. -/
theorem cls_addFunctions : (c.addFunctions env).cls = c.cls := by
  have hfold {α : Type} {f : Compilation → α → Compilation} (hf : ∀ c a, (f c a).cls = c.cls)
      (l : List α) (c : Compilation) : (l.foldl f c).cls = c.cls :=
    List.foldlRecOn (motive := fun c' : Compilation ↦ c'.cls = c.cls) l f rfl
      fun c' hc a _ ↦ (hf c' a).trans hc
  have hstub (ubergraph : Graph) (c : Compilation) (event : NodeId) :
      (c.addStub env ubergraph event).cls = c.cls := by
    unfold addStub
    split
    · dsimp only
      split <;> rfl
    · rfl
  have hevents (c : Compilation) : (c.addEventGraph env).cls = c.cls := hfold (hstub _) _ _
  have hgraphs (c : Compilation) (source : Graph) : (c.addFunctionGraph env source).cls = c.cls ∧
      (c.addDelegateGraph env source).cls = c.cls ∧
        (c.addInterfaceGraph env source).cls = c.cls := ⟨rfl, rfl, rfl⟩
  unfold addFunctions
  dsimp only
  rw [hfold (hgraphs · · |>.2.2), hfold (hgraphs · · |>.2.1), hfold (hgraphs · · |>.1)]
  split
  · exact hevents c
  · rfl

end Environment

end Compilation

/-! ### The whole compile -/

namespace Blueprint

variable (b : Blueprint) (options : CompileOptions) (suffix : Bool)

theorem compile_eq_deliver : b.compile options suffix =
    (((b.shaped suffix).compileFunctions (b.environment options)).finishClass
      (b.environment options) (b.settleNames .empty).1.freshClass.2).deliver
        (b.environment options) := by
  unfold compile
  rfl

theorem blueprint_shaped :
    (b.shaped suffix).blueprint = { (b.settleNames .empty).1 with generatedClass := none } := rfl

/-- The Blueprint has settled names and its class, and maybe other graphs to look at. -/
theorem blueprint_compile : ∃ graphs, (b.compile options suffix).blueprint =
    { (b.settleNames .empty).1 with
      generatedClass := some (b.compile options suffix).cls
      intermediateGeneratedGraphs := graphs } := by
  rw [compile_eq_deliver]
  obtain ⟨graphs, hgraphs⟩ := Compilation.blueprint_deliver (b.environment options)
    (((b.shaped suffix).compileFunctions (b.environment options)).finishClass
      (b.environment options) (b.settleNames .empty).1.freshClass.2)
  refine ⟨graphs, hgraphs.trans ?_⟩
  rw [Compilation.blueprint_finishClass, Compilation.blueprint_compileFunctions, blueprint_shaped]

end Blueprint

end VisualScript
