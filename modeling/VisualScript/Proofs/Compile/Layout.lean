import VisualScript.Proofs.Class.Inheritance
import VisualScript.Proofs.Class.Layout
import VisualScript.Proofs.Compile.Floats
import VisualScript.Proofs.Compile.Skeleton
import VisualScript.Proofs.Compile.Storage

/-!
# The layout of a compiled class

Properties are made of types with storage, and a frame gets its parameters before its locals.
Nothing that follows on the preparation changes that, so what is linked at the end is laid out:
every function when it is finished, and the class around them.
-/

namespace VisualScript

/-! ## Frames -/

namespace Function

theorem Framed.congr {f g : Function} (h : f.Framed) (hproperties : g.properties = f.properties) :
    g.Framed := by
  obtain ⟨hstored, hnodup, hparameters, hreturned⟩ := h
  unfold Function.parameters at hparameters
  rw [← hproperties] at hstored hnodup hparameters hreturned
  exact ⟨hstored, hnodup, hparameters, hreturned⟩

theorem framed_of_nil {f : Function} (h : f.properties = []) : f.Framed :=
  .congr (f := .new f.name .empty)
    ⟨List.forall_mem_nil _, .nil, List.prefix_rfl, List.forall_mem_nil _⟩ h

theorem Framed.link {f : Function} (h : f.Framed) : f.link.Framed := by
  obtain ⟨locals, hproperties, -⟩ := h.link_properties
  have hplaced {q : Property} (hq : q ∈ f.link.properties) :
      ∃ p ∈ f.properties, ∃ start, q = p.place start := exists_of_mem_placeAll hq
  refine ⟨fun q hq ↦ ?_, ?_, ⟨_, hproperties.symm⟩, fun q hq ↦ ?_⟩
  · obtain ⟨p, hp, start, rfl⟩ := hplaced hq
    exact h.stored p hp
  · rw [Function.link, map_name_placeAll]
    exact h.nodup
  · obtain ⟨p, hp, start, rfl⟩ := hplaced hq
    exact h.returned p hp

/-- A frame takes another property, unless that is a parameter after a local. -/
theorem Framed.addProperty {f g : Function} {p : Property} {flags : PropertyFlags} (h : f.Framed)
    (hp : p.ForTerminal flags) (hflags : flags.contains PropertyFlags.returnParm = false)
    (horder : p.isParameter → ∀ q ∈ f.properties, q.isParameter)
    (hadd : f.addProperty p = .ok g) : g.Framed := by
  obtain ⟨hnew, rfl⟩ := addProperty_eq_ok hadd
  refine ⟨?_, ?_, ?_, ?_⟩
  · exact List.forall_mem_append.2 ⟨h.stored, List.forall_mem_singleton.2 hp.stored⟩
  · rw [List.map_append]
    refine List.nodup_append'.2 ⟨h.nodup, List.nodup_singleton _, fun name hname hsame ↦ ?_⟩
    obtain rfl := List.mem_singleton.1 hsame
    exact hnew hname
  · have hparameters : Function.parameters { f with properties := f.properties ++ [p] } =
        f.parameters ++ [p].filter (·.isParameter) := List.filter_append ..
    rw [hparameters]
    cases hparameter : p.isParameter with
    | true =>
      have hall : f.parameters = f.properties := List.filter_eq_self.2 (horder hparameter)
      rw [hall, List.filter_eq_self.2 (List.forall_mem_singleton.2 hparameter)]
    | false =>
      have hnone : [p].filter (·.isParameter) = [] :=
        List.filter_eq_nil_iff.2 (List.forall_mem_singleton.2 (Bool.eq_false_iff.1 hparameter))
      rw [hnone, List.append_nil]
      exact h.parameters.trans (List.prefix_append _ _)
  · exact List.forall_mem_append.2
      ⟨h.returned, List.forall_mem_singleton.2 (hp.returned hflags)⟩

end Function

/-- The frame that a function gets has its parameters and results before its locals. -/
theorem FunctionState.framed_frameProperties (s : FunctionState) {f : Function}
    (hf : f.properties = []) : (s.frameProperties f).scope.Framed := by
  let Parms (f : Function) : Prop := f.Framed ∧ ∀ p ∈ f.properties, p.isParameter
  have hparms {s : PropertyState Function} (ts : List TermId) (hs : Parms s.scope) :
      Parms (s.addTerms ts PropertyFlags.parm).scope := by
    refine PropertyState.scope_addTerms_of_forTerminal (P := Parms) (fun hp hlink hf ↦ ?_) hs ts
    refine ⟨hf.1.addProperty hp (by decide) (fun _ ↦ hf.2) hlink, ?_⟩
    obtain ⟨-, rfl⟩ := Function.addProperty_eq_ok hlink
    exact List.forall_mem_append.2
      ⟨hf.2, List.forall_mem_singleton.2 (hp.isParameter.trans (by decide))⟩
  have hlocals {s : PropertyState Function} (ts : List TermId) (hs : s.scope.Framed) :
      (s.addTerms ts .empty).scope.Framed := by
    refine PropertyState.scope_addTerms_of_forTerminal (P := Function.Framed) (fun hp hlink hf ↦ ?_)
      hs ts
    refine hf.addProperty hp (by decide) (fun hparameter ↦ ?_) hlink
    rw [hp.isParameter] at hparameter
    exact absurd hparameter (by decide)
  have hstart : Parms f := ⟨Function.framed_of_nil hf, hf ▸ List.forall_mem_nil _⟩
  exact hlocals _ (hparms _ (hparms (s := ⟨f, s.ctx, s.log⟩) _ hstart)).1

/-! ## Classes -/

namespace Class

/-- Own properties have storage, and own functions have frames. -/
structure Stocked (c : Class) : Prop where
  properties : ∀ p ∈ c.own.properties, p.ty.layout?.isSome
  functions : ∀ f ∈ c.own.functions, f.Framed

theorem forall_mem_modify {α : Type} {P : α → Prop} {l : List α} (h : ∀ a ∈ l, P a) {f : α → α}
    (hf : ∀ a, P a → P (f a)) (i : Nat) : ∀ a ∈ l.modify i f, P a := by
  induction l generalizing i with
  | nil => simp
  | cons a l ih =>
    obtain ⟨hfirst, hrest⟩ := List.forall_mem_cons.1 h
    cases i with
    | zero => exact List.forall_mem_cons.2 ⟨hf a hfirst, hrest⟩
    | succ i => exact List.forall_mem_cons.2 ⟨hfirst, ih hrest i⟩

theorem shapeInvariant_stocked : ShapeInvariant Stocked where
  link h hc := by
    obtain ⟨p, hmade, hlink⟩ := exists_madeWith_of_addVariable h
    obtain ⟨-, rfl⟩ := linkProperty_eq_ok hlink
    exact ⟨List.forall_mem_cons.2 ⟨hmade.stored, hc.properties⟩, hc.functions⟩
  describe _ _ hf hc := ⟨forall_mem_modify hc.properties (fun p hp ↦ (hf p).2 ▸ hp) _, hc.functions⟩
  aside hc hproperties hfunctions :=
    ⟨hproperties ▸ hc.properties, hfunctions ▸ hc.functions⟩

theorem Stocked.addFunction {c d : Class} {f : Function} (hc : c.Stocked) (hf : f.Framed)
    (h : c.addFunction f = .ok d) : d.Stocked := by
  obtain ⟨-, rfl⟩ := addFunction_eq_ok h
  exact ⟨hc.properties, List.forall_mem_append.2 ⟨hc.functions, List.forall_mem_singleton.2 hf⟩⟩

theorem Stocked.modifyFunction {c : Class} {g : Function} (hc : c.Stocked) (hg : g.Framed)
    (name : String) : (c.modifyFunction name fun _ ↦ g).Stocked :=
  ⟨hc.properties, forall_mem_modify hc.functions (fun _ _ ↦ hg) _⟩

end Class

/-! ## Single functions -/

namespace FunctionState

theorem stocked_createProperties {s : FunctionState} {f : Function}
    (hf : s.cls.findOwnFunction? s.ctx.functionName = some f) (hnone : f.properties = [])
    (hs : s.cls.Stocked) : s.createProperties.cls.Stocked := by
  have hframe : (s.withFrame f).cls.Stocked :=
    hs.modifyFunction (s.framed_frameProperties hnone) s.ctx.functionName
  rw [createProperties_eq hf]
  refine PropertyState.scope_addTerms_of_forTerminal (P := Class.Stocked) (fun hp hlink hc ↦ ?_)
    (s := ⟨(s.withFrame f).cls, (s.withFrame f).ctx, (s.withFrame f).log⟩) hframe _
  obtain ⟨-, rfl⟩ := Class.linkProperty_eq_ok hlink
  exact ⟨List.forall_mem_cons.2 ⟨hp.stored, hc.properties⟩, hc.functions⟩

theorem stocked_precompile (env : CompileEnv) {s : FunctionState} (hs : s.cls.Stocked) :
    (s.precompile env).cls.Stocked := by
  rcases cls_precompile_cases env s with hcls | ⟨f, t, -, hnone, hadd, hfind, hcls⟩
  · exact hcls ▸ hs
  · rw [hcls]
    exact stocked_createProperties hfind hnone (hs.addFunction (Function.framed_of_nil hnone) hadd)

theorem layoutData_describe (g : Graph) (entry : Option NodeId) (f : Function) :
    (describe g entry f).layoutData = f.link.layoutData := by
  unfold describe
  cases entry with
  | none => rfl
  | some entry =>
    dsimp only
    unfold Function.recordDefaults
    split <;> split <;> rfl

/-- A function that is finished is linked. -/
theorem exists_linked_of_finish {s : FunctionState} {f : Function}
    (hf : s.cls.findOwnFunction? s.ctx.functionName = some f) :
    ∃ g : Function, g.layoutData = f.link.layoutData ∧
      s.finish.cls = s.cls.modifyFunction s.ctx.functionName fun _ ↦ g := by
  have hdescribed := layoutData_describe s.graph s.ctx.entryPoint f
  unfold finish
  dsimp only
  rw [hf]
  dsimp only
  refine ⟨_, ?_, rfl⟩
  cases s.cls.findOverridden? s.ctx.functionName with
  | none => exact hdescribed
  | some overridden => exact hdescribed

theorem finish_of_none {s : FunctionState}
    (hf : s.cls.findOwnFunction? s.ctx.functionName = none) : s.finish = s := by
  simp only [finish, hf]

theorem stocked_finish {s : FunctionState} (hs : s.cls.Stocked) : s.finish.cls.Stocked := by
  cases hf : s.cls.findOwnFunction? s.ctx.functionName with
  | none =>
    rw [finish_of_none hf]
    exact hs
  | some f =>
    obtain ⟨g, hdata, hcls⟩ := exists_linked_of_finish hf
    have hframed := (hs.functions f (List.mem_of_find?_eq_some hf)).link
    rw [hcls]
    exact hs.modifyFunction (hframed.congr (congrArg Prod.fst hdata)) _

/-- Of the functions that wait to be laid out, finishing lays its own out. -/
theorem laidOut_finish {s : FunctionState} (hs : s.cls.Stocked)
    (hnodup : s.cls.functionNames.Nodup) {rest : List String}
    (h : ∀ f ∈ s.cls.own.functions, f.LaidOut ∨ f.name ∈ s.ctx.functionName :: rest) :
    ∀ f ∈ s.finish.cls.own.functions, f.LaidOut ∨ f.name ∈ rest := by
  have hother : ∀ f ∈ s.cls.own.functions, f.name ≠ s.ctx.functionName →
      f.LaidOut ∨ f.name ∈ rest := fun f hf hname ↦
    (h f hf).imp_right fun hmem ↦ (List.mem_cons.1 hmem).resolve_left hname
  cases hf : s.cls.findOwnFunction? s.ctx.functionName with
  | none =>
    have hnone := List.find?_eq_none.1 hf
    rw [finish_of_none hf]
    exact fun f hf ↦ hother f hf fun hname ↦ hnone f hf (beq_iff_eq.2 hname)
  | some f =>
    obtain ⟨g, hdata, hcls⟩ := exists_linked_of_finish hf
    have hlinked : f.link.LaidOut := (hs.functions f (List.mem_of_find?_eq_some hf)).laidOut_link
    intro k hk
    rw [hcls] at hk
    change k ∈ s.cls.own.functions.modify _ _ at hk
    rw [Class.modify_findIdx_eq_map hnodup, List.mem_map] at hk
    obtain ⟨f', hf', rfl⟩ := hk
    split
    · exact .inl (hlinked.congr hdata)
    · next hname => exact hother f' hf' hname

end FunctionState

/-! ## Passes -/

namespace Compilation

theorem stocked_precompile (env : CompileEnv) {c : Compilation} (h : c.cls.Stocked) :
    (c.precompile env).cls.Stocked := by
  have hpass (selected : FunctionContext → Bool) {c : Compilation} (h : c.cls.Stocked) :
      (c.runPass selected (·.precompile env)).cls.Stocked :=
    runPass_induction (I := fun _ _ cls ↦ cls.Stocked) (fun _ hs ↦ hs)
      (fun {_ _ _} _ hs ↦ FunctionState.stocked_precompile env hs) h
  exact hpass _ (hpass _ h)

/-- Every function of the class is laid out when all of them are finished. -/
theorem laidOut_postcompile {c : Compilation} (h : c.cls.Stocked)
    (hcovered : Covered c.contexts c.cls) :
    (c.runPass (fun _ ↦ true) (·.postcompile)).cls.Stocked ∧
      ∀ f ∈ (c.runPass (fun _ ↦ true) (·.postcompile)).cls.own.functions, f.LaidOut := by
  let Waits (rest : List FunctionContext) (cls : Class) : Prop :=
    cls.Stocked ∧ cls.functionNames.Nodup ∧
      ∀ f ∈ cls.own.functions, f.LaidOut ∨ f.name ∈ rest.map (·.functionName)
  have hrun {rest : List FunctionContext} {s : FunctionState}
      (hs : Waits (s.ctx :: rest) s.cls) : Waits rest s.postcompile.cls := by
    obtain ⟨hstocked, hnodup, hlaid⟩ := hs
    obtain ⟨ctx, hctx, -, hpostcompile⟩ := s.exists_postcompile_eq
    have hnames := s.functionNames_postcompile
    rw [hpostcompile] at hnames ⊢
    let t : FunctionState := { s with ctx }
    have hwaiting : ∀ f ∈ t.cls.own.functions,
        f.LaidOut ∨ f.name ∈ t.ctx.functionName :: rest.map (·.functionName) := by
      rw [show t.ctx.functionName = s.ctx.functionName from hctx.functionName]
      exact hlaid
    exact ⟨FunctionState.stocked_finish hstocked, hnames ▸ hnodup,
      FunctionState.laidOut_finish (s := t) hstocked hnodup hwaiting⟩
  have hstart : Waits c.contexts c.cls :=
    ⟨h, hcovered.nodup, fun f hf ↦ .inr (hcovered.subset _ (List.mem_map_of_mem hf))⟩
  have hend : Waits [] (c.runPass (fun _ ↦ true) (·.postcompile)).cls :=
    runPass_induction (I := fun _ ↦ Waits) (fun hselected _ ↦ by cases hselected)
      (fun {_ _ _} _ hs ↦ hrun hs) hstart
  obtain ⟨hstocked, -, hlaid⟩ := hend
  exact ⟨hstocked, fun f hf ↦ (hlaid f hf).resolve_right List.not_mem_nil⟩

/-- The class that the functions leave is up to their preparation. -/
theorem cls_compileFunctions (env : CompileEnv) (c : Compilation) :
    (c.compileFunctions env).cls =
      (((c.addFunctions env).precompile env).runPass (fun _ ↦ true) (·.postcompile)).cls := by
  unfold compileFunctions
  dsimp only
  rw [cls_patchStubs]
  split
  · rfl
  · obtain ⟨hcls, hentries⟩ := sameEntry_compile env ((c.addFunctions env).precompile env)
    exact (postcompile_congr hcls hentries).1

end Compilation

/-! ## The whole compile -/

namespace Class

/-- Writing scripts changes nothing that is laid out. -/
theorem layoutData_generateCode (c : Class) (contexts : List FunctionContext)
    (skeletonOnly : Bool) :
    (c.generateCode contexts skeletonOnly).own.functions.map Function.layoutData =
      c.own.functions.map Function.layoutData :=
  List.foldlRecOn (motive := fun d : Class ↦
      d.own.functions.map Function.layoutData = c.own.functions.map Function.layoutData)
    contexts _ rfl fun _ hd ctx _ ↦ (map_modify_of_key
      (fun f : Function ↦ { f with script := ctx.script skeletonOnly }) Function.layoutData
      (fun _ ↦ rfl) _ _).trans hd

theorem properties_generateCode (c : Class) (contexts : List FunctionContext)
    (skeletonOnly : Bool) : (c.generateCode contexts skeletonOnly).superClass = c.superClass ∧
      (c.generateCode contexts skeletonOnly).own.properties = c.own.properties ∧
      (c.generateCode contexts skeletonOnly).own.propertiesSize = c.own.propertiesSize :=
  List.foldlRecOn (motive := fun d : Class ↦ d.superClass = c.superClass ∧
      d.own.properties = c.own.properties ∧ d.own.propertiesSize = c.own.propertiesSize)
    contexts _ ⟨rfl, rfl, rfl⟩ fun _ hd _ _ ↦ hd

end Class

namespace Blueprint

variable (b : Blueprint) (options : CompileOptions) (suffix : Bool)

theorem stocked_precompiled : (b.precompiled options suffix).cls.Stocked := by
  have hshaped : (b.shaped suffix).cls.Stocked :=
    Class.shapeInvariant_stocked.shaped (fun c hproperties hfunctions ↦
      ⟨hproperties ▸ List.forall_mem_nil _, hfunctions ▸ List.forall_mem_nil _⟩) b suffix
  refine Compilation.stocked_precompile (b.environment options) ?_
  rw [Compilation.cls_addFunctions]
  exact hshaped

/-- In a class under a parent that is laid out, all own properties have the place that their types
ask for, and the bytes of the whole hierarchy are apart.  So are those of the frame of each
function, where the parameters come first. -/
theorem laidOut_compile (hparent : b.parentClass.IsLinked) :
    let c := (b.compile options suffix).cls
    c.superClass = some b.parentClass ∧ c.IsLinked ∧ c.LaidOut ∧
      (∀ p ∈ c.own.properties, p.Fits) ∧ ∀ f ∈ c.own.functions, f.LaidOut := by
  intro c
  let compiled := (b.shaped suffix).compileFunctions (b.environment options)
  obtain ⟨hstocked, hfunctions⟩ : compiled.cls.Stocked ∧
      ∀ f ∈ compiled.cls.own.functions, f.LaidOut := by
    unfold compiled
    rw [Compilation.cls_compileFunctions]
    exact Compilation.laidOut_postcompile (b.stocked_precompiled options suffix)
      (b.covered_precompiled options suffix)
  have hsuper : c.superClass = some b.parentClass := by
    rw [← b.parentClass_settleNames .empty]
    exact b.superClass_compile options suffix
  -- the class is laid out once; a default object and scripts follow
  obtain ⟨defaults, contexts, skeletonOnly, hc⟩ : ∃ defaults contexts skeletonOnly,
      c = (compiled.linkedClass.withDefaults defaults).generateCode contexts skeletonOnly := by
    unfold c
    rw [compile_eq_deliver, Compilation.cls_deliver, Compilation.cls_finishClass]
    exact ⟨_, _, _, rfl⟩
  clear_value c compiled
  obtain ⟨hsuper', hproperties, hsize⟩ :=
    (compiled.linkedClass.withDefaults defaults).properties_generateCode contexts skeletonOnly
  rw [← hc] at hsuper' hproperties hsize
  have hlinked : c.IsLinked := by
    refine Class.isLinked_congr (c := compiled.linkedClass) hsuper' hproperties hsize
      (Class.isLinked_staticLink fun parent hsame ↦ ?_)
    obtain rfl : b.parentClass = parent :=
      Option.some.inj (hsuper.symm.trans (hsuper'.trans hsame))
    exact hparent
  have hbound := Class.shapeInvariant_stocked.bound compiled.contexts hstocked
  refine ⟨hsuper, hlinked, hlinked.laidOut, fun q hq ↦ ?_, fun f hf ↦ ?_⟩
  · refine hlinked.placedFrom.1.fits hq ?_
    rw [hproperties] at hq
    obtain ⟨p, hp, start, rfl⟩ := exists_of_mem_placeAll hq
    exact hbound.properties p hp
  · have hdata := (compiled.linkedClass.withDefaults defaults).layoutData_generateCode contexts
      skeletonOnly
    rw [← hc] at hdata
    obtain ⟨g, hg, hsame⟩ := List.mem_map.1 (hdata ▸ List.mem_map_of_mem hf)
    have hg : g ∈ compiled.cls.own.functions := compiled.adds_linkedClass.functions ▸ hg
    exact (hfunctions g hg).congr hsame.symm

/-- A variable, on a class whose parent has a byte, and a function with a parameter, a result and a
local. -/
def measuring : Blueprint :=
  let actor := Class.new "Actor" none
  let parent := { actor with
    own.properties := [{ name := "Tag", ty := .byte, flags := .empty }] }
  let (entry, g) := (Graph.empty "Scale").spawn
    (.functionEntry { localVariables := [{ name := "Last", ty := .int }] })
  let (_, g) := g.allocPin entry .output { name := "Factor", ty := .byte }
  let (result, g) := g.spawn .functionResult
  let (_, g) := g.allocPin result .input { name := PinName.returnValue, ty := .float }
  { Blueprint.new "Player" parent.staticLink with
    newVariables := [.new "Speed" .float]
    functionGraphs := [g.wired entry PinName.thenOut result PinName.execute] }

theorem laidOut_compile_measuring :
    let c := (measuring.compile .full false).cls
    measuring.parentClass.IsLinked ∧ c.LaidOut ∧ (∀ p ∈ c.own.properties, p.Fits) ∧
      c.allProperties.map (fun p ↦ (p.name, p.offset)) = [("Speed", 4), ("Tag", 0)] ∧
      ∃ f ∈ c.own.functions, f.LaidOut ∧
        f.properties.map (fun p ↦ (p.name, p.offset)) =
          [("Factor", 0), (PinName.returnValue, 4), ("Last", 8)] ∧
        f.parmsSize = 8 ∧ f.returnValueOffset = some 4 ∧ f.frameSize = 12 := by
  intro c
  have hparent : measuring.parentClass.IsLinked := by decide +kernel
  obtain ⟨-, -, hlaid, hfits, hfunctions⟩ := measuring.laidOut_compile .full false hparent
  obtain ⟨f, hf, hplaces, hmeasures⟩ : ∃ f ∈ c.own.functions,
      f.properties.map (fun p ↦ (p.name, p.offset)) =
          [("Factor", 0), (PinName.returnValue, 4), ("Last", 8)] ∧
        f.parmsSize = 8 ∧ f.returnValueOffset = some 4 ∧ f.frameSize = 12 := by
    decide +kernel
  exact ⟨hparent, hlaid, hfits, by decide +kernel, f, hf, hfunctions f hf, hplaces, hmeasures⟩

end Blueprint

end VisualScript
