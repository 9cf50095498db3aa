import VisualScript.Proofs.Compile.Isolation
import VisualScript.Proofs.Terminals.Storage

/-!
# Signatures

A function gets its signature when it is prepared: the parameters that its nodes made, and
then the results.  No pass over another function changes it, and neither does finishing.
The ancestors and the interfaces of the class are the same all the time.
-/

namespace VisualScript

/-! ## Describing -/

namespace Function

theorem map_filter_placeAll (offset : Nat) (ps : List Property) :
    ((placeAll offset ps).filter (·.isParameter)).map
        (fun p ↦ (⟨p.name, p.ty, p.flags &&& signatureFlags⟩ : SignatureItem)) =
      (ps.filter (·.isParameter)).map fun p ↦ ⟨p.name, p.ty, p.flags &&& signatureFlags⟩ := by
  induction ps generalizing offset with
  | nil => rfl
  | cons p ps ih =>
    have hparameter : (p.place offset).isParameter = p.isParameter := rfl
    rw [placeAll, List.filter_cons, List.filter_cons, hparameter]
    split
    · rw [List.map_cons, List.map_cons, ih]
      rfl
    · exact ih _

/-- Parameters are placed without a change to the signature. -/
theorem signature_link (f : Function) : f.link.signature = f.signature :=
  map_filter_placeAll 0 f.properties

end Function

namespace FunctionState

/-- What describing a function leaves as it is: its signature, what it overrides, and all flags but
those that follow from the frame and the defaults. -/
structure Describes (f f' : Function) : Prop where
  name : f'.name = f.name
  signature : f'.signature = f.signature
  superFunction : f'.superFunction = f.superFunction
  flags {mask : FunctionFlags} : FunctionFlags.hasOutParms &&& mask = .empty →
    FunctionFlags.hasDefaults &&& mask = .empty → f'.flags &&& mask = f.flags &&& mask

namespace Describes

variable {f f' f'' : Function}

theorem trans (h : Describes f f') (h' : Describes f' f'') : Describes f f'' where
  name := h'.name.trans h.name
  signature := h'.signature.trans h.signature
  superFunction := h'.superFunction.trans h.superFunction
  flags hout hdefaults := (h'.flags hout hdefaults).trans (h.flags hout hdefaults)

theorem withMetadata (f : Function) (metadata : Metadata) : Describes f { f with metadata } :=
  ⟨rfl, rfl, rfl, fun _ _ ↦ rfl⟩

theorem link (f : Function) : Describes f f.link := by
  refine ⟨rfl, f.signature_link, rfl, fun hout _ ↦ ?_⟩
  unfold Function.link Flags.setTo
  dsimp only
  split
  · exact Flags.or_and_of_disjoint hout
  · exact Flags.without_and_of_disjoint hout

theorem recordDefaults (f : Function) (defaults : List (String × String)) :
    Describes f (f.recordDefaults defaults) := by
  unfold Function.recordDefaults
  split
  · exact withMetadata f f.metadata
  · exact ⟨rfl, rfl, rfl, fun _ hdefaults ↦ Flags.or_and_of_disjoint hdefaults⟩

theorem describe (g : Graph) (entry : Option NodeId) (f : Function) :
    Describes f (describe g entry f) := by
  unfold FunctionState.describe
  cases entry with
  | none => exact link f
  | some entry =>
    have hdefaults := (link f).trans (recordDefaults f.link (parameterDefaults g entry))
    dsimp only
    split
    · exact (hdefaults.trans (withMetadata _ _)).trans (withMetadata _ _)
    · exact hdefaults.trans (withMetadata _ _)

end Describes

end FunctionState

/-! ## Classes -/

namespace Class

/-- The functions of `c` are there in `d` with the same signatures. -/
def KeepsSignatures (c d : Class) : Prop :=
  ∀ name f, c.findOwnFunction? name = some f →
    ∃ g, d.findOwnFunction? name = some g ∧ g.signature = f.signature

namespace KeepsSignatures

variable {c d e : Class}

theorem refl (c : Class) : KeepsSignatures c c := fun _ f hf ↦ ⟨f, hf, rfl⟩

theorem trans (h : KeepsSignatures c d) (h' : KeepsSignatures d e) : KeepsSignatures c e := by
  intro name f hf
  obtain ⟨g, hg, hsignature⟩ := h name f hf
  obtain ⟨g', hg', hsignature'⟩ := h' name g hg
  exact ⟨g', hg', hsignature'.trans hsignature⟩

/-- What is done for one function needs to keep the signature of that one. -/
theorem of_spares {name : String} (hspares : c.Spares (· ≠ name) d)
    (hname : ∀ f, c.findOwnFunction? name = some f →
      ∃ g, d.findOwnFunction? name = some g ∧ g.signature = f.signature) :
    KeepsSignatures c d := by
  intro other f hf
  by_cases heq : other = name
  · rw [heq] at hf ⊢
    exact hname f hf
  · exact ⟨f, (hspares.function heq).trans hf, rfl⟩

end KeepsSignatures

/-- The class `d` is what became of `c`: of the same kin, with the signatures that were there. -/
structure Develops (c d : Class) : Prop extends SameKin c d where
  signatures : c.KeepsSignatures d

namespace Develops

variable {c d e : Class}

theorem refl (c : Class) : Develops c c := ⟨.refl c, .refl c⟩

theorem trans (h : Develops c d) (h' : Develops d e) : Develops c e :=
  ⟨h.toSameKin.trans h'.toSameKin, h.signatures.trans h'.signatures⟩

/-- What is done for one function needs to keep the signature of that one. -/
theorem of_spares {name : String} (hspares : c.Spares (· ≠ name) d)
    (hname : ∀ f, c.findOwnFunction? name = some f →
      ∃ g, d.findOwnFunction? name = some g ∧ g.signature = f.signature) : Develops c d :=
  ⟨hspares.toSameKin, .of_spares hspares hname⟩

end Develops

end Class

/-! ## Single functions -/

namespace FunctionState

open FunctionContext

theorem develops_precompile (env : CompileEnv) (s : FunctionState) :
    s.cls.Develops (s.precompile env).cls := by
  rcases precompile_isolated env s with ⟨-, hcls⟩ | ⟨hnone, hspares, -⟩
  · rw [hcls]
    exact .refl _
  · refine .of_spares hspares fun f hf ↦ ?_
    rw [hnone] at hf
    cases hf

/-- Finishing writes the described function back as a root, or as the override of another with the
reports of what is wrong about it. -/
theorem finish_cases {s : FunctionState} {f : Function}
    (hf : s.cls.findOwnFunction? s.ctx.functionName = some f) :
    ∃ f', s.finish.cls.findOwnFunction? s.ctx.functionName = some f' ∧
      ((s.cls.findOverridden? s.ctx.functionName = none ∧
          f' = (describe s.graph s.ctx.entryPoint f).becomeRoot s.ctx.isEventGraph) ∨
        ∃ owner g described tokens, s.cls.findOverridden? s.ctx.functionName = some (owner, g) ∧
          described = (describe s.graph s.ctx.entryPoint f).inheritMetadata g.metadata.entries ∧
          f' = inheritNetFlags described g ∧
          s.finish.log = s.log.pushAll (overrideFaults described g owner tokens)) := by
  have hdescribes := Describes.describe s.graph s.ctx.entryPoint f
  have hset {g : Function} (hg : g.name = (describe s.graph s.ctx.entryPoint f).name)
      (hcls : s.finish.cls = s.cls.modifyFunction s.ctx.functionName fun _ ↦ g) :
      s.finish.cls.findOwnFunction? s.ctx.functionName = some g := by
    have hname := hg.trans (hdescribes.name.trans (Class.name_of_findOwnFunction? hf))
    rw [hcls, Class.findOwnFunction?_modifyFunction _ fun _ _ ↦ hname, if_pos rfl, hf]
    rfl
  cases hoverridden : s.cls.findOverridden? s.ctx.functionName with
  | none =>
    refine ⟨_, ?_, .inl ⟨rfl, rfl⟩⟩
    refine hset rfl ?_
    simp only [finish, hf, hoverridden]
  | some overridden =>
    obtain ⟨owner, g⟩ := overridden
    refine ⟨_, ?_, .inr ⟨owner, g, (describe s.graph s.ctx.entryPoint f).inheritMetadata
      g.metadata.entries, (s.ctx.entryPoint.map s.graph.nodeToken).toList, rfl, rfl, rfl, ?_⟩⟩
    · refine hset rfl ?_
      simp only [finish, hf, hoverridden]
    · simp only [finish, hf, hoverridden]

theorem develops_finish (s : FunctionState) : s.cls.Develops s.finish.cls := by
  refine .of_spares (finish_isolated s).1 fun f hf ↦ ?_
  have hdescribes := Describes.describe s.graph s.ctx.entryPoint f
  obtain ⟨f', hf', ⟨-, rfl⟩ | ⟨owner, g, described, tokens, -, rfl, rfl, -⟩⟩ := finish_cases hf
  · exact ⟨_, hf', hdescribes.signature⟩
  · exact ⟨_, hf', hdescribes.signature⟩

theorem develops_postcompile (s : FunctionState) : s.cls.Develops s.postcompile.cls := by
  obtain ⟨ctx, -, -, hpostcompile⟩ := s.exists_postcompile_eq
  rw [hpostcompile]
  exact develops_finish { s with ctx }

theorem develops_compile (env : CompileEnv) (s : FunctionState) :
    s.cls.Develops (s.compile env).cls := by
  rw [(s.compile_keeps env).2.1]
  exact .refl _

/-- A function that is laid out without an error has the parameters and results that its nodes
made. -/
theorem signature_layOut {env : CompileEnv} {s : FunctionState} (entry : NodeId) {f : Function}
    (hf : s.cls.findOwnFunction? s.ctx.functionName = some f) (hframe : f.properties = [])
    (hs : s.ctx.Blank) (hlog : (s.layOut env entry).log.numErrors ≤ s.log.numErrors) :
    ∃ g, (s.layOut env entry).cls.findOwnFunction? s.ctx.functionName = some g ∧
      g.signature.map (·.name) = (s.layOut env entry).ctx.namesOf .parameter ++
        (s.layOut env entry).ctx.namesOf .result := by
  have hsteps := graphSteps_registered env s entry
  have hregistered := registered_registered env entry hs
  have hfresh := unassociated_registered env entry hs
  have hbefore : s.log.numErrors ≤ (s.registered env entry).log.numErrors :=
    Nat.le_trans (MessageLog.le_numErrors_pushAll s.graph.schedule.2) hsteps.errors.1
  have hf' := findOwnFunction?_registered env entry hf
  have hname : (s.registered env entry).ctx.functionName = s.ctx.functionName :=
    hsteps.sameFunction.functionName
  rw [layOut_eq] at hlog ⊢
  generalize s.registered env entry = t at *
  have hshape := sameShape_createProperties t
  rw [hshape.namesOf, hshape.namesOf, ← hname]
  rw [createProperties_eq hf'] at hlog ⊢
  have hclass := PropertyState.numErrors_le_addTerms (σ := Class)
    ⟨(t.withFrame f).cls, (t.withFrame f).ctx, (t.withFrame f).log⟩ t.ctx.eventGraphLocals .empty
  have hquiet : (t.frameProperties f).log.numErrors ≤ t.log.numErrors :=
    Nat.le_trans hclass (Nat.le_trans hlog hbefore)
  refine ⟨(t.frameProperties f).scope, ?_, ?_⟩
  · rw [(spares_classProperties (fun _ ↦ True) (t.withFrame f) _).function trivial]
    exact findOwnFunction?_withFrame hf'
  · have hparameters := parameters_frameProperties hregistered.enlisted hfresh hquiet hframe
    rw [List.map_append] at hparameters
    rw [← hregistered.enlisted.map_nameOf_listOf, ← hregistered.enlisted.map_nameOf_listOf,
      Function.signature, List.map_map]
    exact hparameters

/-- A fresh function that is prepared without an error has the parameters and results that its
nodes made. -/
theorem signature_precompile {env : CompileEnv} {s : FunctionState} (hs : s.ctx.Fresh)
    (hlog : (s.precompile env).log.numErrors ≤ s.log.numErrors) :
    ∃ g, (s.precompile env).cls.findOwnFunction? s.ctx.functionName = some g ∧
      g.signature.map (·.name) = (s.precompile env).ctx.namesOf .parameter ++
        (s.precompile env).ctx.namesOf .result := by
  obtain ⟨entry, f, t, h⟩ := exists_creates hlog
  have hframe : f.properties = [] := by
    rw [h.function]
    rfl
  rw [h.ctx, h.cls, ← h.functionName]
  exact signature_layOut entry h.findOwnFunction? hframe (h.blank hs.toBlank) h.quiet

end FunctionState

/-! ## Passes -/

namespace Compilation

/-- A class develops in a pass if it does so with every function. -/
theorem develops_foldl_advance {selected : FunctionContext → Bool}
    {pass : FunctionState → FunctionState}
    (hpass : ∀ s : FunctionState, s.cls.Develops (pass s).cls)
    (rest : List FunctionContext) (c : Compilation) :
    c.cls.Develops (rest.foldl (advance selected pass) c).cls := by
  induction rest generalizing c with
  | nil => exact .refl _
  | cons ctx rest ih =>
    refine .trans ?_ (ih _)
    unfold advance
    split
    · exact hpass ⟨ctx, c.log, c.cls, c.classNetNames⟩
    · exact .refl _

theorem develops_runPass {selected : FunctionContext → Bool}
    {pass : FunctionState → FunctionState}
    (hpass : ∀ s : FunctionState, s.cls.Develops (pass s).cls)
    (c : Compilation) : c.cls.Develops (c.runPass selected pass).cls :=
  develops_foldl_advance hpass c.contexts { c with contexts := [] }

/-- What follows the preparation develops the class. -/
theorem develops_afterPasses (env : CompileEnv) (c : Compilation) :
    (c.precompile env).cls.Develops (c.afterPasses env).cls :=
  (develops_runPass (FunctionState.develops_compile env) (c.precompile env)).trans
    (develops_runPass FunctionState.develops_postcompile _)

end Compilation

end VisualScript
