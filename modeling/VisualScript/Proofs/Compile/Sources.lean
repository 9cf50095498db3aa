import VisualScript.Proofs.Compile.Delivery
import VisualScript.Proofs.Graph.Expansion
import VisualScript.Proofs.Names.References

/-!
# Well-formed Blueprints

Settling the names of members edits nodes and pins in place.  So the functions of
a Blueprint whose graphs are well-formed begin with well-formed graphs.
-/

namespace VisualScript

open VisualScript.Graph

namespace Graph

/-! ## Renaming -/

theorem sameBooks_rename (g : Graph) (name : String) : SameBooks g { g with name } :=
  ⟨rfl, fun _ ↦ rfl, fun _ ↦ rfl⟩

theorem sameBooks_renameFunction (g : Graph) (old new : String) :
    SameBooks g (g.renameFunction old new) :=
  (sameBooks_mapKinds g _).trans (sameBooks_rename _ _)

end Graph

/-! ## Settling names -/

namespace Blueprint

/-- Every graph of the author is well-formed. -/
def WellFormed (b : Blueprint) : Prop := ∀ g ∈ b.allGraphs, g.WellFormed

theorem WellFormed.mapGraphs {b : Blueprint} (h : b.WellFormed) {f : Graph → Graph}
    (hf : ∀ g, SameBooks g (f g)) : (b.mapGraphs f).WellFormed := by
  intro g hg
  rw [allGraphs_mapGraphs] at hg
  obtain ⟨g', hg', rfl⟩ := List.mem_map.1 hg
  exact (hf g').wellFormed (h g' hg')

theorem WellFormed.renameFunctionGraph {b : Blueprint} (h : b.WellFormed) (i : Nat) (name : String) :
    WellFormed { b with
      functionGraphs := b.functionGraphs.modify i fun g ↦ { g with name } } := by
  intro g hg
  simp only [allGraphs, List.mem_append] at hg
  have hold (g : Graph) (hg : g ∈ b.functionGraphs) : g.WellFormed := by
    refine h g ?_
    simp only [allGraphs, List.mem_append]
    exact .inl (.inl (.inl (.inr hg)))
  have hother (hg : ((g ∈ b.ubergraphPages ∨ g ∈ b.functionGraphs) ∨
      g ∈ b.delegateSignatureGraphs) ∨ g ∈ b.macroGraphs ∨
        g ∈ b.implementedInterfaces.flatMap (·.graphs)) : g.WellFormed := by
    refine h g ?_
    simp only [allGraphs, List.mem_append]
    tauto
  rcases hg with (((hg | hg) | hg) | hg) | hg
  · exact hother (.inl (.inl (.inl hg)))
  · obtain ⟨j, hj⟩ := List.getElem?_of_mem hg
    rw [List.getElem?_modify] at hj
    obtain ⟨g', hg', rfl⟩ := Option.map_eq_some_iff.1 hj
    have hwf := hold g' (List.mem_of_getElem? hg')
    split
    · exact (sameBooks_rename g' name).wellFormed hwf
    · exact hwf
  · exact hother (.inl (.inr hg))
  · exact hother (.inr (.inl hg))
  · exact hother (.inr (.inr hg))

end Blueprint

namespace Naming

/-- The names that are settled so far left the graphs well-formed. -/
theorem wellFormed_foldl {α : Type} {f : Naming → α → Naming}
    (hf : ∀ s a, s.blueprint.WellFormed → (f s a).blueprint.WellFormed) (l : List α) {s : Naming}
    (h : s.blueprint.WellFormed) : (l.foldl f s).blueprint.WellFormed := by
  induction l generalizing s with
  | nil => exact h
  | cons a l ih => exact ih (hf s a h)

variable {s : Naming} (h : s.blueprint.WellFormed)
include h

theorem wellFormed_settleVariable (i : Nat) : (s.settleVariable i).blueprint.WellFormed := by
  unfold settleVariable
  split
  · exact h
  · next var _ =>
    have hrename (new : String) : (if isDeclaredElsewhere s.blueprint i var.name then s.blueprint
        else s.blueprint.renameVariableReferences var.name new).WellFormed := by
      split
      · exact h
      · exact h.mapGraphs (sameBooks_renameVariable · _ _)
    dsimp only
    split
    · exact h
    · exact hrename _

theorem wellFormed_settleTimeline (i : Nat) : (s.settleTimeline i).blueprint.WellFormed := by
  unfold settleTimeline
  split
  · exact h
  · dsimp only
    split
    · exact h
    · exact h.mapGraphs (sameBooks_mapKinds · _)

theorem wellFormed_settleComponents : s.settleComponents.blueprint.WellFormed := by
  unfold settleComponents
  split
  · exact h
  · refine wellFormed_foldl (fun s names hs ↦ ?_) _ h
    exact hs.mapGraphs (sameBooks_renameVariable · _ _)

theorem wellFormed_settleFunction (i : Nat) : (s.settleFunction i).blueprint.WellFormed := by
  unfold settleFunction
  split
  · exact h
  · dsimp only
    split
    · exact h
    · exact (h.mapGraphs (sameBooks_renameFunction · _ _)).renameFunctionGraph i _

end Naming

namespace Blueprint

/-- Settling names keeps the graphs well-formed. -/
theorem WellFormed.settleNames {b : Blueprint} (h : b.WellFormed) (log : MessageLog) :
    (b.settleNames log).1.WellFormed := by
  refine Naming.wellFormed_foldl (fun s i hs ↦ Naming.wellFormed_settleFunction hs i) _ ?_
  refine Naming.wellFormed_settleComponents ?_
  refine Naming.wellFormed_foldl (fun s i hs ↦ Naming.wellFormed_settleTimeline hs i) _ ?_
  exact Naming.wellFormed_foldl (fun s i hs ↦ Naming.wellFormed_settleVariable hs i) _ h

end Blueprint

/-! ## The functions -/

namespace FunctionContext

/-- The graph of every function but the event graph is well-formed. -/
def Formed (c : FunctionContext) : Prop := c.isEventGraph = false → c.graph.WellFormed

end FunctionContext

theorem Compilation.sound_formed {b : Blueprint} (h : b.WellFormed) (env : CompileEnv) :
    Compilation.Sound env b FunctionContext.Formed where
  eventGraph c name g flags hflags _ hfunction := by
    cases hflags.symm.trans hfunction
  stub _ _ _ _ _ _ _ _ _ _ hbuild _ := EventStub.wellFormed_build hbuild
  graph c name g flags delegate _ hc hg _ := by
    obtain rfl := hc
    refine (h g hg).expandMacros (fun m hm ↦ h m ?_) c.log env.options.saveIntermediateProducts
    simp only [Blueprint.allGraphs, List.mem_append]
    exact .inl (.inr hm)

/-- The functions of a well-formed Blueprint begin with well-formed graphs. -/
theorem Blueprint.formed_of_mem_addFunctions {b : Blueprint} (h : b.WellFormed)
    (options : CompileOptions) (suffix : Bool) {d : FunctionContext}
    (hd : d ∈ ((b.shaped suffix).addFunctions (b.environment options)).contexts) : d.Formed := by
  refine (Compilation.Lists.addFunctions (Compilation.sound_formed ?_ (b.environment options))
    ⟨rfl, fun d hd ↦ ?_⟩).2 d hd
  · have hsettled := h.settleNames .empty
    show WellFormed { (b.settleNames .empty).1 with generatedClass := none }
    generalize (b.settleNames .empty).1 = b' at hsettled ⊢
    exact hsettled
  · rw [contexts_shaped] at hd
    cases hd

end VisualScript
