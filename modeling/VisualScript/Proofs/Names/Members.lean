import VisualScript.Proofs.Names.Settling

/-!
# Settled members

Variables, timelines and components take names beside those of the parent class, in
this order, and nodes that get or set them follow.
-/

namespace VisualScript

/-! ## Timelines -/

namespace Naming

theorem settleTimeline_of_ok {s : Naming} {i : Nat} {timeline : TimelineTemplate}
    (htimeline : s.blueprint.timelines[i]? = some timeline)
    (hok : s.validator.validate timeline.name = .ok) :
    s.settleTimeline i = { s with validator := s.validator.reserve timeline.name } := by
  unfold settleTimeline
  rw [htimeline]
  dsimp only
  rw [NameValidator.accept_of_ok hok]

theorem settleTimeline_of_ne {s : Naming} {i : Nat} {timeline : TimelineTemplate}
    (htimeline : s.blueprint.timelines[i]? = some timeline)
    (hne : s.validator.validate timeline.name ≠ .ok) :
    let new := s.validator.makeUnique timeline.name
    let b := s.blueprint.renameTimelineReferences timeline.name new
    (s.settleTimeline i).validator = s.validator.reserve new ∧
      (s.settleTimeline i).blueprint = { b with
        timelines := b.timelines.modify i fun t ↦ { t with name := new } } := by
  unfold settleTimeline
  rw [htimeline]
  dsimp only
  rw [NameValidator.accept_of_ne hne]
  exact ⟨rfl, rfl⟩

/-- Timelines are settled up to a point. -/
structure TimelinesSettled (s₀ : Naming) (done rest : List String) (s : Naming) : Prop where
  declarations : s.blueprint.declarations =
    { s₀.blueprint.declarations with timelineNames := done ++ rest }
  redirects : s₀.blueprint.Redirects id s.blueprint

theorem timelinesSettled_step (s₀ : Naming) {done : List String} {name : String}
    {rest : List String} {s : Naming} (h : TimelinesSettled s₀ done (name :: rest) s) :
    TimelinesSettled s₀ (done ++ [s.validator.settled name]) rest (s.settleTimeline done.length) ∧
      (s.settleTimeline done.length).validator =
        s.validator.reserve (s.validator.settled name) := by
  obtain ⟨hdeclarations, hredirects⟩ := h
  have hnames : s.blueprint.timelines.map (·.name) = done ++ name :: rest :=
    congrArg Declarations.timelineNames hdeclarations
  obtain ⟨timeline, htimeline, rfl⟩ := exists_getElem?_of_append hnames
  by_cases hok : s.validator.validate timeline.name = .ok
  · rw [NameValidator.settled_of_ok hok, settleTimeline_of_ok htimeline hok]
    refine ⟨⟨?_, hredirects⟩, rfl⟩
    rw [List.append_assoc, List.singleton_append]
    exact hdeclarations
  · obtain ⟨hvalidator, hblueprint⟩ := settleTimeline_of_ne htimeline hok
    rw [NameValidator.settled_of_ne hok]
    generalize s.validator.makeUnique timeline.name = new at hvalidator hblueprint ⊢
    have hsame := s.blueprint.declarations_renameTimelineReferences timeline.name new
    have hfollowed := s.blueprint.redirects_renameTimelineReferences timeline.name new
    generalize s.blueprint.renameTimelineReferences timeline.name new = b at *
    have hmodified : (b.timelines.modify done.length fun t ↦ { t with name := new }).map
        (·.name) = done ++ new :: rest :=
      map_modify_of_append ((congrArg Declarations.timelineNames hsame).trans hnames) fun _ ↦ rfl
    refine ⟨⟨?_, ?_⟩, hvalidator⟩
    · have hothers : (s.settleTimeline done.length).blueprint.declarations =
          { b.declarations with timelineNames := done ++ new :: rest } := by
        rw [hblueprint, ← hmodified]
        rfl
      rw [hothers, hsame, hdeclarations, List.append_assoc, List.singleton_append]
    · rw [hblueprint]
      exact hredirects.trans hfollowed

/-- The timelines of a Blueprint after their names are settled. -/
theorem settleTimelines (s : Naming) :
    TimelinesSettled s (s.validator.settleAll s.blueprint.declarations.timelineNames) []
        ((List.range s.blueprint.timelines.length).foldl settleTimeline s) ∧
      ((List.range s.blueprint.timelines.length).foldl settleTimeline s).validator =
        s.validator.reserveAll (s.validator.settleAll s.blueprint.declarations.timelineNames) := by
  have hstart : TimelinesSettled s [] s.blueprint.declarations.timelineNames s := ⟨rfl, .refl _⟩
  have hempty : ([] : List String).length = ([] : List String).length := rfl
  have hloop := foldl_settle (P := fun _ ↦ TimelinesSettled s)
    (fun _ _ _ _ _ _ h ↦ timelinesSettled_step s h) hempty hstart
  rw [List.length_nil, ← List.range_eq_range', List.nil_append] at hloop
  have hlength : s.blueprint.declarations.timelineNames.length = s.blueprint.timelines.length :=
    List.length_map _
  rwa [hlength] at hloop

/-- What one turn of a timeline adds to `P`, all turns add. -/
theorem settleTimelines_of_turns {P : List String → Naming → Prop} {s : Naming} (hstart : P [] s)
    (hturn : ∀ (names : List String) (s' : Naming) (i : Nat) (name : String), P names s' →
      s'.blueprint.declarations.timelineNames[i]? = some name →
        P (names ++ [name]) (s'.settleTimeline i)) :
    P s.blueprint.declarations.timelineNames
      ((List.range s.blueprint.timelines.length).foldl settleTimeline s) := by
  have hstep (old done : List String) (name : String) (rest : List String) (s' : Naming)
      (_ : old.length = done.length)
      (h : TimelinesSettled s done (name :: rest) s' ∧ P old s') :
      (TimelinesSettled s (done ++ [s'.validator.settled name]) rest
          (s'.settleTimeline done.length) ∧ P (old ++ [name]) (s'.settleTimeline done.length)) ∧
      (s'.settleTimeline done.length).validator =
        s'.validator.reserve (s'.validator.settled name) := by
    obtain ⟨hsettled, hvalidator⟩ := timelinesSettled_step s h.1
    have hname : s'.blueprint.declarations.timelineNames[done.length]? = some name := by
      rw [h.1.declarations]
      simp
    exact ⟨⟨hsettled, hturn old s' _ name h.2 hname⟩, hvalidator⟩
  have hstart' : TimelinesSettled s [] s.blueprint.declarations.timelineNames s :=
    ⟨rfl, .refl _⟩
  have hempty : ([] : List String).length = ([] : List String).length := rfl
  have hloop := (foldl_settle (P := fun old done rest s' ↦
    TimelinesSettled s done rest s' ∧ P old s') hstep hempty ⟨hstart', hstart⟩).1.2
  rw [List.length_nil, ← List.range_eq_range', List.nil_append] at hloop
  have hlength : s.blueprint.declarations.timelineNames.length = s.blueprint.timelines.length :=
    List.length_map _
  rwa [hlength] at hloop

end Naming

/-! ## Components -/

namespace ComponentNode

/-- Components that took names in turn, and what was renamed. -/
structure Settles (v : NameValidator) (names names' : List String) (v' : NameValidator)
    (renamed : List (String × String)) : Prop where
  settled : names' = v.settleAll names
  taken : v' = v.reserveAll (v.settleAll names)
  changed : renamed = v.changes names

theorem Settles.append {v v' v'' : NameValidator} {names names' later later' : List String}
    {renamed renamed' : List (String × String)} (h : Settles v names names' v' renamed)
    (h' : Settles v' later later' v'' renamed') :
    Settles v (names ++ later) (names' ++ later') v'' (renamed ++ renamed') := by
  obtain ⟨rfl, rfl, rfl⟩ := h
  obtain ⟨rfl, rfl, rfl⟩ := h'
  exact ⟨(v.settleAll_append _ _).symm, by rw [v.settleAll_append, v.reserveAll_append],
    (v.changes_append _ _).symm⟩

mutual

theorem settles_acceptNames (v : NameValidator) (node : ComponentNode) :
    Settles v (node.flatten.map (·.variableName))
      ((node.acceptNames v).result.flatten.map (·.variableName)) (node.acceptNames v).validator
      (node.acceptNames v).renamed := by
  cases node with
  | mk name componentClass children =>
    have hnode : Settles v [name] [v.settled name] (v.accept name).2
        ((v.accept name).1.toList.map (name, ·)) :=
      ⟨rfl, v.accept_snd name, (List.append_nil _).symm⟩
    exact hnode.append (settles_acceptAllNames (v.accept name).2 children)

theorem settles_acceptAllNames (v : NameValidator) (nodes : List ComponentNode) :
    Settles v ((flattenAll nodes).map (·.variableName))
      ((flattenAll (acceptAllNames v nodes).result).map (·.variableName))
      (acceptAllNames v nodes).validator (acceptAllNames v nodes).renamed := by
  cases nodes with
  | nil => exact ⟨rfl, rfl, rfl⟩
  | cons node nodes =>
    have hnode := settles_acceptNames v node
    have hrest := settles_acceptAllNames (node.acceptNames v).validator nodes
    rw [acceptAllNames, flattenAll, flattenAll, List.map_append, List.map_append]
    exact hnode.append hrest

end

end ComponentNode

namespace Blueprint

theorem componentNames_of_none {b : Blueprint} (h : b.constructionScript = none) :
    b.declarations.componentNames = [] := by
  show b.components.map (·.variableName) = []
  rw [components, h]
  rfl

theorem componentNames_of_script {b : Blueprint} {script : ConstructionScript}
    (h : b.constructionScript = some script) : b.declarations.componentNames =
      (ComponentNode.flattenAll script.roots).map (·.variableName) := by
  show b.components.map (·.variableName) = _
  rw [components, h]
  rfl

end Blueprint

namespace Naming

/-- References follow the components one after another. -/
theorem foldl_rename {step : Naming → String × String → Naming}
    (hstep : ∀ s e, (step s e).validator = s.validator ∧
      (step s e).blueprint = s.blueprint.renameVariableReferences e.1 e.2)
    (renamed : List (String × String)) (s : Naming) :
    (renamed.foldl step s).validator = s.validator ∧
      (renamed.foldl step s).blueprint.declarations = s.blueprint.declarations ∧
      s.blueprint.Redirects (followAll renamed) (renamed.foldl step s).blueprint := by
  induction renamed generalizing s with
  | nil => exact ⟨rfl, rfl, .refl _⟩
  | cons e renamed ih =>
    obtain ⟨hvalidator, hblueprint⟩ := hstep s e
    obtain ⟨hvalidator', hdeclarations, hredirects⟩ := ih (step s e)
    rw [hblueprint] at hdeclarations hredirects
    exact ⟨hvalidator'.trans hvalidator,
      hdeclarations.trans (s.blueprint.declarations_renameVariableReferences _ _),
      (s.blueprint.redirects_renameVariableReferences e.1 e.2).trans hredirects⟩

/-- The components of a Blueprint after their names are settled. -/
theorem settleComponents_spec (s : Naming) :
    let names := s.blueprint.declarations.componentNames
    s.settleComponents.validator = s.validator.reserveAll (s.validator.settleAll names) ∧
      s.settleComponents.blueprint.declarations = { s.blueprint.declarations with
        componentNames := s.validator.settleAll names } ∧
      s.blueprint.Redirects (followAll (s.validator.changes names))
        s.settleComponents.blueprint := by
  intro names
  unfold settleComponents
  cases hscript : s.blueprint.constructionScript with
  | none =>
    have hnames : names = [] := Blueprint.componentNames_of_none hscript
    rw [hnames]
    refine ⟨rfl, ?_, .refl _⟩
    dsimp only [NameValidator.settleAll]
    rw [← hnames]
  | some script =>
    have hnames : names = (ComponentNode.flattenAll script.roots).map (·.variableName) :=
      Blueprint.componentNames_of_script hscript
    obtain ⟨hsettled, htaken, hchanged⟩ :=
      ComponentNode.settles_acceptAllNames s.validator script.roots
    rw [← hnames] at hsettled htaken hchanged
    dsimp only
    rw [← hchanged, ← htaken, ← hsettled]
    refine foldl_rename ?_ _ _
    intro s e
    exact ⟨rfl, rfl⟩

end Naming

/-! ## All members -/

namespace Declarations

/-- The members that nodes get and set by name. -/
def referable (d : Declarations) : List String := d.variableNames ++ d.componentNames

/-- The members in the order in which they take their names. -/
def members (d : Declarations) : List String :=
  d.variableNames ++ d.timelineNames ++ d.componentNames

end Declarations

namespace Naming

/-- The names of members are settled.  A renamed member takes the references to it along if no
other member had, or now has, its old name. -/
structure MembersSettled (s₀ s : Naming) : Prop where
  parentClass : s.blueprint.declarations.parentClass = s₀.blueprint.declarations.parentClass
  functionNames : s.blueprint.declarations.functionNames = s₀.blueprint.declarations.functionNames
  members : s.blueprint.declarations.members =
    s₀.validator.settleAll s₀.blueprint.declarations.members
  length : s.blueprint.declarations.referable.length =
    s₀.blueprint.declarations.referable.length
  renames : ∃ renames, s₀.blueprint.Redirects (followAll renames) s.blueprint ∧
    renames.Sublist
      (s₀.blueprint.declarations.referable.zip s.blueprint.declarations.referable) ∧
    ∀ (i : Nat) (old new : String), s₀.blueprint.declarations.referable[i]? = some old →
      s.blueprint.declarations.referable[i]? = some new → new ≠ old →
      (∀ k : Nat, k ≠ i → s₀.blueprint.declarations.referable[k]? ≠ some old ∧
        s.blueprint.declarations.referable[k]? ≠ some old) → (old, new) ∈ renames

theorem settleMembers_spec (s : Naming) : MembersSettled s s.settleMembers := by
  obtain ⟨⟨hdeclarations₁, renames, hredirects₁, hsublist, hcomplete⟩, hvalidator₁⟩ :=
    settleVariables s
  unfold settleMembers
  dsimp only
  generalize (List.range s.blueprint.newVariables.length).foldl settleVariable s = s₁ at *
  obtain ⟨⟨hdeclarations₂, hredirects₂⟩, hvalidator₂⟩ := settleTimelines s₁
  generalize (List.range s₁.blueprint.timelines.length).foldl settleTimeline s₁ = s₂ at *
  obtain ⟨-, hdeclarations₃, hredirects₃⟩ := settleComponents_spec s₂
  generalize s₂.settleComponents = s₃ at *
  rw [List.append_nil] at hdeclarations₁ hdeclarations₂
  rw [hvalidator₁, hdeclarations₁] at hvalidator₂ hdeclarations₂
  rw [hvalidator₂, hdeclarations₂] at hdeclarations₃ hredirects₃
  dsimp only at hdeclarations₃ hredirects₃
  generalize hd : s.blueprint.declarations = d at *
  generalize hvariables : s.validator.settleAll d.variableNames = variables' at *
  generalize htimelines : (s.validator.reserveAll variables').settleAll d.timelineNames =
    timelines' at *
  generalize hv : (s.validator.reserveAll variables').reserveAll timelines' = v at *
  have hlengthVariables : d.variableNames.length = variables'.length := by
    rw [← hvariables, NameValidator.length_settleAll]
  have hzip : d.referable.zip s₃.blueprint.declarations.referable =
      d.variableNames.zip variables' ++ d.componentNames.zip (v.settleAll d.componentNames) := by
    rw [hdeclarations₃]
    exact List.zip_append hlengthVariables
  refine ⟨by rw [hdeclarations₃, hd], by rw [hdeclarations₃, hd], ?_, ?_,
    renames ++ v.changes d.componentNames, ?_, ?_, ?_⟩
  · rw [hd, Declarations.members, Declarations.members, hdeclarations₃, NameValidator.settleAll_append,
      NameValidator.settleAll_append, hvariables, htimelines, NameValidator.reserveAll_append, hv]
  · rw [hdeclarations₃, hd]
    simp [Declarations.referable, hlengthVariables, NameValidator.length_settleAll]
  · rw [followAll_append]
    exact (hredirects₁.trans hredirects₂).trans hredirects₃
  · rw [hd, hzip]
    exact hsublist.append (v.changes_sublist _)
  · intro i old new hold hnew hne hothers
    rw [hd] at hold hothers
    rw [hdeclarations₃] at hnew hothers
    unfold Declarations.referable at hold hnew hothers
    dsimp only at hnew hothers
    by_cases hi : i < d.variableNames.length
    · rw [List.getElem?_append_left hi] at hold
      rw [List.getElem?_append_left (hlengthVariables ▸ hi)] at hnew
      refine List.mem_append_left _ (hcomplete i old new hold hnew hne (fun k hk hother ↦ ?_)
        fun k hk hother ↦ ?_)
      · refine (hothers k (Nat.ne_of_lt hk)).2 ?_
        rw [List.getElem?_append_left (by omega), hother]
      · rw [List.append_nil] at hother
        refine (hothers k (Nat.ne_of_gt hk)).1 ?_
        rw [List.getElem?_append_left (List.getElem?_eq_some_iff.1 hother).1, hother]
    · rw [List.getElem?_append_right (by omega)] at hold hnew
      rw [← hlengthVariables] at hnew
      exact List.mem_append_right _ (NameValidator.mem_changes hold hnew hne)

end Naming

/-!
## Settled functions

Function graphs take names beside the properties of the class.  A graph that is renamed
takes along every graph of its name.
-/

/-! ### The names of function graphs -/

namespace Naming

theorem settleFunction_of_ok {s : Naming} {i : Nat} {graph : Graph}
    (hgraph : s.blueprint.functionGraphs[i]? = some graph)
    (hok : s.validator.validate graph.name = .ok) :
    s.settleFunction i = { s with validator := s.validator.reserve graph.name } := by
  unfold settleFunction
  rw [hgraph]
  dsimp only
  rw [NameValidator.accept_of_ok hok]

/-- The graph itself is renamed with all others of its name. -/
theorem settleFunction_of_ne {s : Naming} {i : Nat} {graph : Graph}
    (hgraph : s.blueprint.functionGraphs[i]? = some graph)
    (hne : s.validator.validate graph.name ≠ .ok) :
    let new := s.validator.makeUnique graph.name
    (s.settleFunction i).validator = s.validator.reserve new ∧
      (s.settleFunction i).blueprint = s.blueprint.renameFunctionReferences graph.name new := by
  intro new
  unfold settleFunction
  rw [hgraph]
  dsimp only
  rw [NameValidator.accept_of_ne hne]
  refine ⟨rfl, ?_⟩
  have hrenamed : (s.blueprint.functionGraphs.map (·.renameFunction graph.name new)).modify i
      (fun g ↦ { g with name := new }) =
        s.blueprint.functionGraphs.map (·.renameFunction graph.name new) := by
    apply List.ext_getElem?
    intro k
    rw [List.getElem?_modify, List.getElem?_map]
    split
    · next heq =>
      rw [← heq, hgraph]
      exact congrArg (fun name ↦ some
        { graph.renameFunction graph.name new with name := name }) (if_pos rfl).symm
    · cases s.blueprint.functionGraphs[k]? <;> rfl
  exact congrArg (fun functionGraphs ↦
    { s.blueprint.renameFunctionReferences graph.name new with functionGraphs }) hrenamed

theorem map_follow_self (name : String) (names : List String) :
    names.map (NodeKind.follow name name) = names := by
  conv_rhs => rw [← List.map_id names]
  refine List.map_congr_left fun other _ ↦ ?_
  unfold NodeKind.follow
  split
  · next h => exact h.symm
  · rfl

/-- Whatever has the name of a function graph gets its new name. -/
theorem settleFunction_spec {s : Naming} {i : Nat} {name : String}
    (hname : s.blueprint.declarations.functionNames[i]? = some name) :
    let new := s.validator.settled name
    (s.settleFunction i).validator = s.validator.reserve new ∧
      (s.settleFunction i).blueprint.declarations = { s.blueprint.declarations with
        functionNames :=
          s.blueprint.declarations.functionNames.map (NodeKind.follow name new) } ∧
      s.blueprint.Redirects id (s.settleFunction i).blueprint := by
  intro new
  obtain ⟨graph, hgraph, rfl⟩ := exists_getElem?_of_map hname
  by_cases hok : s.validator.validate graph.name = .ok
  · have hkeep : new = graph.name := NameValidator.settled_of_ok hok
    rw [hkeep, map_follow_self, settleFunction_of_ok hgraph hok]
    exact ⟨rfl, rfl, .refl _⟩
  · have hmake : new = s.validator.makeUnique graph.name := NameValidator.settled_of_ne hok
    obtain ⟨hvalidator, hblueprint⟩ := settleFunction_of_ne hgraph hok
    rw [← hmake] at hvalidator hblueprint
    refine ⟨hvalidator, ?_, ?_⟩
    · have hfollowed : (s.blueprint.functionGraphs.map (·.renameFunction graph.name new)).map
          (·.name) = (s.blueprint.functionGraphs.map (·.name)).map
            (NodeKind.follow graph.name new) := by
        rw [List.map_map, List.map_map]
        rfl
      rw [hblueprint]
      exact congrArg (fun names ↦
        { s.blueprint.declarations with functionNames := names }) hfollowed
    · rw [hblueprint]
      exact s.blueprint.redirects_renameFunctionReferences graph.name new

/-! ### The loop over function graphs -/

/-- The names of the first function graphs are settled.  They are acceptable beside the properties
even where one is the name of two graphs. -/
structure FunctionsSettled (s₀ : Naming) (k : Nat) (s : Naming) : Prop where
  declarations : s.blueprint.declarations = { s₀.blueprint.declarations with
    functionNames := s.blueprint.declarations.functionNames }
  length : s.blueprint.declarations.functionNames.length =
    s₀.blueprint.declarations.functionNames.length
  redirects : s₀.blueprint.Redirects id s.blueprint
  taken : s₀.validator.taken ⊆ s.validator.taken
  bound : s.validator.taken.length ≤ s₀.validator.taken.length + k
  valid : s₀.validator.taken.length + k ≤ 9999999 → ∀ (j : Nat) (name : String), j < k →
    s.blueprint.declarations.functionNames[j]? = some name → s₀.validator.validate name = .ok

theorem validate_of_subset {v v' : NameValidator} {name : String} (h : v.taken ⊆ v'.taken)
    (hok : v'.validate name = .ok) : v.validate name = .ok := by
  rw [NameValidator.validate_eq_ok] at hok ⊢
  exact ⟨hok.1, fun htaken ↦ hok.2 (h htaken)⟩

theorem functionsSettled_step {s₀ s : Naming} {k : Nat} (h : FunctionsSettled s₀ k s)
    (hk : k < s₀.blueprint.declarations.functionNames.length) :
    FunctionsSettled s₀ (k + 1) (s.settleFunction k) := by
  obtain ⟨hdeclarations, hlength, hredirects, htaken, hbound, hvalid⟩ := h
  obtain ⟨name, hname⟩ : ∃ name, s.blueprint.declarations.functionNames[k]? = some name :=
    ⟨_, List.getElem?_eq_getElem (hlength ▸ hk)⟩
  obtain ⟨hvalidator, hdeclarations', hredirects'⟩ := settleFunction_spec hname
  refine ⟨?_, ?_, hredirects.trans hredirects', ?_, ?_, fun hle j other hj hother ↦ ?_⟩
  · rw [hdeclarations', hdeclarations]
  · rw [hdeclarations', List.length_map, hlength]
  · rw [hvalidator]
    exact fun lower hlower ↦ NameValidator.mem_taken_reserve.2 (.inr (htaken hlower))
  · rw [hvalidator]
    exact Nat.le_trans (NameValidator.length_taken_reserve_le _ _) (Nat.succ_le_succ hbound)
  · have hnew : s₀.validator.validate (s.validator.settled name) = .ok :=
      validate_of_subset htaken (NameValidator.Ends.of_length (by omega) name).validate_settled
    rw [hdeclarations', List.getElem?_map, Option.map_eq_some_iff] at hother
    obtain ⟨before, hbefore, rfl⟩ := hother
    unfold NodeKind.follow
    split
    · exact hnew
    · next hne =>
      refine hvalid (by omega) j before (Nat.lt_of_le_of_ne (Nat.le_of_lt_succ hj) ?_) hbefore
      rintro rfl
      exact hne (Option.some.inj (hbefore.symm.trans hname))

theorem settleFunctions_spec (s : Naming) :
    FunctionsSettled { s with validator := .ofNames (propertyNames s.blueprint) }
      s.blueprint.declarations.functionNames.length s.settleFunctions := by
  have hloop (k : Nat) (hk : k ≤ s.blueprint.declarations.functionNames.length) :
      FunctionsSettled { s with validator := .ofNames (propertyNames s.blueprint) } k
        ((List.range k).foldl settleFunction
          { s with validator := .ofNames (propertyNames s.blueprint) }) := by
    induction k with
    | zero =>
      exact ⟨rfl, rfl, .refl _, List.Subset.refl _, Nat.le_refl _,
        fun _ j _ hj ↦ absurd hj (Nat.not_lt_zero j)⟩
    | succ k ih =>
      rw [List.range_succ, List.foldl_append]
      exact functionsSettled_step (ih (Nat.le_of_succ_le hk)) hk
  have hlength : s.blueprint.declarations.functionNames.length =
      s.blueprint.functionGraphs.length := List.length_map _
  have hall := hloop _ (Nat.le_refl _)
  rw [hlength] at hall ⊢
  exact hall

/-- The names of the first function graphs are settled, and none of those that remain is a name
that was taken. -/
structure FunctionsApart (done rest : List String) (s : Naming) : Prop where
  names : s.blueprint.declarations.functionNames = done ++ rest
  apart : ∀ name ∈ rest, name ∉ done
  nodup : rest.Nodup
  fresh : ∀ e ∈ s.validator.changes rest, e.2 ∉ rest

theorem functionsApart_step {done : List String} {name : String} {rest : List String} {s : Naming}
    (h : FunctionsApart done (name :: rest) s) :
    FunctionsApart (done ++ [s.validator.settled name]) rest (s.settleFunction done.length) ∧
      (s.settleFunction done.length).validator =
        s.validator.reserve (s.validator.settled name) := by
  obtain ⟨hnames, hapart, hnodup, hfresh⟩ := h
  obtain ⟨hname, hnodup⟩ := List.nodup_cons.1 hnodup
  have hcurrent : s.blueprint.declarations.functionNames[done.length]? = some name := by
    rw [hnames]
    simp
  obtain ⟨hvalidator, hdeclarations, -⟩ := settleFunction_spec hcurrent
  generalize hnew : s.validator.settled name = new at *
  -- no other graph has the old name, none of those that remain has the new one
  have hkeep {names : List String} (hnot : name ∉ names) :
      names.map (NodeKind.follow name new) = names := by
    conv_rhs => rw [← List.map_id names]
    exact List.map_congr_left fun other hother ↦ if_neg (ne_of_mem_of_not_mem hother hnot)
  have hlast : new ∉ rest := by
    intro hmem
    by_cases hsame : new = name
    · exact hname (hsame ▸ hmem)
    · have hchange : (name, new) ∈ s.validator.changes (name :: rest) :=
        NameValidator.mem_changes (i := 0) rfl (congrArg some hnew) hsame
      exact hfresh _ hchange (List.mem_cons_of_mem _ hmem)
  refine ⟨⟨?_, fun other hother hdone ↦ ?_, hnodup, fun e he hmem ↦ ?_⟩, hvalidator⟩
  · rw [hdeclarations, hnames]
    show (done ++ name :: rest).map (NodeKind.follow name new) = _
    rw [List.map_append, List.map_cons, hkeep (hapart name List.mem_cons_self), hkeep hname,
      NodeKind.follow, if_pos rfl, List.append_assoc, List.singleton_append]
  · rcases List.mem_append.1 hdone with hdone | hdone
    · exact hapart other (List.mem_cons_of_mem _ hother) hdone
    · exact hlast (List.mem_singleton.1 hdone ▸ hother)
  · rw [hvalidator] at he
    refine hfresh e ?_ (List.mem_cons_of_mem _ hmem)
    rw [NameValidator.changes, hnew]
    exact List.mem_append_right _ he

/-- Function graphs with names apart get their names one by one. -/
theorem functionNames_settleFunctions {s : Naming}
    (hnodup : s.blueprint.declarations.functionNames.Nodup)
    (hfresh : ∀ e ∈ (NameValidator.ofNames (propertyNames s.blueprint)).changes
      s.blueprint.declarations.functionNames, e.2 ∉ s.blueprint.declarations.functionNames) :
    s.settleFunctions.blueprint.declarations.functionNames =
      (NameValidator.ofNames (propertyNames s.blueprint)).settleAll
        s.blueprint.declarations.functionNames := by
  have hstart : FunctionsApart [] s.blueprint.declarations.functionNames
      { s with validator := .ofNames (propertyNames s.blueprint) } :=
    ⟨rfl, fun _ _ ↦ List.not_mem_nil, hnodup, hfresh⟩
  have hempty : ([] : List String).length = ([] : List String).length := rfl
  have hloop := foldl_settle (P := fun _ ↦ FunctionsApart)
    (fun _ _ _ _ _ _ h ↦ functionsApart_step h) hempty hstart
  rw [List.length_nil, ← List.range_eq_range', List.nil_append] at hloop
  have hlength : s.blueprint.declarations.functionNames.length =
      s.blueprint.functionGraphs.length := List.length_map _
  rw [hlength] at hloop
  exact hloop.1.names.trans (List.append_nil _)

end Naming

end VisualScript
