import VisualScript.Proofs.Names.References
import VisualScript.Proofs.Names.Unique
import Mathlib.Data.List.Forall2

/-!
# Settled names

Settling goes through the declarations of a Blueprint in turn.  What it makes of the
declared names is a function of these names alone, and what it makes of the graphs is
to follow a list of renames.
-/

namespace VisualScript

/-! ## Following renames -/

/-- The name that a reference has after renames in turn. -/
def followAll (renames : List (String × String)) (name : String) : String :=
  renames.foldl (fun name e ↦ NodeKind.follow e.1 e.2 name) name

theorem followAll_append (renames renames' : List (String × String)) :
    followAll (renames ++ renames') = followAll renames' ∘ followAll renames := by
  funext name
  exact List.foldl_append

theorem followAll_of_kept {renames : List (String × String)} {name : String}
    (h : ∀ e ∈ renames, e.1 = name → e.2 = name) : followAll renames name = name := by
  induction renames with
  | nil => rfl
  | cons e renames ih =>
    obtain ⟨hfirst, hrest⟩ := List.forall_mem_cons.1 h
    have hkeep : NodeKind.follow e.1 e.2 name = name := by
      unfold NodeKind.follow
      split
      · next heq => exact hfirst heq.symm
      · rfl
    rw [followAll, List.foldl_cons, hkeep]
    exact ih hrest

theorem followAll_of_notMem {renames : List (String × String)} {name : String}
    (h : name ∉ renames.map Prod.fst) : followAll renames name = name :=
  followAll_of_kept fun _ he heq ↦ absurd (heq ▸ List.mem_map_of_mem he) h

/-- A reference keeps its name or has the result of a rename. -/
theorem followAll_eq_or_mem (renames : List (String × String)) (name : String) :
    followAll renames name = name ∨ followAll renames name ∈ renames.map Prod.snd := by
  refine List.foldlRecOn (motive := fun current : String ↦
    current = name ∨ current ∈ renames.map Prod.snd) _ _ (.inl rfl) fun current hcurrent e he ↦ ?_
  unfold NodeKind.follow
  split
  · exact .inr (List.mem_map_of_mem he)
  · exact hcurrent

/-- A reference ends at the new name if that is not renamed in its turn. -/
theorem followAll_of_mem {renames : List (String × String)} {old new : String}
    (hnodup : (renames.map Prod.fst).Nodup) (hmem : (old, new) ∈ renames)
    (hfresh : new = old ∨ new ∉ renames.map Prod.fst) : followAll renames old = new := by
  obtain ⟨before, after, rfl⟩ := List.append_of_mem hmem
  rw [List.map_append, List.map_cons, List.nodup_append] at hnodup
  obtain ⟨-, hafter, hbefore⟩ := hnodup
  have hfirst : old ∉ before.map Prod.fst := fun hold ↦
    hbefore old hold old List.mem_cons_self rfl
  have hlast : new ∉ after.map Prod.fst := by
    rcases hfresh with rfl | hfresh
    · exact (List.nodup_cons.1 hafter).1
    · intro hnew
      exact hfresh (by simp only [List.map_append, List.map_cons, List.mem_append,
        List.mem_cons]; exact .inr (.inr hnew))
  rw [followAll_append, Function.comp_apply, followAll_of_notMem hfirst, followAll, List.foldl_cons,
    NodeKind.follow, if_pos rfl]
  exact followAll_of_notMem hlast

/-! ## Declarations -/

/-- The names that a Blueprint declares on the class that it derives from. -/
structure Declarations where
  parentClass : Class
  variableNames : List String
  timelineNames : List String
  componentNames : List String
  functionNames : List String

namespace Blueprint

def declarations (b : Blueprint) : Declarations where
  parentClass := b.parentClass
  variableNames := b.newVariables.map (·.name)
  timelineNames := b.timelines.map (·.name)
  componentNames := b.components.map (·.variableName)
  functionNames := b.functionGraphs.map (·.name)

/-- The graphs of the Blueprint are redirected. -/
def Redirects (f : String → String) (b b' : Blueprint) : Prop :=
  List.Forall₂ (Graph.Redirects f) b.allGraphs b'.allGraphs

theorem Redirects.refl (b : Blueprint) : Redirects id b b :=
  List.forall₂_same.2 fun g _ ↦ .refl g

theorem Redirects.trans {f f' : String → String} {b b' b'' : Blueprint} (h : Redirects f b b')
    (h' : Redirects f' b' b'') : Redirects (f' ∘ f) b b'' := by
  unfold Redirects at h h' ⊢
  generalize b.allGraphs = graphs, b'.allGraphs = graphs', b''.allGraphs = graphs'' at h h'
  induction h generalizing graphs'' with
  | nil =>
    cases h'
    exact .nil
  | cons hg _ ih =>
    cases h' with
    | cons hg' hrest' => exact .cons (hg.trans hg') (ih _ hrest')

theorem redirects_mapGraphs {f : String → String} {change : Graph → Graph}
    (h : ∀ g, Graph.Redirects f g (change g)) (b : Blueprint) :
    Redirects f b (b.mapGraphs change) := by
  rw [Redirects, allGraphs_mapGraphs]
  exact List.forall₂_map_right_iff.2 (List.forall₂_same.2 fun g _ ↦ h g)

theorem declarations_mapGraphs {change : Graph → Graph} (h : ∀ g, (change g).name = g.name)
    (b : Blueprint) : (b.mapGraphs change).declarations = b.declarations := by
  have hnames : (b.functionGraphs.map change).map (·.name) = b.functionGraphs.map (·.name) := by
    rw [List.map_map]
    exact List.map_congr_left fun g _ ↦ h g
  unfold declarations mapGraphs components
  rw [hnames]

theorem name_renameVariable (g : Graph) (old new : String) :
    (g.renameVariable old new).name = g.name := by
  have hstep (g : Graph) (n : NodeId) : (Graph.renameVariableAt old new g n).name = g.name := by
    unfold Graph.renameVariableAt
    split
    · dsimp only
      split <;> rfl
    · rfl
  exact List.foldlRecOn (motive := fun g' : Graph ↦ g'.name = g.name) _ _ rfl
    fun g' hg' n _ ↦ (hstep g' n).trans hg'

theorem declarations_renameVariableReferences (b : Blueprint) (old new : String) :
    (b.renameVariableReferences old new).declarations = b.declarations :=
  declarations_mapGraphs (fun g ↦ name_renameVariable g old new) b

theorem name_mapKinds (g : Graph) (f : NodeKind → NodeKind) : (g.mapKinds f).name = g.name :=
  List.foldlRecOn (motive := fun g' : Graph ↦ g'.name = g.name) _ _ rfl fun _ hg' _ _ ↦ hg'

theorem declarations_renameTimelineReferences (b : Blueprint) (old new : String) :
    (b.renameTimelineReferences old new).declarations = b.declarations :=
  declarations_mapGraphs (fun g ↦ name_mapKinds g _) b

theorem redirects_renameVariableReferences (b : Blueprint) (old new : String) :
    Redirects (NodeKind.follow old new) b (b.renameVariableReferences old new) :=
  redirects_mapGraphs (fun g ↦ g.redirects_renameVariable old new) b

theorem redirects_renameTimelineReferences (b : Blueprint) (old new : String) :
    Redirects id b (b.renameTimelineReferences old new) := by
  refine redirects_mapGraphs (fun g ↦ ?_) b
  refine .of_kinds (g.order_mapKinds _)
    (fun n hn ↦ g.kind?_mapKinds (NodeKind.renameTimeline_renameTimeline old new) hn)
    (fun kind ↦ ?_) (NodeKind.localNames_renameTimeline old new)
  rw [kind.member?_renameTimeline old new, Option.map_id]
  rfl

theorem redirects_renameFunctionReferences (b : Blueprint) (old new : String) :
    Redirects id b (b.renameFunctionReferences old new) := by
  refine redirects_mapGraphs (fun g ↦ ?_) b
  refine .of_kinds (g.order_mapKinds _)
    (fun n hn ↦ g.kind?_mapKinds (NodeKind.renameCall_renameCall old new) hn)
    (fun kind ↦ ?_) (NodeKind.localNames_renameCall old new)
  rw [kind.member?_renameCall old new, Option.map_id]
  rfl

end Blueprint

/-! ## Loops over declarations -/

namespace Naming

/-- A step settles the name at its index, and `P` follows the original names, the names that are
settled and those that remain. -/
theorem foldl_settle {step : Naming → Nat → Naming}
    {P : List String → List String → List String → Naming → Prop}
    (hstep : ∀ old done name rest s, old.length = done.length → P old done (name :: rest) s →
      P (old ++ [name]) (done ++ [s.validator.settled name]) rest (step s done.length) ∧
        (step s done.length).validator = s.validator.reserve (s.validator.settled name))
    {old done rest : List String} {s : Naming} (hlength : old.length = done.length)
    (h : P old done rest s) :
    P (old ++ rest) (done ++ s.validator.settleAll rest) []
        ((List.range' done.length rest.length).foldl step s) ∧
      ((List.range' done.length rest.length).foldl step s).validator =
        s.validator.reserveAll (s.validator.settleAll rest) := by
  induction rest generalizing old done s with
  | nil =>
    rw [NameValidator.settleAll, List.append_nil, List.append_nil]
    exact ⟨h, rfl⟩
  | cons name rest ih =>
    obtain ⟨hnext, hvalidator⟩ := hstep old done name rest s hlength h
    have hlength' : (old ++ [name]).length = (done ++ [s.validator.settled name]).length := by
      simp [hlength]
    have hrest := ih hlength' hnext
    rw [hvalidator, List.append_assoc, List.append_assoc, List.singleton_append,
      List.singleton_append, List.length_append, List.length_singleton] at hrest
    exact hrest

/-- The declaration at the index of a name. -/
theorem exists_getElem?_of_map {α : Type} {name : α → String} {l : List α} {i : Nat} {next : String}
    (h : (l.map name)[i]? = some next) : ∃ a, l[i]? = some a ∧ name a = next := by
  rw [List.getElem?_map] at h
  exact Option.map_eq_some_iff.1 h

/-- The declaration at the index of the next name. -/
theorem exists_getElem?_of_append {α : Type} {name : α → String} {l : List α}
    {done rest : List String} {next : String} (h : l.map name = done ++ next :: rest) :
    ∃ a, l[done.length]? = some a ∧ name a = next := by
  have hnext : (l.map name)[done.length]? = some next := by rw [h]; simp
  exact exists_getElem?_of_map hnext

theorem map_modify_of_append {α : Type} {name : α → String} {l : List α} {done rest : List String}
    {next new : String} (h : l.map name = done ++ next :: rest) {f : α → α}
    (hf : ∀ a, name (f a) = new) :
    (l.modify done.length f).map name = done ++ new :: rest := by
  have hmap : (l.modify done.length f).map name =
      (l.map name).modify done.length fun _ ↦ new := by
    apply List.ext_getElem?
    intro k
    rw [List.getElem?_map, List.getElem?_modify, List.getElem?_modify, List.getElem?_map]
    cases l[k]? with
    | none => split <;> rfl
    | some a =>
      split
      · exact congrArg some (hf a)
      · rfl
  rw [hmap, h]
  clear h hmap
  induction done with
  | nil => rfl
  | cons first done ih => exact congrArg (first :: ·) ih

/-! ### Variables -/

theorem isDeclaredElsewhere_iff {b : Blueprint} {i : Nat} {name : String} :
    isDeclaredElsewhere b i name = true ↔
      ∃ k, k ≠ i ∧ b.declarations.variableNames[k]? = some name := by
  unfold isDeclaredElsewhere Blueprint.declarations
  rw [List.any_eq_true]
  simp only [List.getElem?_map, Option.map_eq_some_iff, Bool.and_eq_true, bne_iff_ne, beq_iff_eq]
  constructor
  · rintro ⟨⟨var, k⟩, hmem, hne, hname⟩
    exact ⟨k, hne, var, List.mem_zipIdx_iff_getElem?.1 hmem, hname⟩
  · rintro ⟨k, hne, var, hvar, hname⟩
    exact ⟨⟨var, k⟩, List.mem_zipIdx_iff_getElem?.2 hvar, hne, hname⟩

theorem settleVariable_of_ok {s : Naming} {i : Nat} {var : VariableDescription}
    (hvar : s.blueprint.newVariables[i]? = some var) (hok : s.validator.validate var.name = .ok) :
    s.settleVariable i = { s with validator := s.validator.reserve var.name } := by
  unfold settleVariable
  rw [hvar]
  dsimp only
  rw [NameValidator.accept_of_ok hok]

/-- The declaration gets the new name and the references follow unless another is left for
them. -/
theorem settleVariable_of_ne {s : Naming} {i : Nat} {var : VariableDescription}
    (hvar : s.blueprint.newVariables[i]? = some var) (hne : s.validator.validate var.name ≠ .ok) :
    (s.settleVariable i).validator = s.validator.reserve (s.validator.makeUnique var.name) ∧
      ∃ b, (b = s.blueprint.renameVariableReferences var.name (s.validator.makeUnique var.name) ∨
          b = s.blueprint ∧ isDeclaredElsewhere s.blueprint i var.name = true) ∧
        (s.settleVariable i).blueprint = { b with newVariables := b.newVariables.modify i fun v ↦
          { v with name := s.validator.makeUnique var.name } } := by
  unfold settleVariable
  rw [hvar]
  dsimp only
  rw [NameValidator.accept_of_ne hne]
  refine ⟨rfl, _, ?_, rfl⟩
  dsimp only [reportRename]
  by_cases helsewhere : isDeclaredElsewhere s.blueprint i var.name = true
  · exact .inr ⟨if_pos helsewhere, helsewhere⟩
  · exact .inl (if_neg helsewhere)

section Step

variable {s : Naming} {done rest : List String} {name : String}
  (hnames : s.blueprint.newVariables.map (·.name) = done ++ name :: rest)
include hnames

theorem validator_settleVariable : (s.settleVariable done.length).validator =
    s.validator.reserve (s.validator.settled name) := by
  obtain ⟨var, hvar, rfl⟩ := exists_getElem?_of_append hnames
  by_cases hok : s.validator.validate var.name = .ok
  · rw [settleVariable_of_ok hvar hok, NameValidator.settled_of_ok hok]
  · rw [(settleVariable_of_ne hvar hok).1, NameValidator.settled_of_ne hok]

/-- Only the name at the index is another. -/
theorem declarations_settleVariable : (s.settleVariable done.length).blueprint.declarations =
    { s.blueprint.declarations with
      variableNames := done ++ s.validator.settled name :: rest } := by
  obtain ⟨var, hvar, rfl⟩ := exists_getElem?_of_append hnames
  by_cases hok : s.validator.validate var.name = .ok
  · rw [settleVariable_of_ok hvar hok, NameValidator.settled_of_ok hok, ← hnames]
    rfl
  · obtain ⟨-, b, hb, hblueprint⟩ := settleVariable_of_ne hvar hok
    rw [NameValidator.settled_of_ne hok]
    generalize s.validator.makeUnique var.name = new at hb hblueprint ⊢
    have hsame : b.declarations = s.blueprint.declarations := by
      rcases hb with rfl | ⟨rfl, -⟩
      · exact s.blueprint.declarations_renameVariableReferences _ _
      · rfl
    have hmodified : (b.newVariables.modify done.length fun v ↦
        { v with name := new }).map (·.name) = done ++ new :: rest :=
      map_modify_of_append ((congrArg Declarations.variableNames hsame).trans hnames) fun _ ↦ rfl
    rw [hblueprint, ← hmodified, ← hsame]
    rfl

/-- The references follow a change unless another variable is declared with the old name. -/
theorem redirects_settleVariable : ∃ renames,
    s.blueprint.Redirects (followAll renames) (s.settleVariable done.length).blueprint ∧
      (renames = [(name, s.validator.settled name)] ∨ renames = [] ∧
        (s.validator.settled name ≠ name →
          isDeclaredElsewhere s.blueprint done.length name = true)) := by
  obtain ⟨var, hvar, rfl⟩ := exists_getElem?_of_append hnames
  by_cases hok : s.validator.validate var.name = .ok
  · rw [settleVariable_of_ok hvar hok, NameValidator.settled_of_ok hok]
    exact ⟨[], .refl _, .inr ⟨rfl, fun hne ↦ absurd rfl hne⟩⟩
  · obtain ⟨-, b, hb, hblueprint⟩ := settleVariable_of_ne hvar hok
    rw [NameValidator.settled_of_ne hok]
    generalize s.validator.makeUnique var.name = new at hb hblueprint ⊢
    have hgraphs : (s.settleVariable done.length).blueprint.allGraphs = b.allGraphs := by
      rw [hblueprint]
      rfl
    have hdeclared {f : String → String} (h : s.blueprint.Redirects f b) :
        s.blueprint.Redirects f (s.settleVariable done.length).blueprint := by
      rwa [Blueprint.Redirects, hgraphs]
    rcases hb with rfl | ⟨rfl, helsewhere⟩
    · refine ⟨_, hdeclared ?_, .inl rfl⟩
      exact s.blueprint.redirects_renameVariableReferences _ _
    · exact ⟨[], hdeclared (.refl _), .inr ⟨rfl, fun _ ↦ helsewhere⟩⟩

end Step

/-- Every change is among the renames, unless another variable had, or now has, the old name. -/
def Covers (old done rest : List String) (renames : List (String × String)) : Prop :=
  ∀ (i : Nat) (a c : String), old[i]? = some a → done[i]? = some c → c ≠ a →
    (∀ k : Nat, k < i → done[k]? ≠ some a) →
    (∀ k : Nat, i < k → (old ++ rest)[k]? ≠ some a) → (a, c) ∈ renames

/-- What is known of the earlier variables does not depend on the new one. -/
theorem Covers.concat {old done rest : List String} {name new : String}
    {renames renames' : List (String × String)} (hlength : old.length = done.length)
    (h : Covers old done (name :: rest) renames) (hsub : renames ⊆ renames')
    (hlast : new ≠ name → (∀ k : Nat, k < done.length → done[k]? ≠ some name) →
      (∀ k : Nat, done.length < k → (done ++ name :: rest)[k]? ≠ some name) →
        (name, new) ∈ renames') : Covers (old ++ [name]) (done ++ [new]) rest renames' := by
  intro i a c ha hc hne hbefore hafter
  have hearlier (k : Nat) (hk : k < done.length) : (done ++ [new])[k]? = done[k]? :=
    List.getElem?_append_left hk
  rcases Nat.lt_or_ge i done.length with hi | hi
  · rw [List.getElem?_append_left (hlength ▸ hi)] at ha
    rw [hearlier i hi] at hc
    refine hsub (h i a c ha hc hne (fun k hk ↦ ?_) fun k hk ↦ ?_)
    · exact hearlier k (Nat.lt_trans hk hi) ▸ hbefore k hk
    · rw [List.append_cons]
      exact hafter k hk
  · have hlt := (List.getElem?_eq_some_iff.1 hc).1
    rw [List.length_append, List.length_singleton] at hlt
    obtain rfl : i = done.length := by omega
    rw [List.getElem?_concat_length, Option.some.injEq] at hc
    rw [← hlength, List.getElem?_concat_length, Option.some.injEq] at ha
    subst ha hc
    refine hlast hne (fun k hk ↦ hearlier k hk ▸ hbefore k hk) fun k hk ↦ ?_
    have hlater := hafter k hk
    rw [List.append_assoc, List.singleton_append, List.getElem?_append_right (by omega),
      hlength] at hlater
    rwa [List.getElem?_append_right (by omega)]

/-- Variables are settled up to a point.  The references to one followed it unless another
variable had, or now has, its old name. -/
structure VariablesSettled (s₀ : Naming) (old done rest : List String) (s : Naming) : Prop where
  declarations : s.blueprint.declarations =
    { s₀.blueprint.declarations with variableNames := done ++ rest }
  renames : ∃ renames, s₀.blueprint.Redirects (followAll renames) s.blueprint ∧
    renames.Sublist (old.zip done) ∧
    ∀ (i : Nat) (a c : String), old[i]? = some a → done[i]? = some c → c ≠ a →
      (∀ k : Nat, k < i → done[k]? ≠ some a) →
      (∀ k : Nat, i < k → (old ++ rest)[k]? ≠ some a) → (a, c) ∈ renames

theorem variablesSettled_step (s₀ : Naming) {old done : List String} {name : String}
    {rest : List String} {s : Naming} (hlength : old.length = done.length)
    (h : VariablesSettled s₀ old done (name :: rest) s) :
    VariablesSettled s₀ (old ++ [name]) (done ++ [s.validator.settled name]) rest
        (s.settleVariable done.length) ∧
      (s.settleVariable done.length).validator = s.validator.reserve (s.validator.settled name) := by
  obtain ⟨hdeclarations, renames, hredirects, hsublist, hcovers⟩ := h
  have hnames : s.blueprint.newVariables.map (·.name) = done ++ name :: rest :=
    congrArg Declarations.variableNames hdeclarations
  obtain ⟨renames', hfollow, hrenames'⟩ := redirects_settleVariable hnames
  refine ⟨⟨?_, renames ++ renames', ?_, ?_, ?_⟩, validator_settleVariable hnames⟩
  · rw [declarations_settleVariable hnames, hdeclarations, List.append_assoc, List.singleton_append]
  · rw [followAll_append]
    exact hredirects.trans hfollow
  · rw [List.zip_append hlength]
    refine hsublist.append ?_
    rcases hrenames' with rfl | ⟨rfl, -⟩
    · exact .refl _
    · exact List.nil_sublist _
  · refine Covers.concat hlength hcovers (List.subset_append_left _ _) fun hne hbefore hafter ↦ ?_
    refine List.mem_append_right _ ?_
    rcases hrenames' with rfl | ⟨-, helsewhere⟩
    · exact List.mem_cons_self
    · -- another variable of this name has been settled before, or is still to be
      obtain ⟨k, hk, hother⟩ := isDeclaredElsewhere_iff.1 (helsewhere hne)
      rw [hdeclarations] at hother
      rcases Nat.lt_or_gt_of_ne hk with hk | hk
      · rw [List.getElem?_append_left hk] at hother
        exact absurd hother (hbefore k hk)
      · exact absurd hother (hafter k hk)

/-- The variables of a Blueprint after their names are settled. -/
theorem settleVariables (s : Naming) :
    VariablesSettled s s.blueprint.declarations.variableNames
        (s.validator.settleAll s.blueprint.declarations.variableNames) []
        ((List.range s.blueprint.newVariables.length).foldl settleVariable s) ∧
      ((List.range s.blueprint.newVariables.length).foldl settleVariable s).validator =
        s.validator.reserveAll (s.validator.settleAll s.blueprint.declarations.variableNames) := by
  have hstart : VariablesSettled s [] [] s.blueprint.declarations.variableNames s := by
    refine ⟨rfl, [], Blueprint.Redirects.refl _, List.Sublist.slnil, fun i a c ha ↦ ?_⟩
    cases ha
  have hloop := foldl_settle
    (fun old done name rest s' hlength h ↦ variablesSettled_step s hlength h) rfl hstart
  rw [List.length_nil, ← List.range_eq_range', List.nil_append, List.nil_append] at hloop
  have hlength : s.blueprint.declarations.variableNames.length = s.blueprint.newVariables.length :=
    List.length_map _
  rwa [hlength] at hloop

/-- What one turn of a variable adds to `P`, all turns add. -/
theorem settleVariables_of_turns {P : List String → Naming → Prop} {s : Naming} (hstart : P [] s)
    (hturn : ∀ (names : List String) (s' : Naming) (i : Nat) (name : String), P names s' →
      s'.blueprint.declarations.variableNames[i]? = some name →
        P (names ++ [name]) (s'.settleVariable i)) :
    P s.blueprint.declarations.variableNames
      ((List.range s.blueprint.newVariables.length).foldl settleVariable s) := by
  have hstep (old done : List String) (name : String) (rest : List String) (s' : Naming)
      (hlength : old.length = done.length)
      (h : VariablesSettled s old done (name :: rest) s' ∧ P old s') :
      (VariablesSettled s (old ++ [name]) (done ++ [s'.validator.settled name]) rest
          (s'.settleVariable done.length) ∧ P (old ++ [name]) (s'.settleVariable done.length)) ∧
      (s'.settleVariable done.length).validator =
        s'.validator.reserve (s'.validator.settled name) := by
    obtain ⟨hsettled, hvalidator⟩ := variablesSettled_step s hlength h.1
    have hname : s'.blueprint.declarations.variableNames[done.length]? = some name := by
      rw [h.1.declarations]
      simp
    exact ⟨⟨hsettled, hturn old s' _ name h.2 hname⟩, hvalidator⟩
  have hstart' : VariablesSettled s [] [] s.blueprint.declarations.variableNames s :=
    ⟨rfl, [], .refl _, List.Sublist.slnil, fun _ _ _ h ↦ by cases h⟩
  have hloop := (foldl_settle (P := fun old done rest s' ↦
    VariablesSettled s old done rest s' ∧ P old s') hstep rfl ⟨hstart', hstart⟩).1.2
  rw [List.length_nil, ← List.range_eq_range', List.nil_append] at hloop
  have hlength : s.blueprint.declarations.variableNames.length = s.blueprint.newVariables.length :=
    List.length_map _
  rwa [hlength] at hloop

end Naming

end VisualScript
