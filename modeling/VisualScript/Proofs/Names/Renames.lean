import VisualScript.Proofs.Names.Warnings

/-!
# Renames in graphs

Settling names renames what graphs refer to, one name after another.  So each graph of a settled
Blueprint is what a list of renames makes of the graph that it was, and the names of the
declarations alone decide on this list.
-/

namespace VisualScript

/-! ## What nodes name -/

namespace NodeKind

/-- The timeline that a node stands for. -/
def timeline? : NodeKind → Option String
  | timeline name => some name
  | _ => none

/-- What an instance of a macro says about it. -/
def macro? : NodeKind → Option MacroData
  | macroInstance data => some data
  | _ => none

/-- A redirected node is read as before by whatever does not look at variables. -/
theorem read_redirect {α : Type} {read : NodeKind → Option α}
    (hget : ∀ var, read (variableGet var) = none) (hset : ∀ var, read (variableSet var) = none)
    (old new : String) (kind : NodeKind) : read (kind.redirect old new) = read kind := by
  unfold redirect
  split
  · cases kind with
    | variableGet var => exact (hget _).trans (hget _).symm
    | variableSet var => cases var <;> exact (hset _).trans (hset _).symm
    | _ => rfl
  · rfl

/-- A redirected call is read as before by whatever does not look at calls. -/
theorem read_renameCall {α : Type} {read : NodeKind → Option α}
    (hcall : ∀ call, read (callFunction call) = none) (old new : String) (kind : NodeKind) :
    read (kind.renameCall old new) = read kind := by
  cases kind with
  | callFunction call =>
    unfold renameCall
    dsimp only
    split
    · exact (hcall _).trans (hcall _).symm
    · rfl
  | _ => rfl

theorem timeline?_renameTimeline (old new : String) (kind : NodeKind) :
    (kind.renameTimeline old new).timeline? = kind.timeline?.map (follow old new) := by
  cases kind <;> rfl

end NodeKind

namespace Graph

/-- The timeline that a node of the graph stands for. -/
def timeline? (g : Graph) (n : NodeId) : Option String := (g.kind? n).bind (·.timeline?)

/-- What an instance of a macro in the graph says about it. -/
def macro? (g : Graph) (n : NodeId) : Option MacroData := (g.kind? n).bind (·.macro?)

end Graph

/-! ## Single renames -/

/-- Another name for something that graphs refer to. -/
inductive Rename
  | member (old new : String)
  | timeline (old new : String)
  | function (old new : String)

namespace Rename

def apply : Rename → Graph → Graph
  | member old new, g => g.renameVariable old new
  | timeline old new, g => g.renameTimeline old new
  | function old new, g => g.renameFunction old new

/-- The kind of a node after the rename. -/
def kind : Rename → NodeKind → NodeKind
  | member old new, kind => kind.redirect old new
  | timeline old new, kind => kind.renameTimeline old new
  | function old new, kind => kind.renameCall old new

/-- The name of a graph after the rename. -/
def graphName : Rename → String → String
  | function old new, name => NodeKind.follow old new name
  | _, name => name

/-- The name of a timeline after the rename. -/
def timelineName : Rename → String → String
  | timeline old new, name => NodeKind.follow old new name
  | _, name => name

theorem order_apply (r : Rename) (g : Graph) : (r.apply g).order = g.order := by
  cases r with
  | member old new => exact g.order_renameVariable old new
  | timeline old new => exact g.order_mapKinds _
  | function old new => exact g.order_mapKinds _

theorem name_apply (r : Rename) (g : Graph) : (r.apply g).name = r.graphName g.name := by
  cases r with
  | member old new => exact Blueprint.name_renameVariable g old new
  | timeline old new => exact Blueprint.name_mapKinds g _
  | function old new => rfl

theorem kind?_apply (r : Rename) (g : Graph) {n : NodeId} (hn : n ∈ g.order) :
    (r.apply g).kind? n = (g.kind? n).map r.kind := by
  cases r with
  | member old new => exact g.kind?_renameVariable old new hn
  | timeline old new =>
    exact g.kind?_mapKinds (NodeKind.renameTimeline_renameTimeline old new) hn
  | function old new => exact g.kind?_mapKinds (NodeKind.renameCall_renameCall old new) hn

theorem timeline?_kind (r : Rename) (kind : NodeKind) :
    (r.kind kind).timeline? = kind.timeline?.map r.timelineName := by
  have hkeep : kind.timeline? = kind.timeline?.map id := (congrFun Option.map_id _).symm
  cases r with
  | member old new =>
    exact (NodeKind.read_redirect (fun _ ↦ rfl) (fun _ ↦ rfl) old new kind).trans hkeep
  | timeline old new => exact kind.timeline?_renameTimeline old new
  | function old new => exact (NodeKind.read_renameCall (fun _ ↦ rfl) old new kind).trans hkeep

theorem macro?_kind (r : Rename) (kind : NodeKind) : (r.kind kind).macro? = kind.macro? := by
  cases r with
  | member old new => exact NodeKind.read_redirect (fun _ ↦ rfl) (fun _ ↦ rfl) old new kind
  | timeline old new => cases kind <;> rfl
  | function old new => exact NodeKind.read_renameCall (fun _ ↦ rfl) old new kind

/-! ## Lists of renames -/

/-- The graph once the renames are made in it in turn. -/
def applyAll (renames : List Rename) (g : Graph) : Graph :=
  renames.foldl (fun g r ↦ r.apply g) g

def members (renames : List (String × String)) : List Rename :=
  renames.map fun e ↦ member e.1 e.2

def timelines (renames : List (String × String)) : List Rename :=
  renames.map fun e ↦ timeline e.1 e.2

def functions (renames : List (String × String)) : List Rename :=
  renames.map fun e ↦ function e.1 e.2

theorem applyAll_append (renames renames' : List Rename) :
    applyAll (renames ++ renames') = applyAll renames' ∘ applyAll renames := by
  funext g
  exact List.foldl_append

theorem order_applyAll (renames : List Rename) (g : Graph) :
    (applyAll renames g).order = g.order :=
  List.foldlRecOn (motive := fun g' : Graph ↦ g'.order = g.order) _ _ rfl
    fun g' hg' r _ ↦ (r.order_apply g').trans hg'

theorem name_applyAll (renames : List Rename) (g : Graph) :
    (applyAll renames g).name = renames.foldl (fun name r ↦ r.graphName name) g.name := by
  induction renames generalizing g with
  | nil => rfl
  | cons r renames ih =>
    rw [List.foldl_cons, ← r.name_apply g]
    exact ih (r.apply g)

/-- What is read off a node follows the renames if it follows each one. -/
theorem read_applyAll {α : Type} {read : NodeKind → Option α} {f : Rename → α → α}
    (hread : ∀ r kind, read (r.kind kind) = (read kind).map (f r)) (renames : List Rename)
    (g : Graph) {n : NodeId} (hn : n ∈ g.order) :
    ((applyAll renames g).kind? n).bind read =
      ((g.kind? n).bind read).map fun a ↦ renames.foldl (fun a r ↦ f r a) a := by
  induction renames generalizing g with
  | nil => exact (congrFun Option.map_id _).symm
  | cons r renames ih =>
    have hrest := ih (r.apply g) (r.order_apply g ▸ hn)
    rw [r.kind?_apply g hn] at hrest
    refine hrest.trans ?_
    cases g.kind? n with
    | none => rfl
    | some kind =>
      rw [Option.map_some, Option.bind_some, Option.bind_some, hread, Option.map_map]
      rfl

theorem timeline?_applyAll (renames : List Rename) (g : Graph) {n : NodeId} (hn : n ∈ g.order) :
    (applyAll renames g).timeline? n =
      (g.timeline? n).map fun name ↦ renames.foldl (fun name r ↦ r.timelineName name) name :=
  read_applyAll timeline?_kind renames g hn

theorem macro?_applyAll (renames : List Rename) (g : Graph) {n : NodeId} (hn : n ∈ g.order) :
    (applyAll renames g).macro? n = g.macro? n := by
  have hread (r : Rename) (kind : NodeKind) : (r.kind kind).macro? = kind.macro?.map id :=
    (r.macro?_kind kind).trans (congrFun Option.map_id _).symm
  refine (read_applyAll (f := fun _ ↦ id) hread renames g hn).trans ?_
  have hkeep : (fun data : MacroData ↦ renames.foldl (fun data _ ↦ id data) data) = id := by
    funext data
    exact List.foldlRecOn (motive := (· = data)) _ _ rfl fun _ hdata _ _ ↦ hdata
  rw [hkeep, Option.map_id]
  rfl

/-- Renames of members and timelines leave the names of graphs alone. -/
theorem foldl_graphName {renames : List Rename} (h : ∀ r ∈ renames, r.graphName = id)
    (name : String) : renames.foldl (fun name r ↦ r.graphName name) name = name :=
  List.foldlRecOn (motive := (· = name)) _ _ rfl fun name' hname r hr ↦
    (congrFun (h r hr) name').trans hname

/-- Renames of members and functions leave the names of timelines alone. -/
theorem foldl_timelineName {renames : List Rename} (h : ∀ r ∈ renames, r.timelineName = id)
    (name : String) : renames.foldl (fun name r ↦ r.timelineName name) name = name :=
  List.foldlRecOn (motive := (· = name)) _ _ rfl fun name' hname r hr ↦
    (congrFun (h r hr) name').trans hname

theorem timelineName_members {renames : List (String × String)} :
    ∀ r ∈ members renames, r.timelineName = id :=
  List.forall_mem_map.2 fun _ _ ↦ rfl

theorem timelineName_functions {renames : List (String × String)} :
    ∀ r ∈ functions renames, r.timelineName = id :=
  List.forall_mem_map.2 fun _ _ ↦ rfl

theorem graphName_members {renames : List (String × String)} :
    ∀ r ∈ members renames, r.graphName = id :=
  List.forall_mem_map.2 fun _ _ ↦ rfl

theorem graphName_timelines {renames : List (String × String)} :
    ∀ r ∈ timelines renames, r.graphName = id :=
  List.forall_mem_map.2 fun _ _ ↦ rfl

theorem graphName_functions (renames : List (String × String)) (name : String) :
    (functions renames).foldl (fun name r ↦ r.graphName name) name = followAll renames name :=
  List.foldl_map

theorem timelineName_timelines (renames : List (String × String)) (name : String) :
    (timelines renames).foldl (fun name r ↦ r.timelineName name) name = followAll renames name :=
  List.foldl_map

end Rename

/-! ## Renamed Blueprints -/

namespace Blueprint

/-- The graphs of the Blueprint once renames are made in all of them. -/
structure Renamed (renames : List Rename) (b b' : Blueprint) : Prop where
  pages : b'.ubergraphPages = b.ubergraphPages.map (Rename.applyAll renames)
  functions : b'.functionGraphs = b.functionGraphs.map (Rename.applyAll renames)
  delegates : b'.delegateSignatureGraphs =
    b.delegateSignatureGraphs.map (Rename.applyAll renames)
  macros : b'.macroGraphs = b.macroGraphs.map (Rename.applyAll renames)
  interfaces : b'.implementedInterfaces = b.implementedInterfaces.map fun i ↦
    { i with graphs := i.graphs.map (Rename.applyAll renames) }

namespace Renamed

variable {renames renames' : List Rename} {b b' b'' : Blueprint}

theorem refl (b : Blueprint) : Renamed [] b b := by
  have hgraphs (graphs : List Graph) : graphs = graphs.map (Rename.applyAll []) :=
    (List.map_id _).symm
  refine ⟨hgraphs _, hgraphs _, hgraphs _, hgraphs _, ?_⟩
  conv_lhs => rw [← List.map_id b.implementedInterfaces]
  refine List.map_congr_left fun i _ ↦ ?_
  rw [← hgraphs i.graphs]
  rfl

theorem trans (h : Renamed renames b b') (h' : Renamed renames' b' b'') :
    Renamed (renames ++ renames') b b'' where
  pages := by rw [h'.pages, h.pages, List.map_map, ← Rename.applyAll_append]
  functions := by rw [h'.functions, h.functions, List.map_map, ← Rename.applyAll_append]
  delegates := by rw [h'.delegates, h.delegates, List.map_map, ← Rename.applyAll_append]
  macros := by rw [h'.macros, h.macros, List.map_map, ← Rename.applyAll_append]
  interfaces := by
    rw [h'.interfaces, h.interfaces, List.map_map]
    refine List.map_congr_left fun i _ ↦ ?_
    rw [Rename.applyAll_append, ← List.map_map]
    rfl

theorem allGraphs (h : Renamed renames b b') :
    b'.allGraphs = b.allGraphs.map (Rename.applyAll renames) := by
  rw [← b.allGraphs_mapGraphs]
  unfold Blueprint.allGraphs
  rw [h.pages, h.functions, h.delegates, h.macros, h.interfaces]
  rfl

theorem exists_getElem? (h : Renamed renames b b') {j : Nat} {g : Graph}
    (hg : b.allGraphs[j]? = some g) :
    ∃ g', b'.allGraphs[j]? = some g' ∧ Rename.applyAll renames g = g' := by
  refine ⟨_, ?_, rfl⟩
  rw [h.allGraphs, List.getElem?_map, hg, Option.map_some]

/-- Variables, timelines and components are not looked at. -/
theorem declaring (h : Renamed renames b b') (newVariables : List VariableDescription)
    (timelines : List TimelineTemplate) (constructionScript : Option ConstructionScript) :
    Renamed renames b { b' with newVariables, timelines, constructionScript } :=
  ⟨h.pages, h.functions, h.delegates, h.macros, h.interfaces⟩

end Renamed

theorem renamed_mapGraphs (r : Rename) (b : Blueprint) : Renamed [r] b (b.mapGraphs r.apply) :=
  ⟨rfl, rfl, rfl, rfl, rfl⟩

end Blueprint

/-! ## Names that change together -/

namespace NameValidator

/-- What changes as names take turns and each change is made in all of them. -/
def jointChanges (v : NameValidator) (renames : List (String × String)) :
    List String → List (String × String)
  | [] => []
  | name :: names =>
    let current := followAll renames name
    let change := (v.accept current).1.toList.map (current, ·)
    change ++ (v.reserve (v.settled current)).jointChanges (renames ++ change) names

end NameValidator

/-! ## Settling -/

namespace Naming

/-- References to members are all that a list of turns renames. -/
theorem renamed_foldl_members {α : Type} {step : Naming → α → Naming} {b : Blueprint}
    (hstep : ∀ (s : Naming) a, ∃ renames,
      s.blueprint.Renamed (Rename.members renames) (step s a).blueprint)
    (l : List α) {s : Naming} (h : ∃ renames, b.Renamed (Rename.members renames) s.blueprint) :
    ∃ renames, b.Renamed (Rename.members renames) (l.foldl step s).blueprint := by
  refine List.foldlRecOn (motive := fun s' : Naming ↦
    ∃ renames, b.Renamed (Rename.members renames) s'.blueprint) _ _ h ?_
  rintro s' ⟨renames, hrenamed⟩ a -
  obtain ⟨renames', hrenamed'⟩ := hstep s' a
  refine ⟨renames ++ renames', ?_⟩
  rw [Rename.members, List.map_append]
  exact hrenamed.trans hrenamed'

theorem renamed_settleVariable (s : Naming) (i : Nat) : ∃ renames,
    s.blueprint.Renamed (Rename.members renames) (s.settleVariable i).blueprint := by
  cases hvar : s.blueprint.newVariables[i]? with
  | none =>
    rw [settleVariable, hvar]
    exact ⟨[], .refl _⟩
  | some var =>
    by_cases hok : s.validator.validate var.name = .ok
    · rw [settleVariable_of_ok hvar hok]
      exact ⟨[], .refl _⟩
    · obtain ⟨-, b, hb, hblueprint⟩ := settleVariable_of_ne hvar hok
      rw [hblueprint]
      generalize s.validator.makeUnique var.name = new at hb ⊢
      suffices hrenamed : ∃ renames, s.blueprint.Renamed (Rename.members renames) b by
        obtain ⟨renames, hrenamed⟩ := hrenamed
        exact ⟨renames, hrenamed.declaring _ _ _⟩
      rcases hb with rfl | ⟨rfl, -⟩
      · exact ⟨[(var.name, new)], Blueprint.renamed_mapGraphs (.member var.name new) s.blueprint⟩
      · exact ⟨[], .refl _⟩

theorem renamed_settleTimeline {s : Naming} {i : Nat} {name : String}
    (hname : s.blueprint.declarations.timelineNames[i]? = some name) :
    s.blueprint.Renamed (Rename.timelines (s.validator.changes [name]))
      (s.settleTimeline i).blueprint := by
  obtain ⟨timeline, htimeline, rfl⟩ := exists_getElem?_of_map hname
  by_cases hok : s.validator.validate timeline.name = .ok
  · rw [settleTimeline_of_ok htimeline hok, NameValidator.changes, NameValidator.accept_of_ok hok]
    exact .refl _
  · obtain ⟨-, hblueprint⟩ := settleTimeline_of_ne htimeline hok
    rw [hblueprint, NameValidator.changes, NameValidator.accept_of_ne hok]
    generalize s.validator.makeUnique timeline.name = new
    have hrenamed := Blueprint.renamed_mapGraphs (.timeline timeline.name new) s.blueprint
    exact hrenamed.declaring _ _ _

theorem renamed_settleTimelines (s : Naming) :
    s.blueprint.Renamed (Rename.timelines (s.validator.changes s.blueprint.declarations.timelineNames))
      ((List.range s.blueprint.timelines.length).foldl settleTimeline s).blueprint := by
  refine (settleTimelines_of_turns (s := s) (P := fun names s' ↦ Reported "timeline" s names s' ∧
    s.blueprint.Renamed (Rename.timelines (s.validator.changes names)) s'.blueprint)
    ⟨.refl _ _, .refl _⟩ fun names s' i name ⟨hreported, hrenamed⟩ hname ↦
      ⟨hreported.trans (reported_settleTimeline hname), ?_⟩).2
  rw [NameValidator.changes_append, ← hreported.validator, Rename.timelines, List.map_append]
  exact hrenamed.trans (renamed_settleTimeline hname)

theorem renamed_settleComponents (s : Naming) : ∃ renames,
    s.blueprint.Renamed (Rename.members renames) s.settleComponents.blueprint := by
  unfold settleComponents
  cases s.blueprint.constructionScript with
  | none => exact ⟨[], .refl _⟩
  | some script =>
    refine renamed_foldl_members (fun s e ↦ ⟨[e], ?_⟩) _
      ⟨[], (Blueprint.Renamed.refl s.blueprint).declaring _ _ _⟩
    exact s.blueprint.renamed_mapGraphs (.member e.1 e.2)

/-- Settling members renames references to timelines between those to other members. -/
theorem renamed_settleMembers (s : Naming) :
    let names := s.blueprint.declarations.timelineNames
    let v := s.validator.reserveAll (s.validator.settleAll s.blueprint.declarations.variableNames)
    s.settleMembers.blueprint.declarations.timelineNames = v.settleAll names ∧
      ∃ before after, s.blueprint.Renamed (Rename.members before ++
        Rename.timelines (v.changes names) ++ Rename.members after) s.settleMembers.blueprint := by
  intro names v
  obtain ⟨⟨hdeclarations₁, -⟩, hvalidator₁⟩ := settleVariables s
  obtain ⟨before, hrenamed₁⟩ := renamed_foldl_members renamed_settleVariable
    (List.range s.blueprint.newVariables.length) ⟨[], .refl s.blueprint⟩
  unfold settleMembers
  dsimp only
  generalize (List.range s.blueprint.newVariables.length).foldl settleVariable s = s₁ at *
  obtain ⟨hdeclarations₂, -⟩ := (settleTimelines s₁).1
  have hrenamed₂ := renamed_settleTimelines s₁
  generalize (List.range s₁.blueprint.timelines.length).foldl settleTimeline s₁ = s₂ at *
  obtain ⟨-, hdeclarations₃, -⟩ := settleComponents_spec s₂
  obtain ⟨after, hrenamed₃⟩ := renamed_settleComponents s₂
  rw [hvalidator₁, hdeclarations₁] at hdeclarations₂ hrenamed₂
  refine ⟨?_, before, after, (hrenamed₁.trans hrenamed₂).trans hrenamed₃⟩
  rw [hdeclarations₃, hdeclarations₂]
  exact List.append_nil _

theorem renamed_settleFunction {s : Naming} {i : Nat} {name : String}
    (hname : s.blueprint.declarations.functionNames[i]? = some name) :
    s.blueprint.Renamed
      (Rename.functions ((s.validator.accept name).1.toList.map (name, ·)))
      (s.settleFunction i).blueprint := by
  obtain ⟨graph, hgraph, rfl⟩ := exists_getElem?_of_map hname
  by_cases hok : s.validator.validate graph.name = .ok
  · rw [settleFunction_of_ok hgraph hok, NameValidator.accept_of_ok hok]
    exact .refl _
  · obtain ⟨-, hblueprint⟩ := settleFunction_of_ne hgraph hok
    rw [hblueprint, NameValidator.accept_of_ne hok]
    generalize s.validator.makeUnique graph.name = new
    exact Blueprint.renamed_mapGraphs (.function graph.name new) s.blueprint

/-- Function graphs that remain take their turns under the names that they have by then. -/
theorem renamed_foldl_settleFunction {s₀ s : Naming} {renames : List (String × String)}
    (done rest : List String) (hnames : s₀.blueprint.declarations.functionNames = done ++ rest)
    (h : s₀.blueprint.Renamed (Rename.functions renames) s.blueprint) :
    s₀.blueprint.Renamed (Rename.functions (renames ++ s.validator.jointChanges renames rest))
      ((List.range' done.length rest.length).foldl settleFunction s).blueprint := by
  induction rest generalizing done renames s with
  | nil =>
    rw [NameValidator.jointChanges, List.append_nil]
    exact h
  | cons name rest ih =>
    have hcurrent : s.blueprint.declarations.functionNames[done.length]? =
        some (followAll renames name) := by
      have hnext : s₀.blueprint.declarations.functionNames[done.length]? = some name := by
        rw [hnames]
        simp
      have hgraphs : s.blueprint.declarations.functionNames =
          s₀.blueprint.declarations.functionNames.map (followAll renames) := by
        show s.blueprint.functionGraphs.map (·.name) =
          (s₀.blueprint.functionGraphs.map (·.name)).map _
        rw [h.functions, List.map_map, List.map_map]
        refine List.map_congr_left fun g _ ↦ ?_
        exact (Rename.name_applyAll _ g).trans (Rename.graphName_functions renames g.name)
      rw [hgraphs, List.getElem?_map, hnext, Option.map_some]
    have hturn := h.trans (renamed_settleFunction hcurrent)
    rw [Rename.functions, Rename.functions, ← List.map_append] at hturn
    have hrest := ih (done ++ [name]) (by rw [hnames, List.append_cons]) hturn
    rw [(settleFunction_spec hcurrent).1, List.append_assoc, List.length_append,
      List.length_singleton] at hrest
    rw [NameValidator.jointChanges, List.length_cons, List.range'_succ, List.foldl_cons]
    exact hrest

theorem renamed_settleFunctions (s : Naming) :
    s.blueprint.Renamed (Rename.functions
      ((NameValidator.ofNames (propertyNames s.blueprint)).jointChanges []
        s.blueprint.declarations.functionNames)) s.settleFunctions.blueprint := by
  have hstart : s.blueprint.Renamed (Rename.functions [])
      { s with validator := .ofNames (propertyNames s.blueprint) }.blueprint := .refl _
  have hloop := renamed_foldl_settleFunction [] s.blueprint.declarations.functionNames rfl hstart
  have hlength : s.blueprint.declarations.functionNames.length =
      s.blueprint.functionGraphs.length := List.length_map _
  rw [List.length_nil, ← List.range_eq_range', hlength, List.nil_append] at hloop
  exact hloop

end Naming

namespace Blueprint

/-- Settling names renames members, timelines and functions.  The names of timelines follow the
changes of timelines, and the names of graphs those of function graphs. -/
theorem renamed_settleNames (b : Blueprint) (log : MessageLog) :
    let b' := (b.settleNames log).1
    let v := NameValidator.ofNames b.parentClass.memberNames
    let v' := v.reserveAll (v.settleAll b.declarations.variableNames)
    b'.declarations.timelineNames = v'.settleAll b.declarations.timelineNames ∧
      ∃ renames, b.Renamed renames b' ∧
        (∀ name, renames.foldl (fun name r ↦ r.timelineName name) name =
          followAll (v'.changes b.declarations.timelineNames) name) ∧
        ∀ name, renames.foldl (fun name r ↦ r.graphName name) name =
          followAll ((NameValidator.ofNames (Naming.propertyNames b')).jointChanges []
            b.declarations.functionNames) name := by
  intro b' v v'
  obtain ⟨hnames, before, after, hmembers⟩ := Naming.renamed_settleMembers ⟨b, v, log⟩
  have hfunctionNames := (Naming.settleMembers_spec ⟨b, v, log⟩).functionNames
  have hb' : b' = (Naming.settleMembers ⟨b, v, log⟩).settleFunctions.blueprint := rfl
  generalize Naming.settleMembers ⟨b, v, log⟩ = s at *
  have hdeclarations := (Naming.settleFunctions_spec s).declarations
  have hfunctions := Naming.renamed_settleFunctions s
  have hproperties : Naming.propertyNames s.blueprint = Naming.propertyNames b' := by
    rw [hb', propertyNames_eq, propertyNames_eq, hdeclarations]
    rfl
  rw [hproperties, hfunctionNames, ← hb'] at hfunctions
  refine ⟨?_, _, hmembers.trans hfunctions, fun name ↦ ?_, fun name ↦ ?_⟩
  · rw [hb', hdeclarations]
    exact hnames
  · rw [List.foldl_append, List.foldl_append, List.foldl_append,
      Rename.foldl_timelineName Rename.timelineName_members, Rename.timelineName_timelines,
      Rename.foldl_timelineName Rename.timelineName_members,
      Rename.foldl_timelineName Rename.timelineName_functions]
  · rw [List.foldl_append, List.foldl_append, List.foldl_append,
      Rename.foldl_graphName Rename.graphName_members,
      Rename.foldl_graphName Rename.graphName_timelines,
      Rename.foldl_graphName Rename.graphName_members, Rename.graphName_functions]

end Blueprint

/-!
## References to timelines

A node that stands for a timeline follows the renames of timelines in turn.  It stands for its
timeline under the new name unless that is the name of a timeline that is still to come: this one
is renamed as well, and takes along the nodes of both.
-/

/-! ### Names that are renamed in turn -/

namespace NameValidator

variable {v : NameValidator} {names : List String}

theorem mem_of_mem_changes {old : String} (h : old ∈ (v.changes names).map Prod.fst) :
    old ∈ names := by
  have hsublist := (v.changes_sublist names).map Prod.fst
  rw [List.map_fst_zip (Nat.le_of_eq (v.length_settleAll names).symm)] at hsublist
  exact hsublist.subset h

theorem EndsAll.validate_of_mem (h : v.EndsAll names) {new : String}
    (hnew : new ∈ v.settleAll names) : v.validate new = .ok :=
  validate_eq_ok.2 ((accepts_iff.1 h.accepts_settleAll).2 new hnew)

/-- The first declaration passes its rename on to the later ones. -/
theorem followAll_changes_cons (first name : String) :
    followAll (v.changes (first :: names)) name =
      followAll ((v.reserve (v.settled first)).changes names)
        (if name = first then v.settled first else name) := by
  rw [changes, followAll_append, Function.comp_apply]
  by_cases hok : v.validate first = .ok
  · rw [accept_of_ok hok, settled_of_ok hok]
    split
    · next heq => rw [heq]; rfl
    · rfl
  · rw [accept_of_ne hok, ← settled_of_ne hok]
    show followAll _ (NodeKind.follow first (v.settled first) name) = _
    rw [NodeKind.follow]

/-- No later declaration is settled under the name that the first one had. -/
theorem EndsAll.ne_first {first new : String} (hends : v.EndsAll (first :: names))
    (hlater : new ∈ (v.reserve (v.settled first)).settleAll names) : new ≠ first := by
  rintro rfl
  have haccepts := hends.accepts_settleAll
  by_cases hok : v.validate new = .ok
  · have hdistinct := (accepts_iff.1 haccepts).1
    rw [settleAll, settled_of_ok hok, List.map_cons, List.nodup_cons] at hdistinct
    rw [settled_of_ok hok] at hlater
    exact hdistinct.1 (List.mem_map_of_mem hlater)
  · exact hok (hends.validate_of_mem (List.mem_cons_of_mem _ hlater))

/-- A name that is in use becomes the settled name of a declaration that comes no earlier.  It is
that of its own declaration exactly if this is not the name of another one. -/
theorem exists_followAll_changes (hnodup : names.Nodup) {i : Nat} {name new : String}
    (hname : names[i]? = some name) (hnew : (v.settleAll names)[i]? = some new) :
    ∃ k, i ≤ k ∧ (v.settleAll names)[k]? = some (followAll (v.changes names) name) ∧
      (new = name ∨ new ∉ names → k = i) ∧
      (v.EndsAll names → k = i → new = name ∨ new ∉ names) := by
  induction names generalizing v i name new with
  | nil => cases hname
  | cons first names ih =>
    obtain ⟨hfirst, hnodup⟩ := List.nodup_cons.1 hnodup
    rw [followAll_changes_cons]
    rw [settleAll] at hnew ⊢
    cases i with
    | zero =>
      obtain rfl := Option.some.inj hname
      obtain rfl := Option.some.inj hnew
      rw [if_pos rfl]
      by_cases hcaught : v.settled first ∈ names
      · -- a declaration to come has the new name
        obtain ⟨m, hm⟩ := List.mem_iff_getElem?.1 hcaught
        have hm' : m < ((v.reserve (v.settled first)).settleAll names).length :=
          (length_settleAll _ _).symm ▸ (List.getElem?_eq_some_iff.1 hm).1
        obtain ⟨k, -, hk, -, -⟩ := ih hnodup hm (List.getElem?_eq_getElem hm')
        refine ⟨k + 1, Nat.zero_le _, hk, fun hfree ↦ ?_, fun _ h ↦ by cases h⟩
        rcases hfree with heq | hfree
        · exact absurd (heq ▸ hcaught) hfirst
        · exact absurd (List.mem_cons_of_mem _ hcaught) hfree
      · -- no later rename is one of it
        refine ⟨0, Nat.le_refl 0,
          congrArg some (followAll_of_notMem (hcaught ∘ mem_of_mem_changes)).symm,
          fun _ ↦ rfl, fun hends _ ↦ ?_⟩
        by_cases hok : v.validate first = .ok
        · exact .inl (settled_of_ok hok)
        · exact .inr fun hmem ↦ (List.mem_cons.1 hmem).elim (settled_ne hends.1 hok) hcaught
    | succ i =>
      rw [List.getElem?_cons_succ] at hname hnew
      have hne : name ≠ first := ne_of_mem_of_not_mem (List.mem_of_getElem? hname) hfirst
      obtain ⟨k, hik, hk, hfree, hkept⟩ := ih hnodup hname hnew
      rw [if_neg hne]
      refine ⟨k + 1, Nat.succ_le_succ hik, hk, fun h ↦ congrArg Nat.succ (hfree ?_),
        fun hends heq ↦ ?_⟩
      · exact h.imp_right fun hmem hmem' ↦ hmem (List.mem_cons_of_mem _ hmem')
      · refine (hkept hends.2 (Nat.succ.inj heq)).imp_right fun hmem hmem' ↦ ?_
        exact hmem ((List.mem_cons.1 hmem').resolve_left
          (hends.ne_first (List.mem_of_getElem? hnew)))

end NameValidator

/-! ### Nodes that stand for timelines -/

namespace Blueprint

/-- Settling names moves a node on to a timeline that comes no earlier than its own.  It stays
with its own, and names it as it is named then, if the new name is not that of another timeline,
and only then. -/
theorem timeline?_settleNames {b : Blueprint} (log : MessageLog)
    (hdistinct : b.declarations.timelineNames.Nodup) {j : Nat} {g : Graph}
    (hg : b.allGraphs[j]? = some g) {n : NodeId} (hn : n ∈ g.order) {i : Nat} {name : String}
    (hi : b.declarations.timelineNames[i]? = some name) (hname : g.timeline? n = some name) :
    let names := b.declarations.timelineNames
    let names' := (b.settleNames log).1.declarations.timelineNames
    ∃ (g' : Graph) (new : String) (k : Nat), (b.settleNames log).1.allGraphs[j]? = some g' ∧
      names'[i]? = some new ∧ i ≤ k ∧ k < names'.length ∧ g'.timeline? n = names'[k]? ∧
      (new = name ∨ new ∉ names → g'.timeline? n = some new) ∧
      (b.MembersEnd → g'.timeline? n = some new → new = name ∨ new ∉ names) := by
  intro names names'
  obtain ⟨hnames, renames, hrenamed, hfollow, -⟩ := b.renamed_settleNames log
  generalize hv : (NameValidator.ofNames b.parentClass.memberNames).reserveAll
    ((NameValidator.ofNames b.parentClass.memberNames).settleAll b.declarations.variableNames) = v
    at hnames hfollow
  change names' = v.settleAll names at hnames
  generalize names' = names' at *
  obtain ⟨new, hnew⟩ : ∃ new, names'[i]? = some new := by
    refine ⟨_, List.getElem?_eq_getElem (?_ : i < names'.length)⟩
    rw [hnames, NameValidator.length_settleAll]
    exact (List.getElem?_eq_some_iff.1 hi).1
  obtain ⟨k, hik, hk, hown, hconversely⟩ :=
    NameValidator.exists_followAll_changes hdistinct hi (hnames ▸ hnew)
  rw [← hnames] at hk
  have hlt := (List.getElem?_eq_some_iff.1 hk).1
  obtain ⟨g', hg', rfl⟩ := hrenamed.exists_getElem? hg
  have hfollowed : (Rename.applyAll renames g).timeline? n = names'[k]? := by
    rw [Rename.timeline?_applyAll renames g hn, hname, Option.map_some, hfollow]
    exact hk.symm
  refine ⟨_, new, k, hg', hnew, hik, hlt, hfollowed, fun hfree ↦ ?_, fun hends hstays ↦ ?_⟩
  · rw [hfollowed, hown hfree]
    exact hnew
  · have hends' : v.EndsAll names := by
      unfold MembersEnd at hends
      rw [Declarations.members, NameValidator.endsAll_append, NameValidator.endsAll_append,
        hv] at hends
      exact hends.1.2
    have hdistinct' : names'.Nodup := by
      rw [hnames]
      exact (NameValidator.accepts_iff.1 hends'.accepts_settleAll).1.of_map _
    refine hconversely hends' ((List.getElem?_inj hlt hdistinct').1 ?_)
    rw [← hfollowed, hstays, hnew]

/-- Timelines on a class that inherits one property named `A`, and a page that plays one. -/
def animating (names : List String) (name : String) : Blueprint :=
  { reading [] "A" with
    timelines := names.map .new
    ubergraphPages := [((Graph.empty "Page").spawn (.timeline name)).2] }

theorem timeline?_settleNames_animating :
    let b := animating ["A", "B"] "A"
    let b' := (b.settleNames {}).1
    b.declarations.timelineNames.Nodup ∧ b.MembersEnd ∧
      b'.declarations.timelineNames = ["A_1", "B"] ∧
      ∃ g g', b.allGraphs[0]? = some g ∧ b'.allGraphs[0]? = some g' ∧
        ⟨0⟩ ∈ g.order ∧ g.timeline? ⟨0⟩ = some "A" ∧ g'.timeline? ⟨0⟩ = some "A_1" := by
  intro b b'
  have hdistinct : b.declarations.timelineNames.Nodup := by decide +kernel
  have hends : b.MembersEnd := .of_length (by decide +kernel)
  have hnames : b'.declarations.timelineNames = ["A_1", "B"] := by decide +kernel
  obtain ⟨g, hg⟩ : ∃ g, b.allGraphs[0]? = some g := ⟨_, rfl⟩
  have hn : ⟨0⟩ ∈ g.order := by
    cases hg
    decide +kernel
  have hname : g.timeline? ⟨0⟩ = some "A" := by
    cases hg
    decide +kernel
  obtain ⟨g', new, k, hg', hi, -, -, -, hfree, -⟩ :=
    timeline?_settleNames (i := 0) {} hdistinct hg hn rfl hname
  rw [hnames] at hi
  cases hi
  exact ⟨hdistinct, hends, hnames, g, g', hg, hg', hn, hname, hfree (.inr (by decide +kernel))⟩

/-- Of `A` and `A_1` the first takes the name of the second, and the node that plays the first is
renamed with the second. -/
theorem not_timeline?_settleNames : ¬∀ (b : Blueprint) (log : MessageLog),
    b.declarations.timelineNames.Nodup → ∀ (j : Nat) (g g' : Graph) (n : NodeId) (name : String)
      (i : Nat), b.allGraphs[j]? = some g → (b.settleNames log).1.allGraphs[j]? = some g' →
      n ∈ g.order → g.timeline? n = some name → b.declarations.timelineNames[i]? = some name →
        g'.timeline? n = (b.settleNames log).1.declarations.timelineNames[i]? := by
  intro h
  have hall := h (animating ["A", "A_1"] "A") {} (by decide +kernel) 0 _ _ ⟨0⟩ "A" 0 rfl rfl
    (by decide +kernel) (by decide +kernel) rfl
  revert hall
  decide +kernel

end Blueprint

end VisualScript
