import VisualScript.Proofs.Names.Members

/-!
# Settled Blueprints

A Blueprint whose names are acceptable in turn is as it was after they are settled, and
nothing is reported.

What the names of a Blueprint are for once they are settled: a node still gets or sets
the member that it did, and the functions of the class are apart from each other and
from its properties.
-/

namespace VisualScript

/-! ## Components -/

namespace ComponentNode

mutual

theorem result_acceptNames {v : NameValidator} {node : ComponentNode}
    (h : v.Accepts (node.flatten.map (·.variableName))) : (node.acceptNames v).result = node := by
  cases node with
  | mk name componentClass children =>
    have hname : v.validate name = .ok := h.1
    have hchildren : (acceptAllNames (v.reserve name) children).result = children :=
      result_acceptAllNames h.2
    rw [acceptNames, NameValidator.accept_of_ok hname]
    dsimp only
    rw [hchildren]
    rfl

theorem result_acceptAllNames {v : NameValidator} {nodes : List ComponentNode}
    (h : v.Accepts ((flattenAll nodes).map (·.variableName))) :
    (acceptAllNames v nodes).result = nodes := by
  cases nodes with
  | nil => rfl
  | cons node nodes =>
    rw [flattenAll, List.map_append, NameValidator.accepts_append] at h
    obtain ⟨hsettled, htaken, -⟩ := settles_acceptNames v node
    have hnode : (node.acceptNames v).result = node := result_acceptNames h.1
    rw [hnode] at hsettled
    rw [← hsettled] at htaken
    have hrest : (acceptAllNames (node.acceptNames v).validator nodes).result = nodes :=
      result_acceptAllNames (htaken ▸ h.2)
    rw [acceptAllNames]
    dsimp only
    rw [hnode, hrest]

end

end ComponentNode

/-! ## Steps -/

namespace Naming

/-- A loop over acceptable names reserves them and does nothing else. -/
theorem foldl_of_accepts {step : Naming → Nat → Naming} {b : Blueprint} {log : MessageLog}
    {names : List String}
    (hstep : ∀ (v : NameValidator) (i : Nat) (name : String), names[i]? = some name →
      v.validate name = .ok → step ⟨b, v, log⟩ i = ⟨b, v.reserve name, log⟩)
    {v : NameValidator} (h : v.Accepts names) :
    (List.range names.length).foldl step ⟨b, v, log⟩ = ⟨b, v.reserveAll names, log⟩ := by
  have hloop (done rest : List String) (hnames : names = done ++ rest) (v : NameValidator)
      (hrest : v.Accepts rest) : (List.range' done.length rest.length).foldl step ⟨b, v, log⟩ =
        ⟨b, v.reserveAll rest, log⟩ := by
    induction rest generalizing done v with
    | nil => rfl
    | cons name rest ih =>
      have hname : names[done.length]? = some name := by rw [hnames]; simp
      have hnext := ih (done ++ [name]) (by rw [hnames]; simp) (v.reserve name) hrest.2
      rw [List.length_append, List.length_singleton] at hnext
      rw [List.length_cons, List.range'_succ, List.foldl_cons, hstep v _ name hname hrest.1, hnext]
      rfl
  rw [List.range_eq_range']
  exact hloop [] names rfl v h

variable {b : Blueprint} {log : MessageLog} {v : NameValidator}

theorem settleVariables_of_accepts (h : v.Accepts b.declarations.variableNames) :
    (List.range b.newVariables.length).foldl settleVariable ⟨b, v, log⟩ =
      ⟨b, v.reserveAll b.declarations.variableNames, log⟩ := by
  have hlength : b.declarations.variableNames.length = b.newVariables.length := List.length_map _
  rw [← hlength]
  refine foldl_of_accepts (fun v i name hname hok ↦ ?_) h
  obtain ⟨var, hvar, rfl⟩ := exists_getElem?_of_map hname
  exact settleVariable_of_ok hvar hok

theorem settleTimelines_of_accepts (h : v.Accepts b.declarations.timelineNames) :
    (List.range b.timelines.length).foldl settleTimeline ⟨b, v, log⟩ =
      ⟨b, v.reserveAll b.declarations.timelineNames, log⟩ := by
  have hlength : b.declarations.timelineNames.length = b.timelines.length := List.length_map _
  rw [← hlength]
  refine foldl_of_accepts (fun v i name hname hok ↦ ?_) h
  obtain ⟨timeline, htimeline, rfl⟩ := exists_getElem?_of_map hname
  exact settleTimeline_of_ok htimeline hok

theorem settleComponents_of_accepts (h : v.Accepts b.declarations.componentNames) :
    (settleComponents ⟨b, v, log⟩).blueprint = b ∧ (settleComponents ⟨b, v, log⟩).log = log := by
  unfold settleComponents
  dsimp only
  cases hscript : b.constructionScript with
  | none => exact ⟨rfl, rfl⟩
  | some script =>
    rw [Blueprint.componentNames_of_script hscript] at h
    obtain ⟨-, -, hchanged⟩ := ComponentNode.settles_acceptAllNames v script.roots
    dsimp only
    rw [hchanged, NameValidator.changes_of_accepts h, ComponentNode.result_acceptAllNames h,
      ← hscript]
    exact ⟨rfl, rfl⟩

/-- Members with acceptable names keep them. -/
theorem settleMembers_of_accepts (h : v.Accepts b.declarations.members) :
    (settleMembers ⟨b, v, log⟩).blueprint = b ∧ (settleMembers ⟨b, v, log⟩).log = log := by
  rw [Declarations.members, NameValidator.accepts_append, NameValidator.accepts_append,
    NameValidator.reserveAll_append] at h
  obtain ⟨⟨hvariables, htimelines⟩, hcomponents⟩ := h
  unfold settleMembers
  dsimp only
  rw [settleVariables_of_accepts hvariables]
  dsimp only
  rw [settleTimelines_of_accepts htimelines]
  exact settleComponents_of_accepts hcomponents

/-- Functions with acceptable names keep them. -/
theorem settleFunctions_of_accepts
    (h : (NameValidator.ofNames (propertyNames b)).Accepts b.declarations.functionNames) :
    (settleFunctions ⟨b, v, log⟩).blueprint = b ∧ (settleFunctions ⟨b, v, log⟩).log = log := by
  have hlength : b.declarations.functionNames.length = b.functionGraphs.length := List.length_map _
  have hstep (v : NameValidator) (i : Nat) (name : String)
      (hname : b.declarations.functionNames[i]? = some name) (hok : v.validate name = .ok) :
      settleFunction ⟨b, v, log⟩ i = ⟨b, v.reserve name, log⟩ := by
    obtain ⟨graph, hgraph, rfl⟩ := exists_getElem?_of_map hname
    exact settleFunction_of_ok hgraph hok
  unfold settleFunctions
  dsimp only
  rw [← hlength, foldl_of_accepts hstep h]
  exact ⟨rfl, rfl⟩

end Naming

namespace Blueprint

/-! ## References -/

theorem exists_of_redirects {f : String → String} {b b' : Blueprint} (h : Redirects f b b')
    {j : Nat} {g : Graph} (hg : b.allGraphs[j]? = some g) :
    ∃ g', b'.allGraphs[j]? = some g' ∧ Graph.Redirects f g g' := by
  obtain ⟨hj, rfl⟩ := List.getElem?_eq_some_iff.1 hg
  have hj' : j < b'.allGraphs.length := h.length_eq ▸ hj
  exact ⟨b'.allGraphs[j], List.getElem?_eq_getElem hj', h.get hj hj'⟩

/-- Nodes follow renames of members, each made of the old and the new name of one. -/
theorem exists_renames_settleNames (b : Blueprint) (log : MessageLog) :
    let d := b.declarations
    let d' := (b.settleNames log).1.declarations
    d'.referable.length = d.referable.length ∧
      ∃ renames, b.Redirects (followAll renames) (b.settleNames log).1 ∧
        renames.Sublist (d.referable.zip d'.referable) ∧
        ∀ (i : Nat) (old new : String), d.referable[i]? = some old →
          d'.referable[i]? = some new → new ≠ old →
          (∀ k : Nat, k ≠ i → d.referable[k]? ≠ some old ∧ d'.referable[k]? ≠ some old) →
            (old, new) ∈ renames := by
  intro d d'
  obtain ⟨-, -, -, hlength, renames, hredirects, hsublist, hcomplete⟩ :=
    Naming.settleMembers_spec ⟨b, .ofNames b.parentClass.memberNames, log⟩
  have hfunctions := Naming.settleFunctions_spec
    (Naming.settleMembers ⟨b, .ofNames b.parentClass.memberNames, log⟩)
  have hsame : d'.referable = (Naming.settleMembers
      ⟨b, .ofNames b.parentClass.memberNames, log⟩).blueprint.declarations.referable := by
    show (Naming.settleFunctions _).blueprint.declarations.referable = _
    rw [hfunctions.declarations]
    rfl
  rw [← hsame] at hlength hsublist hcomplete
  exact ⟨hlength, renames, hredirects.trans hfunctions.redirects, hsublist, hcomplete⟩

/-- Settling names keeps what references mean.  A node that gets or sets a variable or a component
names it afterwards, unless its new name is the old name of another one or its old name is the new
name of another one.  A node keeps the name of a local variable if the members that have that name
keep it. -/
theorem member?_settleNames {b : Blueprint} (log : MessageLog)
    (hdistinct : b.declarations.referable.Nodup) {j : Nat} {g : Graph}
    (hg : b.allGraphs[j]? = some g) {n : NodeId} (hn : n ∈ g.order) {name : String}
    (hname : g.member? n = some name) :
    let members := b.declarations.referable
    let members' := (b.settleNames log).1.declarations.referable
    ∃ g', (b.settleNames log).1.allGraphs[j]? = some g' ∧ g'.localNames = g.localNames ∧
      (name ∉ g.localNames → ∀ i : Nat, members[i]? = some name → ∃ new, members'[i]? = some new ∧
        ((new = name ∨ new ∉ members) → (∀ k : Nat, k ≠ i → members'[k]? ≠ some name) →
          g'.member? n = some new)) ∧
      (name ∈ g.localNames → (∀ i : Nat, members[i]? = some name → members'[i]? = some name) →
        g'.member? n = some name) := by
  intro members members'
  obtain ⟨hlength, renames, hredirects, hsublist, hcomplete⟩ := b.exists_renames_settleNames log
  obtain ⟨g', hg', hgraph⟩ := exists_of_redirects hredirects hg
  have hmember : g'.member? n = some (followAll renames name) := by
    rw [hgraph.member n hn, hname, Option.map_some]
  have hindex {e : String × String} (he : e ∈ renames) :
      ∃ i : Nat, members[i]? = some e.1 ∧ members'[i]? = some e.2 := by
    obtain ⟨i, hi⟩ := List.mem_iff_getElem?.1 (hsublist.subset he)
    exact ⟨i, List.getElem?_zip_eq_some.1 hi⟩
  have honce : (renames.map Prod.fst).Nodup := by
    have hfirst := hsublist.map Prod.fst
    rw [List.map_fst_zip (Nat.le_of_eq hlength.symm)] at hfirst
    exact hdistinct.sublist hfirst
  have hunique {i k : Nat} (hi : members[i]? = some name) (hk : members[k]? = some name) :
      k = i := by
    have hlt := (List.getElem?_eq_some_iff.1 hk).1
    exact (List.getElem?_inj hlt hdistinct).1 (hk.trans hi.symm)
  refine ⟨g', hg', hgraph.locals, fun _ i hi ↦ ?_, fun _ hkept ↦ ?_⟩
  · have hi' : i < members'.length := hlength ▸ (List.getElem?_eq_some_iff.1 hi).1
    refine ⟨members'[i], List.getElem?_eq_getElem hi', fun hfresh hothers ↦ ?_⟩
    rw [hmember]
    by_cases hsame : members'[i] = name
    · rw [hsame]
      refine congrArg some (followAll_of_kept fun e he heq ↦ ?_)
      obtain ⟨k, hk, hk'⟩ := hindex he
      obtain rfl := hunique hi (heq ▸ hk)
      rw [List.getElem?_eq_getElem hi'] at hk'
      exact (Option.some.inj hk').symm.trans hsame
    · have hnew : members'[i] ∉ members := hfresh.resolve_left hsame
      refine congrArg some (followAll_of_mem honce (hcomplete i name _ hi
        (List.getElem?_eq_getElem hi') hsame fun k hk ↦ ⟨fun hother ↦ hk (hunique hi hother),
          hothers k hk⟩) (.inr fun hmem ↦ hnew ?_))
      obtain ⟨e, he, heq⟩ := List.mem_map.1 hmem
      obtain ⟨k, hk, -⟩ := hindex he
      exact heq ▸ List.mem_of_getElem? hk
  · rw [hmember]
    refine congrArg some (followAll_of_kept fun e he heq ↦ ?_)
    obtain ⟨k, hk, hk'⟩ := hindex he
    rw [hkept k (heq ▸ hk)] at hk'
    exact (Option.some.inj hk').symm

/-- Variables on a class that inherits one named `A`, and a function that gets one of them. -/
def reading (names : List String) (name : String) : Blueprint :=
  let actor := Class.new "Actor" none
  let parent := { actor with
    own.properties := [{ name := "A", ty := .int, flags := .empty, size := 4 }] }
  let get := ((Graph.empty "F").spawn (.functionEntry {})).2.spawn
    (.variableGet (.selfMember name .int))
  { Blueprint.new "Reader" parent with
    newVariables := names.map (.new · .int)
    functionGraphs := [get.2] }

theorem member?_settleNames_reading :
    let b := reading ["A"] "A"
    b.declarations.referable.Nodup ∧
      (b.settleNames {}).1.declarations.referable = ["A_1"] ∧
      ∃ g g', b.allGraphs[0]? = some g ∧ (b.settleNames {}).1.allGraphs[0]? = some g' ∧
        ⟨1⟩ ∈ g.order ∧ g.member? ⟨1⟩ = some "A" ∧ g'.member? ⟨1⟩ = some "A_1" := by
  intro b
  have hdistinct : b.declarations.referable.Nodup := by decide +kernel
  have hnew : (b.settleNames {}).1.declarations.referable = ["A_1"] := by decide +kernel
  obtain ⟨g, hg⟩ : ∃ g, b.allGraphs[0]? = some g := ⟨_, rfl⟩
  have hn : ⟨1⟩ ∈ g.order := by
    cases hg
    decide +kernel
  have hname : g.member? ⟨1⟩ = some "A" := by
    cases hg
    decide +kernel
  have hlocal : "A" ∉ g.localNames := by
    cases hg
    decide +kernel
  obtain ⟨g', hg', -, hfollow, -⟩ := member?_settleNames {} hdistinct hg hn hname
  obtain ⟨new, hi, hmember⟩ := hfollow hlocal 0 rfl
  rw [hnew] at hi
  cases hi
  refine ⟨hdistinct, hnew, g, g', hg, hg', hn, hname, hmember (.inr (by decide)) fun k hk ↦ ?_⟩
  rw [hnew]
  cases k with
  | zero => exact absurd rfl hk
  | succ k => exact (List.getElem?_cons_succ ..).trans_ne (by simp)

/-- Of `A` and `A_1` the first takes the name of the second, and the nodes that get the second now
get the first. -/
theorem not_member?_settleNames : ¬∀ (b : Blueprint) (log : MessageLog),
    b.declarations.referable.Nodup → ∀ (j : Nat) (g g' : Graph) (n : NodeId) (name : String)
      (i : Nat), b.allGraphs[j]? = some g → (b.settleNames log).1.allGraphs[j]? = some g' →
      n ∈ g.order → g.member? n = some name → name ∉ g.localNames →
      b.declarations.referable[i]? = some name →
        g'.member? n = (b.settleNames log).1.declarations.referable[i]? := by
  intro h
  have hall := h (reading ["A", "A_1"] "A_1") {} (by decide +kernel) 0 _ _ ⟨1⟩ "A_1" 1 rfl rfl
    (by decide +kernel) (by decide +kernel) (by decide +kernel) rfl
  revert hall
  decide +kernel

/-! ## Functions -/

theorem propertyNames_eq (b : Blueprint) : Naming.propertyNames b =
    b.declarations.parentClass.hierarchy.flatMap (fun c ↦ c.own.properties.map (·.name)) ++
      b.declarations.members := by
  unfold Naming.propertyNames Declarations.members
  rw [List.append_assoc, List.append_assoc, List.append_assoc]
  rfl

theorem length_propertyNames_le (b : Blueprint) : (Naming.propertyNames b).length ≤
    b.declarations.parentClass.memberNames.length + b.declarations.members.length := by
  rw [propertyNames_eq, List.length_append]
  refine Nat.add_le_add_right ?_ _
  unfold Class.memberNames
  induction b.declarations.parentClass.hierarchy with
  | nil => exact Nat.le_refl _
  | cons c ancestors ih =>
    rw [List.flatMap_cons, List.flatMap_cons, List.length_append, List.length_append,
      List.length_append]
    omega

/-- The search for a name ends for every member of the Blueprint. -/
def MembersEnd (b : Blueprint) : Prop :=
  (NameValidator.ofNames b.parentClass.memberNames).EndsAll b.declarations.members

/-- There is room for numbered names unless very many are taken. -/
theorem MembersEnd.of_length {b : Blueprint}
    (hbound : b.parentClass.memberNames.length + b.declarations.members.length ≤ 9999999) :
    b.MembersEnd := by
  have htaken := NameValidator.length_taken_ofNames_le b.parentClass.memberNames
  exact NameValidator.EndsAll.of_length (by omega)

/-- What settling does to the members and then to the functions of a Blueprint. -/
theorem exists_settled {b : Blueprint} (log : MessageLog) (hends : b.MembersEnd) :
    let b' := (b.settleNames log).1
    ∃ s : Naming, s.settleFunctions.blueprint = b' ∧
      Naming.propertyNames s.blueprint = Naming.propertyNames b' ∧
      s.blueprint.declarations.functionNames = b.declarations.functionNames ∧
      (Naming.propertyNames b').length ≤
        b.parentClass.memberNames.length + b.declarations.members.length ∧
      b'.parentClass = b.parentClass ∧
      (NameValidator.ofNames b'.parentClass.memberNames).Accepts b'.declarations.members := by
  intro b'
  have hmembers := Naming.settleMembers_spec ⟨b, .ofNames b.parentClass.memberNames, log⟩
  have hfunctions := Naming.settleFunctions_spec
    (Naming.settleMembers ⟨b, .ofNames b.parentClass.memberNames, log⟩)
  have hb' : (Naming.settleFunctions (Naming.settleMembers
      ⟨b, .ofNames b.parentClass.memberNames, log⟩)).blueprint = b' := rfl
  generalize Naming.settleMembers ⟨b, .ofNames b.parentClass.memberNames, log⟩ = s at *
  have hdeclarations := hfunctions.declarations
  rw [hb'] at hdeclarations
  have hparent : b'.parentClass = b.parentClass :=
    (congrArg Declarations.parentClass hdeclarations).trans hmembers.parentClass
  have hall : b'.declarations.members =
      (NameValidator.ofNames b.parentClass.memberNames).settleAll b.declarations.members := by
    rw [← hmembers.members, hdeclarations]
    rfl
  refine ⟨s, hb', ?_, hmembers.functionNames, ?_, hparent, ?_⟩
  · rw [propertyNames_eq, propertyNames_eq, hdeclarations]
    rfl
  · have hle := b'.length_propertyNames_le
    rw [hall, NameValidator.length_settleAll] at hle
    exact hparent ▸ hle
  · rw [hall, hparent]
    exact hends.accepts_settleAll

/-- A Blueprint with acceptable names is as it was. -/
theorem settleNames_of_accepts {b : Blueprint} {log : MessageLog}
    (hmembers : (NameValidator.ofNames b.parentClass.memberNames).Accepts b.declarations.members)
    (hfunctions : (NameValidator.ofNames (Naming.propertyNames b)).Accepts
      b.declarations.functionNames) : b.settleNames log = (b, log) := by
  have hkept := @Naming.settleMembers_of_accepts b log _ hmembers
  unfold settleNames
  dsimp only
  generalize Naming.settleMembers ⟨b, .ofNames b.parentClass.memberNames, log⟩ = s at *
  obtain ⟨b', v, log'⟩ := s
  obtain ⟨rfl, rfl⟩ : b' = b ∧ log' = log := hkept
  have hkept' := @Naming.settleFunctions_of_accepts b' log' v hfunctions
  exact Prod.ext hkept'.1 hkept'.2

/-- Settled names of functions are apart from those of all properties.  If no two function graphs
have one name, and none that is renamed takes the name of another, then they are apart from each
other as well and to settle them once more changes and reports nothing. -/
theorem functionNames_settleNames {b : Blueprint} (log : MessageLog)
    (hbound : b.parentClass.memberNames.length + b.declarations.members.length +
      b.declarations.functionNames.length ≤ 9999999) :
    let names := b.declarations.functionNames
    let b' := (b.settleNames log).1
    (∀ name ∈ b'.declarations.functionNames,
        Text.lowercase name ∉ (Naming.propertyNames b').map Text.lowercase) ∧
      (names.Nodup → (∀ e ∈ (NameValidator.ofNames (Naming.propertyNames b')).changes names,
          e.2 ∉ names) → (b'.declarations.functionNames.map Text.lowercase).Nodup ∧
        ∀ log', b'.settleNames log' = (b', log')) := by
  obtain ⟨s, hb', hproperties, hnames, hlength, hparent, hmembers⟩ := exists_settled log
    (MembersEnd.of_length (b := b) (by omega))
  dsimp only
  generalize (b.settleNames log).1 = b' at *
  have htaken := NameValidator.length_taken_ofNames_le (Naming.propertyNames b')
  constructor
  · intro name hname
    have hfunctions := Naming.settleFunctions_spec s
    obtain ⟨j, hj⟩ := List.mem_iff_getElem?.1 hname
    have hlt : j < s.blueprint.declarations.functionNames.length := by
      rw [← hfunctions.length, hb']
      exact (List.getElem?_eq_some_iff.1 hj).1
    have hroom : (NameValidator.ofNames (Naming.propertyNames s.blueprint)).taken.length +
        s.blueprint.declarations.functionNames.length ≤ 9999999 := by
      rw [hproperties, hnames]
      omega
    have hvalid := hfunctions.valid hroom j name hlt (hb' ▸ hj)
    rw [hproperties, NameValidator.validate_eq_ok, NameValidator.mem_taken_ofNames] at hvalid
    exact hvalid.2
  · intro hnodup hfresh
    have hsettled := Naming.functionNames_settleFunctions (s := s) (hnames ▸ hnodup)
      (by rw [hproperties, hnames]; exact hfresh)
    rw [hb', hproperties, hnames] at hsettled
    have haccepts : (NameValidator.ofNames (Naming.propertyNames b')).Accepts
        b'.declarations.functionNames := by
      rw [hsettled]
      exact (NameValidator.EndsAll.of_length (by omega)).accepts_settleAll
    refine ⟨(NameValidator.accepts_iff.1 haccepts).1, fun log' ↦ ?_⟩
    exact settleNames_of_accepts hmembers haccepts

/-- Empty function graphs on a class that inherits a property named `A`. -/
def calling (names : List String) : Blueprint :=
  { reading [] "A" with functionGraphs := names.map Graph.empty }

theorem functionNames_settleNames_calling :
    let b := calling ["a", "B"]
    let b' := (b.settleNames {}).1
    b.parentClass.memberNames.length + b.declarations.members.length +
        b.declarations.functionNames.length ≤ 9999999 ∧
      b.declarations.functionNames.Nodup ∧ b'.declarations.functionNames = ["a_1", "B"] ∧
      (b'.declarations.functionNames.map Text.lowercase).Nodup ∧
      ∀ log', b'.settleNames log' = (b', log') := by
  intro b b'
  have hbound : b.parentClass.memberNames.length + b.declarations.members.length +
      b.declarations.functionNames.length ≤ 9999999 := by decide +kernel
  have hnodup : b.declarations.functionNames.Nodup := by decide +kernel
  have hfresh : ∀ e ∈ (NameValidator.ofNames (Naming.propertyNames b')).changes
      b.declarations.functionNames, e.2 ∉ b.declarations.functionNames := by decide +kernel
  have hnames : b'.declarations.functionNames = ["a_1", "B"] := by decide +kernel
  exact ⟨hbound, hnodup, hnames, (functionNames_settleNames {} hbound).2 hnodup hfresh⟩

/-- Two function graphs of one name get one new name together, and another one every time. -/
theorem not_nodup_settleNames :
    let b' := ((calling ["B", "B"]).settleNames {}).1
    ¬(b'.declarations.functionNames.map Text.lowercase).Nodup ∧
      (b'.settleNames {}).1.declarations.functionNames ≠ b'.declarations.functionNames := by
  decide +kernel

end Blueprint

end VisualScript
