import VisualScript.Proofs.Names.Outcome

/-!
# Warnings about members

Every member that gets another name is reported once, and a member that is acceptable
at its turn is left alone.  After names are settled all members are, so to settle them
again touches function graphs at most.
-/

namespace VisualScript

namespace MessageLog

theorem pushAll_append (log : MessageLog) (messages messages' : List Message) :
    log.pushAll (messages ++ messages') = (log.pushAll messages).pushAll messages' :=
  List.foldl_append

end MessageLog

/-! ## Turns -/

namespace NameValidator

theorem settled_ne {v : NameValidator} {name : String} (h : v.Ends name)
    (hne : v.validate name ≠ .ok) : v.settled name ≠ name :=
  fun heq ↦ hne (heq ▸ h.validate_settled)

theorem endsAll_append {v : NameValidator} {names names' : List String} :
    v.EndsAll (names ++ names') ↔
      v.EndsAll names ∧ (v.reserveAll (v.settleAll names)).EndsAll names' := by
  induction names generalizing v with
  | nil => exact ⟨fun h ↦ ⟨trivial, h⟩, And.right⟩
  | cons name names ih =>
    rw [List.cons_append, EndsAll, EndsAll, ih, and_assoc]
    rfl

/-- If every search ends, then the changes are the names that are not as they were. -/
theorem EndsAll.changes_eq {v : NameValidator} {names : List String} (h : v.EndsAll names) :
    v.changes names = (names.zip (v.settleAll names)).filter fun e ↦ e.1 ≠ e.2 := by
  induction names generalizing v with
  | nil => rfl
  | cons name names ih =>
    rw [changes, settleAll, List.zip_cons_cons, ih h.2]
    by_cases hok : v.validate name = .ok
    · rw [settled_of_ok hok, List.filter_cons_of_neg (by simp), accept_of_ok hok]
      rfl
    · have hchanged := settled_ne h.1 hok
      rw [List.filter_cons_of_pos (by simpa using hchanged.symm), settled_of_ne hok,
        accept_of_ne hok]
      rfl

/-- A name is settled beside the settled names before it. -/
theorem getElem?_settleAll (v : NameValidator) (names : List String) (i : Nat) :
    (v.settleAll names)[i]? =
      names[i]?.map (v.reserveAll ((v.settleAll names).take i)).settled := by
  induction names generalizing v i with
  | nil => rfl
  | cons name names ih =>
    cases i with
    | zero => rfl
    | succ i =>
      rw [settleAll, List.getElem?_cons_succ, List.getElem?_cons_succ, List.take_succ_cons, ih]
      rfl

/-- A name that is acceptable at its turn stays. -/
theorem getElem?_settleAll_of_ok {v : NameValidator} {names : List String} {i : Nat}
    {name : String} (hname : names[i]? = some name)
    (hok : (v.reserveAll ((v.settleAll names).take i)).validate name = .ok) :
    (v.settleAll names)[i]? = some name := by
  rw [getElem?_settleAll, hname, Option.map_some, settled_of_ok hok]

end NameValidator

/-! ## What is reported -/

namespace Naming

/-- The warning that a member has another name now. -/
def renameWarning (token : SourceToken) (what : String) (e : String × String) : Message :=
  .warning s!"Found a {what} with a conflicting name ({e.1}) - changed to {e.2}." [token]

theorem log_reportRename (s : Naming) (what old new : String) :
    (s.reportRename what old new).log =
      s.log.pushAll [renameWarning s.blueprint.token what (old, new)] := rfl

/-- Some members of one kind took their names in turn, and each new name was reported. -/
structure Reported (what : String) (s₀ : Naming) (names : List String) (s : Naming) : Prop where
  token : s.blueprint.token = s₀.blueprint.token
  validator : s.validator = s₀.validator.reserveAll (s₀.validator.settleAll names)
  log : s.log = s₀.log.pushAll
    ((s₀.validator.changes names).map (renameWarning s₀.blueprint.token what))

theorem Reported.refl (what : String) (s : Naming) : Reported what s [] s := ⟨rfl, rfl, rfl⟩

theorem Reported.trans {what : String} {s s' s'' : Naming} {names names' : List String}
    (h : Reported what s names s') (h' : Reported what s' names' s'') :
    Reported what s (names ++ names') s'' where
  token := h'.token.trans h.token
  validator := by
    rw [h'.validator, h.validator, NameValidator.settleAll_append,
      NameValidator.reserveAll_append]
  log := by
    rw [h'.log, h.log, h.token, h.validator, ← MessageLog.pushAll_append, ← List.map_append,
      ← NameValidator.changes_append]

/-- A turn that keeps the name. -/
theorem reported_of_ok {what name : String} {s : Naming} (hok : s.validator.validate name = .ok) :
    Reported what s [name] { s with validator := s.validator.reserve name } where
  token := rfl
  validator := by rw [NameValidator.settleAll, NameValidator.settled_of_ok hok]; rfl
  log := by rw [NameValidator.changes, NameValidator.accept_of_ok hok]; rfl

/-- A turn that makes a name and reports it. -/
theorem reported_of_ne {what name : String} {s : Naming} (hne : s.validator.validate name ≠ .ok)
    {b : Blueprint} (hb : b.name = s.blueprint.name) :
    let new := s.validator.makeUnique name
    Reported what s [name] { ({ s with validator := s.validator.reserve new } : Naming).reportRename
      what name new with blueprint := b } where
  token := by rw [Blueprint.token, Blueprint.token, hb]
  validator := by rw [NameValidator.settleAll, NameValidator.settled_of_ne hne]; rfl
  log := by
    rw [NameValidator.changes, NameValidator.accept_of_ne hne]
    exact log_reportRename { s with validator := s.validator.reserve (s.validator.makeUnique name) }
      what name (s.validator.makeUnique name)

theorem reported_settleVariable {s : Naming} {i : Nat} {name : String}
    (hname : s.blueprint.declarations.variableNames[i]? = some name) :
    Reported "member variable" s [name] (s.settleVariable i) := by
  obtain ⟨var, hvar, rfl⟩ := exists_getElem?_of_map hname
  by_cases hok : s.validator.validate var.name = .ok
  · rw [settleVariable_of_ok hvar hok]
    exact reported_of_ok hok
  · unfold settleVariable
    rw [hvar]
    dsimp only
    rw [NameValidator.accept_of_ne hok]
    refine reported_of_ne hok ?_
    dsimp only
    split <;> rfl

theorem reported_settleTimeline {s : Naming} {i : Nat} {name : String}
    (hname : s.blueprint.declarations.timelineNames[i]? = some name) :
    Reported "timeline" s [name] (s.settleTimeline i) := by
  obtain ⟨timeline, htimeline, rfl⟩ := exists_getElem?_of_map hname
  by_cases hok : s.validator.validate timeline.name = .ok
  · rw [settleTimeline_of_ok htimeline hok]
    exact reported_of_ok hok
  · unfold settleTimeline
    rw [htimeline]
    dsimp only
    rw [NameValidator.accept_of_ne hok]
    exact reported_of_ne hok rfl

theorem reported_settleFunction {s : Naming} {i : Nat} {name : String}
    (hname : s.blueprint.declarations.functionNames[i]? = some name) :
    Reported "function graph" s [name] (s.settleFunction i) := by
  obtain ⟨graph, hgraph, rfl⟩ := exists_getElem?_of_map hname
  by_cases hok : s.validator.validate graph.name = .ok
  · rw [settleFunction_of_ok hgraph hok]
    exact reported_of_ok hok
  · unfold settleFunction
    rw [hgraph]
    dsimp only
    rw [NameValidator.accept_of_ne hok]
    exact reported_of_ne hok rfl

/-! ## Loops -/

theorem reported_settleVariables (s : Naming) :
    Reported "member variable" s s.blueprint.declarations.variableNames
      ((List.range s.blueprint.newVariables.length).foldl settleVariable s) :=
  settleVariables_of_turns (P := Reported "member variable" s) (.refl _ _)
    fun _ _ _ _ h hname ↦ h.trans (reported_settleVariable hname)

theorem reported_settleTimelines (s : Naming) :
    Reported "timeline" s s.blueprint.declarations.timelineNames
      ((List.range s.blueprint.timelines.length).foldl settleTimeline s) :=
  settleTimelines_of_turns (P := Reported "timeline" s) (.refl _ _)
    fun _ _ _ _ h hname ↦ h.trans (reported_settleTimeline hname)

/-- The references follow the components one after another, and each of these is reported. -/
theorem foldl_reportRename {step : Naming → String × String → Naming}
    (hstep : ∀ s e, (step s e).blueprint.token = s.blueprint.token ∧
      (step s e).log = (s.reportRename "component" e.1 e.2).log)
    (renamed : List (String × String)) (s : Naming) :
    (renamed.foldl step s).blueprint.token = s.blueprint.token ∧
      (renamed.foldl step s).log =
        s.log.pushAll (renamed.map (renameWarning s.blueprint.token "component")) := by
  induction renamed generalizing s with
  | nil => exact ⟨rfl, rfl⟩
  | cons e renamed ih =>
    obtain ⟨htoken, hlog⟩ := hstep s e
    obtain ⟨htoken', hlog'⟩ := ih (step s e)
    refine ⟨htoken'.trans htoken, hlog'.trans ?_⟩
    rw [hlog, htoken, log_reportRename, ← MessageLog.pushAll_append]
    rfl

theorem reported_settleComponents (s : Naming) :
    Reported "component" s s.blueprint.declarations.componentNames s.settleComponents := by
  have hvalidator := (settleComponents_spec s).1
  unfold settleComponents at hvalidator ⊢
  cases hscript : s.blueprint.constructionScript with
  | none =>
    rw [Blueprint.componentNames_of_none hscript]
    exact .refl _ _
  | some script =>
    have hnames := Blueprint.componentNames_of_script hscript
    have hchanged := (ComponentNode.settles_acceptAllNames s.validator script.roots).changed
    rw [hscript] at hvalidator
    dsimp only at hvalidator ⊢
    rw [← hnames] at hchanged
    rw [hchanged] at hvalidator ⊢
    refine ⟨(foldl_reportRename ?_ _ _).1, hvalidator, (foldl_reportRename ?_ _ _).2⟩ <;>
      exact fun _ _ ↦ ⟨rfl, rfl⟩

/-- Function graphs are reported one by one, under names that they may have from each other. -/
theorem reported_settleFunctions (s : Naming) : ∃ names, Reported "function graph"
    { s with validator := .ofNames (propertyNames s.blueprint) } names s.settleFunctions := by
  refine List.foldlRecOn (motive := fun s' : Naming ↦ ∃ names, Reported "function graph"
    { s with validator := .ofNames (propertyNames s.blueprint) } names s') _ _
    ⟨[], .refl _ _⟩ fun s' ⟨names, hreported⟩ i _ ↦ ?_
  cases hname : s'.blueprint.declarations.functionNames[i]? with
  | some name => exact ⟨names ++ [name], hreported.trans (reported_settleFunction hname)⟩
  | none =>
    have hnone : s'.blueprint.functionGraphs[i]? = none := by
      have hgraphs : (s'.blueprint.functionGraphs.map (·.name))[i]? = none := hname
      rwa [List.getElem?_map, Option.map_eq_none_iff] at hgraphs
    refine ⟨names, ?_⟩
    rwa [settleFunction, hnone]

end Naming

/-! ## All members -/

namespace Declarations

/-- The names that are not as they were, with those in their place. -/
def renames (names names' : List String) : List (String × String) :=
  (names.zip names').filter fun e ↦ e.1 ≠ e.2

/-- A warning for every member that has another name now. -/
def memberWarnings (token : SourceToken) (d d' : Declarations) : List Message :=
  (renames d.variableNames d'.variableNames).map (Naming.renameWarning token "member variable") ++
    (renames d.timelineNames d'.timelineNames).map (Naming.renameWarning token "timeline") ++
    (renames d.componentNames d'.componentNames).map (Naming.renameWarning token "component")

/-- The members have acceptable names beside those that are inherited and beside each other.  A
name that was acceptable at its turn is the name that it was. -/
structure MembersApart (inherited : List String) (d d' : Declarations) : Prop where
  length_variables : d'.variableNames.length = d.variableNames.length
  length_timelines : d'.timelineNames.length = d.timelineNames.length
  length_components : d'.componentNames.length = d.componentNames.length
  plain : ∀ name ∈ d'.members, Name.IsPlain name
  apart : ∀ name ∈ d'.members, Text.lowercase name ∉ inherited.map Text.lowercase
  distinct : (d'.members.map Text.lowercase).Nodup
  kept : ∀ (i : Nat) (name : String), d.members[i]? = some name → Name.IsPlain name →
    Text.lowercase name ∉ (inherited ++ d'.members.take i).map Text.lowercase →
      d'.members[i]? = some name

/-- Members that take names in turn are apart. -/
theorem membersApart_of_settleAll {inherited : List String} {d d' : Declarations}
    (hends : (NameValidator.ofNames inherited).EndsAll d.members)
    (hvariables : d'.variableNames.length = d.variableNames.length)
    (htimelines : d'.timelineNames.length = d.timelineNames.length)
    (hcomponents : d'.componentNames.length = d.componentNames.length)
    (hsettled : d'.members = (NameValidator.ofNames inherited).settleAll d.members) :
    d.MembersApart inherited d' := by
  have haccepts : (NameValidator.ofNames inherited).Accepts d'.members :=
    hsettled ▸ hends.accepts_settleAll
  obtain ⟨hdistinct, hall⟩ := NameValidator.accepts_iff.1 haccepts
  refine ⟨hvariables, htimelines, hcomponents, fun name hname ↦ (hall name hname).1,
    fun name hname ↦ ?_, hdistinct, fun i name hname hplain hfree ↦ ?_⟩
  · exact fun htaken ↦ (hall name hname).2 (NameValidator.mem_taken_ofNames.2 htaken)
  · rw [hsettled] at hfree ⊢
    refine NameValidator.getElem?_settleAll_of_ok hname
      (NameValidator.validate_eq_ok.2 ⟨hplain, fun htaken ↦ hfree ?_⟩)
    rw [NameValidator.mem_taken_reserveAll, NameValidator.mem_taken_ofNames] at htaken
    rw [List.map_append, List.mem_append]
    exact htaken.symm

end Declarations

namespace Naming

/-- Members take names by kind, and a warning is made for each that changes. -/
theorem warnings_settleMembers {s : Naming}
    (hends : s.validator.EndsAll s.blueprint.declarations.members) :
    let d := s.blueprint.declarations
    let d' := s.settleMembers.blueprint.declarations
    d'.variableNames.length = d.variableNames.length ∧
      d'.timelineNames.length = d.timelineNames.length ∧
      d'.componentNames.length = d.componentNames.length ∧
      s.settleMembers.blueprint.token = s.blueprint.token ∧
      s.settleMembers.log = s.log.pushAll (d.memberWarnings s.blueprint.token d') := by
  obtain ⟨hdeclarations₁, -⟩ := (settleVariables s).1
  have hreported₁ := reported_settleVariables s
  unfold settleMembers
  dsimp only
  generalize (List.range s.blueprint.newVariables.length).foldl settleVariable s = s₁ at *
  obtain ⟨hdeclarations₂, -⟩ := (settleTimelines s₁).1
  have hreported₂ := reported_settleTimelines s₁
  generalize (List.range s₁.blueprint.timelines.length).foldl settleTimeline s₁ = s₂ at *
  obtain ⟨-, hdeclarations₃, -⟩ := settleComponents_spec s₂
  have hreported₃ := reported_settleComponents s₂
  generalize s₂.settleComponents = s₃ at *
  obtain ⟨htoken₁, hvalidator₁, hlog₁⟩ := hreported₁
  obtain ⟨htoken₂, hvalidator₂, hlog₂⟩ := hreported₂
  obtain ⟨htoken₃, -, hlog₃⟩ := hreported₃
  rw [List.append_nil] at hdeclarations₁ hdeclarations₂
  rw [hdeclarations₁] at hdeclarations₂ hvalidator₂ hlog₂
  rw [hdeclarations₂] at hdeclarations₃ hlog₃
  rw [Declarations.members, NameValidator.endsAll_append, NameValidator.endsAll_append,
    NameValidator.settleAll_append, NameValidator.reserveAll_append, ← hvalidator₁,
    ← hvalidator₂] at hends
  obtain ⟨⟨hends₁, hends₂⟩, hends₃⟩ := hends
  rw [hends₁.changes_eq] at hlog₁
  rw [hends₂.changes_eq, htoken₁] at hlog₂
  rw [hends₃.changes_eq, htoken₂, htoken₁] at hlog₃
  rw [hdeclarations₃]
  refine ⟨NameValidator.length_settleAll _ _, NameValidator.length_settleAll _ _,
    NameValidator.length_settleAll _ _, htoken₃.trans (htoken₂.trans htoken₁), ?_⟩
  rw [hlog₃, hlog₂, hlog₁, ← MessageLog.pushAll_append, ← MessageLog.pushAll_append,
    Declarations.memberWarnings, List.append_assoc]
  rfl

end Naming

namespace Blueprint

/-- Settling names does to function graphs what it does after the members, and reports it. -/
theorem declarations_settleNames (b : Blueprint) (log : MessageLog) :
    let s := Naming.settleMembers ⟨b, .ofNames b.parentClass.memberNames, log⟩
    let b' := (b.settleNames log).1
    (∃ functionNames, b'.declarations = { s.blueprint.declarations with functionNames }) ∧
      b'.token = s.blueprint.token ∧
      ∃ functions : List (String × String), (b.settleNames log).2 =
        s.log.pushAll (functions.map (Naming.renameWarning s.blueprint.token "function graph")) := by
  intro s b'
  obtain ⟨names, htoken, -, hlog⟩ := Naming.reported_settleFunctions s
  exact ⟨⟨_, (Naming.settleFunctions_spec s).declarations⟩, htoken, _, hlog⟩

/-- Acceptable members stay as they are, and no warning is about one. -/
theorem declarations_settleNames_of_accepts {b : Blueprint}
    (h : (NameValidator.ofNames b.parentClass.memberNames).Accepts b.declarations.members)
    (log : MessageLog) :
    (b.settleNames log).1.declarations = { b.declarations with
        functionNames := (b.settleNames log).1.declarations.functionNames } ∧
      ∃ functions : List (String × String), (b.settleNames log).2 =
        log.pushAll (functions.map (Naming.renameWarning b.token "function graph")) := by
  obtain ⟨hkept, hquiet⟩ := @Naming.settleMembers_of_accepts b log _ h
  obtain ⟨⟨names, hnames⟩, -, functions, hlog⟩ := b.declarations_settleNames log
  rw [hkept] at hnames hlog
  rw [hquiet] at hlog
  refine ⟨?_, functions, hlog⟩
  rw [hnames]

/-- Unless very many names are taken, settling names makes all members acceptable in turn, leaves
those alone that are, and gives one warning for each that changes.  To settle them again changes
no member and gives no warning about one. -/
theorem members_settleNames {b : Blueprint} (log : MessageLog)
    (hbound : (NameValidator.ofNames b.parentClass.memberNames).taken.length +
      b.declarations.members.length ≤ 9999999) :
    let d := b.declarations
    let b' := (b.settleNames log).1
    let d' := b'.declarations
    let functionWarning := Naming.renameWarning b.token "function graph"
    d.MembersApart b.parentClass.memberNames d' ∧
      (∃ functions : List (String × String), (b.settleNames log).2 =
        log.pushAll (d.memberWarnings b.token d' ++ functions.map functionWarning)) ∧
      ∀ log', (b'.settleNames log').1.declarations =
          { d' with functionNames := (b'.settleNames log').1.declarations.functionNames } ∧
        ∃ functions : List (String × String),
          (b'.settleNames log').2 = log'.pushAll (functions.map functionWarning) := by
  intro d b' d' functionWarning
  have hends : (NameValidator.ofNames b.parentClass.memberNames).EndsAll d.members :=
    .of_length hbound
  obtain ⟨⟨names, hdeclarations⟩, htoken', functions, hlog⟩ := b.declarations_settleNames log
  obtain ⟨hvariables, htimelines, hcomponents, htoken, hwarnings⟩ :=
    Naming.warnings_settleMembers (s := ⟨b, .ofNames b.parentClass.memberNames, log⟩) hends
  obtain ⟨hparent, -, hmembers, -, -⟩ :=
    Naming.settleMembers_spec ⟨b, .ofNames b.parentClass.memberNames, log⟩
  generalize Naming.settleMembers ⟨b, .ofNames b.parentClass.memberNames, log⟩ = s at *
  rw [htoken] at hlog htoken'
  have hapart : d.MembersApart b.parentClass.memberNames d' := by
    refine Declarations.membersApart_of_settleAll hends ?_ ?_ ?_ ?_ <;> unfold d' b' <;>
      rw [hdeclarations]
    · exact hvariables
    · exact htimelines
    · exact hcomponents
    · exact hmembers
  refine ⟨hapart, ⟨functions, ?_⟩, fun log' ↦ ?_⟩
  · have hsame : d.memberWarnings b.token d' = d.memberWarnings b.token s.blueprint.declarations := by
      unfold d' b'
      rw [hdeclarations]
      rfl
    rw [hlog, hwarnings, hsame, MessageLog.pushAll_append]
  · have hparent' : b'.parentClass = b.parentClass :=
      (congrArg Declarations.parentClass hdeclarations).trans hparent
    unfold functionWarning
    rw [← htoken']
    refine declarations_settleNames_of_accepts ?_ log'
    rw [hparent', NameValidator.accepts_iff]
    exact ⟨hapart.distinct, fun name hname ↦ ⟨hapart.plain name hname,
      fun htaken ↦ hapart.apart name hname (NameValidator.mem_taken_ofNames.1 htaken)⟩⟩

theorem members_settleNames_reading :
    let b := reading ["A", "B", "b"] "A"
    let b' := (b.settleNames {}).1
    (NameValidator.ofNames b.parentClass.memberNames).taken.length +
        b.declarations.members.length ≤ 9999999 ∧
      b.declarations.MembersApart b.parentClass.memberNames b'.declarations ∧
      b'.declarations.members = ["A_1", "B", "b_1"] ∧ (b.settleNames {}).2.numWarnings = 2 ∧
      ∀ log', (b'.settleNames log').1.declarations = { b'.declarations with
        functionNames := (b'.settleNames log').1.declarations.functionNames } := by
  intro b b'
  have hbound : (NameValidator.ofNames b.parentClass.memberNames).taken.length +
      b.declarations.members.length ≤ 9999999 := by decide +kernel
  have hmembers : b'.declarations.members = ["A_1", "B", "b_1"] := by decide +kernel
  obtain ⟨hapart, -, hagain⟩ := members_settleNames {} hbound
  exact ⟨hbound, hapart, hmembers, by decide +kernel, fun log' ↦ (hagain log').1⟩

end Blueprint

end VisualScript
