import VisualScript.Proofs.Compile.Skeleton
import VisualScript.Proofs.Names.Outcome

/-!
# Properties beside inherited ones

A compiled class has properties for the members that its Blueprint declares and for the
nets of its event graph.  The names of members are settled beside those of the parent
class, so a property that hides an inherited one belongs to a part of a timeline or to a
net.
-/

namespace VisualScript

theorem Class.mem_memberNames_of_findProperty? {c : Class} {name : String}
    (h : (c.findProperty? name).isSome) : name ∈ c.memberNames := by
  obtain ⟨p, hp⟩ := Option.isSome_iff_exists.1 h
  obtain ⟨k, hk, hp⟩ := List.exists_of_findSome?_eq_some hp
  refine List.mem_flatMap.2 ⟨k, hk, List.mem_append_left _ ?_⟩
  exact findOwnProperty?_isSome.1 (Option.isSome_iff_exists.2 ⟨p, hp⟩)

/-! ## Terminals through the passes -/

/-- A scope gains the names of terminals at most. -/
theorem PropertyState.names_addTerms {σ : Type} [LawfulPropertyScope σ] {ts : List TermId}
    {s : PropertyState σ} {flags : PropertyFlags} {name : String}
    (h : name ∈ LawfulPropertyScope.names (s.addTerms ts flags).scope) :
    name ∈ LawfulPropertyScope.names s.scope ∨
      ∃ t ∈ ts, ∃ term, s.ctx.term? t = some term ∧ term.name = name := by
  induction ts generalizing s with
  | nil => exact .inl h
  | cons t ts ih =>
    have hadded := added_addTerm flags s t
    have hstep : s.addTerms (t :: ts) flags = (addTerm flags s t).addTerms ts flags := rfl
    rw [hstep] at h
    generalize addTerm flags s t = s' at hadded h
    rcases ih h with hold | ⟨u, hu, term, hterm, hname⟩
    · cases hadded with
      | skip => exact .inl hold
      | refuse => exact .inl hold
      | make hterm hname _ hlink =>
        refine ((LawfulPropertyScope.mem_names_link hlink name).1 hold).symm.imp_right fun heq ↦ ?_
        exact ⟨t, List.mem_cons_self, _, hterm, (heq.trans hname).symm⟩
    · obtain ⟨old, hold, hname', -⟩ := hadded.sameShape.exists_term? hterm
      exact .inr ⟨u, List.mem_cons_of_mem _ hu, old, hold, hname'.trans hname⟩

namespace FunctionState

/-- Nets stay typed. -/
theorem NodeStep.netsTyped {kinds : TermKind → Prop} {code : Prop} {n : NodeId}
    {s s' : FunctionState} (h : NodeStep kinds code n s s') (hs : s.ctx.NetsTyped) :
    s'.ctx.NetsTyped := by
  cases h with
  | push term => exact hs.pushTerm term
  | net _ hpin hterm hkind => exact hs.setNet hpin hterm hkind
  | touch t f hf => exact hs.modifyTerm t fun term ↦ (hf term).1.kind
  | _ => exact hs

/-- What a pass does to a function and the class as far as properties go: a property that it adds
is that of a net of the event graph, and the nets and their terminals stay. -/
structure Accounts (s s' : FunctionState) : Prop where
  frame : s'.cls.frame = s.cls.frame
  property : ∀ name ∈ s'.cls.propertyNames,
    name ∈ s.cls.propertyNames ∨ s'.ctx.HasTerm .eventGraphLocal name
  term : ∀ name, s.ctx.HasTerm .eventGraphLocal name → s'.ctx.HasTerm .eventGraphLocal name
  nets : s'.ctx.NetsTyped

/-- Only the code of the function is new. -/
theorem Accounts.of_code {s s' : FunctionState} (hnets : s.ctx.NetsTyped)
    (hgraph : s'.ctx.graph = s.ctx.graph) (hterms : s'.ctx.terms = s.ctx.terms)
    (hmap : s'.ctx.netMap = s.ctx.netMap) (hframe : s'.cls.frame = s.cls.frame)
    (hproperties : s'.cls.propertyNames = s.cls.propertyNames) : Accounts s s' where
  frame := hframe
  property name hname := .inl (hproperties ▸ hname)
  term name hname := by simpa only [FunctionContext.HasTerm, FunctionContext.term?, hterms] using hname
  nets := by
    simpa only [FunctionContext.NetsTyped, FunctionContext.net?, FunctionContext.term?, hgraph,
      hterms, hmap] using hnets

theorem frame_classProperties (s : FunctionState) (ts : List TermId) :
    (s.classProperties ts).scope.frame = s.cls.frame :=
  PropertyState.scope_addTerms (P := fun c : Class ↦ c.frame = s.cls.frame)
    (fun hlink hc ↦ by
      obtain ⟨-, rfl⟩ := Class.linkProperty_eq_ok hlink
      exact hc) rfl ts _

/-- The properties of the class are for the nets of the event graph. -/
theorem accounts_createProperties {s : FunctionState} {f : Function}
    (hf : s.cls.findOwnFunction? s.ctx.functionName = some f) (hs : s.Registered) :
    Accounts s s.createProperties := by
  have hshape := sameShape_createProperties s
  have hframe : s.ctx.SameShape (s.withFrame f).ctx :=
    PropertyState.sameShape_addLists s.ctx.frameLists ⟨f, s.ctx, s.log⟩
  refine ⟨?_, fun name hname ↦ ?_, fun name ↦ hshape.hasTerm.2, hshape.netsTyped hs.nets⟩
  · rw [createProperties_eq hf]
    exact frame_classProperties (s.withFrame f) s.ctx.eventGraphLocals
  · rw [hshape.hasTerm]
    rw [createProperties_eq hf] at hname
    have hnames : name ∈ s.cls.propertyNames ∨ ∃ t ∈ s.ctx.eventGraphLocals,
        ∃ term, (s.withFrame f).ctx.term? t = some term ∧ term.name = name :=
      PropertyState.names_addTerms (s := ⟨(s.withFrame f).cls, _, (s.withFrame f).log⟩) hname
    refine hnames.imp_right fun ⟨t, ht, term, hterm, heq⟩ ↦ ?_
    obtain ⟨old, hold, holdname, -⟩ := hframe.exists_term? hterm
    obtain ⟨old', hold', hkind⟩ := (hs.enlisted.mem_listOf .eventGraphLocal).1 ht
    cases hold.symm.trans hold'
    exact ⟨t, old, hold, hkind, holdname.trans heq⟩

theorem accounts_precompile (env : CompileEnv) {s : FunctionState} (hs : s.ctx.Fresh) :
    Accounts s (s.precompile env) := by
  have hnone (name : String) : ¬s.ctx.HasTerm .eventGraphLocal name := by
    rintro ⟨t, term, hterm, -⟩
    simp [FunctionContext.term?, hs.terms] at hterm
  rcases precompile_cases env s with ⟨ctx, log, hprecompile, -, -, -, hterms, hmap, -⟩ |
    ⟨entry, g, log, f, cls, flags, overridden, -, -, -, hf, hcls, hprecompile⟩
  · rw [hprecompile]
    refine ⟨rfl, fun _ ↦ .inl, fun name hname ↦ absurd hname (hnone name), fun p t ht ↦ ?_⟩
    simp [FunctionContext.net?, hmap, hs.netMap] at ht
  · let s₁ := s.created entry g log cls flags
    have hblank : s₁.ctx.Blank := ⟨hs.terms, hs.lists, hs.netMap, hs.nodeStatements, hs.failed⟩
    have hsteps := graphSteps_registered env s₁ entry
    have hregistered := registered_registered env entry hblank
    have hfname : f.name = s.ctx.functionName := congrArg Function.name hf
    have hfind : (s₁.registered env entry).cls.findOwnFunction?
        (s₁.registered env entry).ctx.functionName = some f :=
      findOwnFunction?_registered env entry (findOwnFunction?_created hfname hcls)
    obtain ⟨hframe, hproperty, -, hnets⟩ := accounts_createProperties hfind hregistered
    obtain ⟨-, hctx, hcls'⟩ := numErrors_le_checkSignature (s₁.layOut env entry) entry overridden
    obtain ⟨-, hadded⟩ := Class.addFunction_eq_ok hcls
    have hframe' : cls.frame = s.cls.frame := by
      rw [hadded]
      rfl
    have hnames : cls.propertyNames = s.cls.propertyNames := by
      rw [hadded]
      rfl
    rw [hsteps.sameFunction.cls] at hframe hproperty
    rw [hprecompile]
    refine ⟨?_, fun name hname ↦ ?_, fun name hname ↦ absurd hname (hnone name), ?_⟩
    · rw [hcls', layOut_eq, hframe]
      exact hframe'
    · rw [hcls', layOut_eq] at hname
      rw [hctx, layOut_eq, ← hnames]
      exact hproperty name hname
    · rw [hctx, layOut_eq]
      exact hnets

theorem accounts_compile (env : CompileEnv) {s : FunctionState} (hs : s.ctx.NetsTyped) :
    Accounts s (s.compile env) := by
  have hsteps := graphSteps_emitNodes env s.ctx.executionList s
  have hcls := hsteps.sameFunction.cls
  have hemitted : Accounts s (emitNodes env s.ctx.executionList s) := by
    refine ⟨by rw [hcls], fun name hname ↦ .inl (hcls ▸ hname), fun name hname ↦ ?_, ?_⟩
    · exact hsteps.keeps (P := fun t ↦ t.ctx.HasTerm .eventGraphLocal name) hname
        (·.hasTerm)
    · exact hsteps.keeps (P := fun t ↦ t.ctx.NetsTyped) hs (·.netsTyped)
  unfold compile
  split
  · exact .of_code hs rfl rfl rfl rfl rfl
  · dsimp only
    split
    · exact hemitted
    · obtain ⟨table, list, heq⟩ := (emitNodes env s.ctx.executionList s).ctx.inlinePureNodes_eq
      obtain ⟨hframe, hproperty, hterm, hnets⟩ := hemitted
      rw [heq]
      exact ⟨hframe, hproperty, hterm, hnets⟩

theorem propertyNames_finish (s : FunctionState) :
    s.finish.cls.frame = s.cls.frame ∧
      s.finish.cls.propertyNames = s.cls.propertyNames := by
  unfold finish
  dsimp only
  split <;> exact ⟨rfl, rfl⟩

theorem accounts_postcompile {s : FunctionState} (hs : s.ctx.NetsTyped) :
    Accounts s s.postcompile := by
  let ctx := if s.ctx.failed || s.ctx.flags.interfaceStub then
      { s.ctx with statements := [.ret], nodeLabels := [] }
    else s.ctx.sortForFallThrough.resolveJumps
  have hctx : ctx.graph = s.ctx.graph ∧ ctx.terms = s.ctx.terms ∧ ctx.netMap = s.ctx.netMap := by
    unfold ctx
    split
    · exact ⟨rfl, rfl, rfl⟩
    · obtain ⟨table, code, labels, heq⟩ := s.ctx.sortForFallThrough.resolveJumps_eq
      rw [heq]
      exact ⟨rfl, rfl, rfl⟩
  obtain ⟨hframe, hproperties⟩ := propertyNames_finish { s with ctx }
  obtain ⟨-, -, flags, hfinish⟩ := finish_keeps { s with ctx }
  show Accounts s { s with ctx }.finish
  refine .of_code hs ?_ ?_ ?_ hframe hproperties
  · rw [hfinish, ← hctx.1]
  · rw [hfinish, ← hctx.2.1]
  · rw [hfinish, ← hctx.2.2]

end FunctionState

/-! ## The passes -/

namespace Compilation

/-- The class has properties of these names, and of nets of functions, and no others. -/
structure Accounted (names : List String) (frame : Option Class × SubObjects)
    (contexts : List FunctionContext) (cls : Class) : Prop where
  frame : cls.frame = frame
  property : ∀ name ∈ cls.propertyNames,
    name ∈ names ∨ ∃ c ∈ contexts, c.HasTerm .eventGraphLocal name

/-- A pass that accounts for what it adds keeps the class accounted for.  Functions have `P` before
their turn and `Q` after it. -/
theorem accounted_runPass (selected : FunctionContext → Bool) (pass : FunctionState → FunctionState)
    {P Q : FunctionContext → Prop}
    (hskip : ∀ c, selected c = false → P c → Q c)
    (hrun : ∀ s : FunctionState, selected s.ctx = true → P s.ctx →
      s.Accounts (pass s) ∧ Q (pass s).ctx)
    {names : List String} {frame : Option Class × SubObjects} {c : Compilation}
    (h : Accounted names frame c.contexts c.cls) (hP : ∀ d ∈ c.contexts, P d) :
    Accounted names frame (c.runPass selected pass).contexts (c.runPass selected pass).cls ∧
      ∀ d ∈ (c.runPass selected pass).contexts, Q d := by
  let I (done rest : List FunctionContext) (cls : Class) : Prop :=
    Accounted names frame (done ++ rest) cls ∧ (∀ d ∈ done, Q d) ∧ ∀ d ∈ rest, P d
  have hskipped {done rest : List FunctionContext} {d : FunctionContext} {cls : Class}
      (hselected : selected d = false) (hI : I done (d :: rest) cls) : I (done ++ [d]) rest cls := by
    obtain ⟨haccounted, hdone, hrest⟩ := hI
    obtain ⟨hd, hrest⟩ := List.forall_mem_cons.1 hrest
    refine ⟨by rwa [List.append_assoc, List.singleton_append], ?_, hrest⟩
    exact List.forall_mem_append.2 ⟨hdone, List.forall_mem_singleton.2 (hskip d hselected hd)⟩
  have hran {done rest : List FunctionContext} {s : FunctionState}
      (hselected : selected s.ctx = true) (hI : I done (s.ctx :: rest) s.cls) :
      I (done ++ [(pass s).ctx]) rest (pass s).cls := by
    obtain ⟨⟨hframe, hproperty⟩, hdone, hrest⟩ := hI
    obtain ⟨hs, hrest⟩ := List.forall_mem_cons.1 hrest
    obtain ⟨⟨hframe', hproperty', hterm, -⟩, hQ⟩ := hrun s hselected hs
    refine ⟨⟨hframe'.trans hframe, fun name hname ↦ ?_⟩,
      List.forall_mem_append.2 ⟨hdone, List.forall_mem_singleton.2 hQ⟩, hrest⟩
    have hhere : (pass s).ctx ∈ done ++ (pass s).ctx :: rest :=
      List.mem_append_right _ List.mem_cons_self
    rw [List.append_assoc, List.singleton_append]
    rcases hproperty' name hname with hold | hnet
    · refine (hproperty name hold).imp_right fun ⟨d, hd, hnet⟩ ↦ ?_
      rcases List.mem_append.1 hd with hd | hd
      · exact ⟨d, List.mem_append_left _ hd, hnet⟩
      · rcases List.mem_cons.1 hd with rfl | hd
        · exact ⟨_, hhere, hterm name hnet⟩
        · exact ⟨d, List.mem_append_right _ (List.mem_cons_of_mem _ hd), hnet⟩
    · exact .inr ⟨_, hhere, hnet⟩
  have hall := runPass_induction (I := I) hskipped hran (c := c)
    ⟨h, fun d hd ↦ absurd hd List.not_mem_nil, hP⟩
  exact ⟨by simpa using hall.1, hall.2.1⟩

section Stages

variable {names : List String} {frame : Option Class × SubObjects}

theorem accounted_precompile (env : CompileEnv) {c : Compilation}
    (h : Accounted names frame c.contexts c.cls) (hfresh : ∀ d ∈ c.contexts, d.Fresh) :
    Accounted names frame (c.precompile env).contexts (c.precompile env).cls ∧
      ∀ d ∈ (c.precompile env).contexts, d.NetsTyped := by
  have htyped {d : FunctionContext} (hd : d.Fresh) : d.NetsTyped := fun p t ht ↦ by
    simp [FunctionContext.net?, hd.netMap] at ht
  -- all but the signatures of delegates wait for the second wave
  let Waits (d : FunctionContext) : Prop :=
    d.NetsTyped ∧ (d.isDelegateSignature = false → d.Fresh)
  obtain ⟨hdelegates, hwaiting⟩ := accounted_runPass (·.isDelegateSignature)
    (·.precompile env) (Q := Waits) (fun d _ hd ↦ ⟨htyped hd, fun _ ↦ hd⟩)
    (fun s hselected hs ↦ by
      have haccounts := s.accounts_precompile env hs
      refine ⟨haccounts, haccounts.nets, fun hnot ↦ ?_⟩
      rw [FunctionContext.isDelegateSignature, (s.precompile_keeps env).1.delegateSignatureName]
        at hnot
      exact absurd (hnot.symm.trans hselected) Bool.false_ne_true) h hfresh
  exact accounted_runPass _ _ (P := Waits) (Q := FunctionContext.NetsTyped) (fun d _ hd ↦ hd.1)
    (fun s hselected hs ↦ by
      have haccounts := s.accounts_precompile env (hs.2 (by simpa using hselected))
      exact ⟨haccounts, haccounts.nets⟩) hdelegates hwaiting

theorem accounted_patchStubs {c : Compilation} (h : Accounted names frame c.contexts c.cls)
    (htyped : ∀ d ∈ c.contexts, d.NetsTyped) :
    Accounted names frame c.patchStubs.contexts c.patchStubs.cls := by
  rw [cls_patchStubs, contexts_patchStubs]
  refine ⟨h.frame, fun name hname ↦ (h.property name hname).imp_right fun ⟨d, hd, hnet⟩ ↦ ?_⟩
  refine ⟨patchStub c.eventLabels d, List.mem_map_of_mem hd, ?_⟩
  exact (sameStorage_patchStub c.eventLabels (htyped d hd)).hasTerm_iff.2 hnet

/-- Around the functions a class gets properties for nets of the event graph only. -/
theorem accounted_compileFunctions (env : CompileEnv) {c : Compilation}
    (h : Accounted names frame [] c.cls) (hfresh : ∀ d ∈ (c.addFunctions env).contexts, d.Fresh) :
    Accounted names frame (c.compileFunctions env).contexts (c.compileFunctions env).cls := by
  have hlisted : Accounted names frame (c.addFunctions env).contexts
      (c.addFunctions env).cls := by
    rw [cls_addFunctions]
    refine ⟨h.frame, fun name hname ↦ .inl ?_⟩
    simpa using h.property name hname
  have hpass {pass : FunctionState → FunctionState}
      (hpass : ∀ s : FunctionState, s.ctx.NetsTyped → s.Accounts (pass s)) {c : Compilation}
      (h : Accounted names frame c.contexts c.cls) (htyped : ∀ d ∈ c.contexts, d.NetsTyped) :=
    accounted_runPass (fun _ ↦ true) pass (Q := FunctionContext.NetsTyped)
      (fun d _ hd ↦ hd) (fun s _ hs ↦ ⟨hpass s hs, (hpass s hs).nets⟩) h htyped
  obtain ⟨hprepared, htyped⟩ := accounted_precompile env hlisted hfresh
  obtain ⟨hcompiled, htyped⟩ : Accounted names frame
      (if env.options.isSkeletonOnly then (c.addFunctions env).precompile env
        else ((c.addFunctions env).precompile env).runPass (fun _ ↦ true) (·.compile env)).contexts
      (if env.options.isSkeletonOnly then (c.addFunctions env).precompile env
        else ((c.addFunctions env).precompile env).runPass (fun _ ↦ true) (·.compile env)).cls ∧
      ∀ d ∈ (if env.options.isSkeletonOnly then (c.addFunctions env).precompile env
        else ((c.addFunctions env).precompile env).runPass (fun _ ↦ true)
          (·.compile env)).contexts, d.NetsTyped := by
    split
    · exact ⟨hprepared, htyped⟩
    · exact hpass (fun s hs ↦ s.accounts_compile env hs) hprepared htyped
  obtain ⟨hfinished, htyped⟩ := hpass (fun s hs ↦ s.accounts_postcompile hs) hcompiled htyped
  exact accounted_patchStubs hfinished htyped

theorem accounted_finishClass (env : CompileEnv) (old : Option DefaultObject) {c : Compilation}
    (h : Accounted names frame c.contexts c.cls) :
    Accounted names frame (c.finishClass env old).contexts (c.finishClass env old).cls := by
  have hlinked := c.adds_linkedClass
  rw [(c.finishClass_keeps env old).2.2, cls_finishClass]
  refine ⟨c.frame_linkedClass.trans h.frame, fun name hname ↦ h.property name ?_⟩
  simpa using hlinked.property name hname

theorem accounted_deliver (env : CompileEnv) {c : Compilation}
    (h : Accounted names frame c.contexts c.cls) :
    Accounted names frame (c.deliver env).contexts (c.deliver env).cls := by
  have hcls : (c.deliver env).cls.frame = c.cls.frame ∧
      (c.deliver env).cls.propertyNames = c.cls.propertyNames :=
    List.foldlRecOn (motive := fun d : Class ↦ d.frame = c.cls.frame ∧
      d.propertyNames = c.cls.propertyNames) c.contexts _ ⟨rfl, rfl⟩ fun d hd ctx _ ↦ hd
  have hcontexts : (c.deliver env).contexts = c.contexts := rfl
  rw [hcontexts]
  exact ⟨hcls.1.trans h.frame, fun name hname ↦ h.property name (hcls.2 ▸ hname)⟩

end Stages

end Compilation

/-! ## The whole compile -/

namespace Blueprint

variable (b : Blueprint) (options : CompileOptions) (suffix : Bool)

/-- Every property of a compiled class was there when it was shaped or belongs to a net of the event
graph, and around its members it is as it was shaped. -/
theorem accounted_shaped :
    Compilation.Accounted (b.shaped suffix).cls.propertyNames (b.shaped suffix).cls.frame
      (b.compile options suffix).contexts (b.compile options suffix).cls := by
  have hstart : Compilation.Accounted (b.shaped suffix).cls.propertyNames
      (b.shaped suffix).cls.frame [] (b.shaped suffix).cls := ⟨rfl, fun _ ↦ .inl⟩
  have hcompiled := Compilation.accounted_compileFunctions (b.environment options) hstart
    (b.fresh_listed options suffix)
  rw [compile_eq_deliver]
  exact Compilation.accounted_deliver _ (Compilation.accounted_finishClass _ _ hcompiled)

/-- The same with the names that are declared. -/
theorem accounted_compile :
    Compilation.Accounted (ClassState.declaredNames (b.settleNames .empty).1)
      (b.shaped suffix).cls.frame (b.compile options suffix).contexts
      (b.compile options suffix).cls := by
  obtain ⟨-, -, hproperties⟩ := (b.settleNames .empty).1.freshClass_spec
  have hshaped := b.adds_shaped suffix
  obtain ⟨hframe, hproperty⟩ := b.accounted_shaped options suffix
  refine ⟨hframe, fun name hname ↦ (hproperty name hname).imp_left fun hold ↦ ?_⟩
  refine (hshaped.property name hold).resolve_left fun hfresh ↦ ?_
  rw [Class.propertyNames, hproperties] at hfresh
  cases hfresh

theorem superClass_compile : (b.compile options suffix).cls.superClass =
    some (b.settleNames .empty).1.parentClass := by
  obtain ⟨hsuper, -, -⟩ := (b.settleNames .empty).1.freshClass_spec
  have hframe := Class.superClass_of_frame (b.accounted_compile options suffix).frame
  exact hframe.trans ((b.adds_shaped suffix).superClass.trans hsuper)

/-- A declared property has the name of a member or is for a part of a timeline. -/
theorem mem_declaredNames {b : Blueprint} {name : String} (h : name ∈ ClassState.declaredNames b) :
    name ∈ b.declarations.members ∨
      ∃ t ∈ b.timelines, name = t.directionPropertyName ∨
        ∃ track ∈ t.dataTracks, name = t.trackPropertyName track.1 := by
  simp only [ClassState.declaredNames, List.mem_append, List.mem_flatMap] at h
  simp only [Declarations.members, declarations, List.mem_append]
  rcases h with (hvariable | ⟨t, ht, hmember⟩) | hcomponent
  · exact .inl (.inl (.inl hvariable))
  · rw [ClassState.timelineMembers, List.map_cons, List.map_cons, List.map_map, List.mem_cons,
      List.mem_cons, List.mem_map] at hmember
    rcases hmember with rfl | hdirection | ⟨track, htrack, rfl⟩
    · exact .inl (.inl (.inr (List.mem_map_of_mem ht)))
    · exact .inr ⟨t, ht, .inl hdirection⟩
    · exact .inr ⟨t, ht, .inr ⟨track, htrack, rfl⟩⟩
  · exact .inl (.inr hcomponent)

variable {b options suffix}

/-- A property that hides an inherited one is a part of a timeline other than its component, or
belongs to a net of the event graph: the members that an author names are apart from all that is
inherited. -/
theorem hidden_of_compile (hends : b.MembersEnd) {name : String} {parent : Class}
    (hown : name ∈ (b.compile options suffix).cls.propertyNames)
    (hparent : (b.compile options suffix).cls.superClass = some parent)
    (hinherited : (parent.findProperty? name).isSome) :
    (∃ t ∈ (b.compile options suffix).blueprint.timelines, name = t.directionPropertyName ∨
        ∃ track ∈ t.dataTracks, name = t.trackPropertyName track.1) ∨
      ∃ c ∈ (b.compile options suffix).contexts, c.HasTerm .eventGraphLocal name := by
  obtain ⟨s, hb', -, -, -, hsame, haccepts⟩ := exists_settled .empty hends
  obtain ⟨-, hproperty⟩ := b.accounted_compile options suffix
  have hsuper := b.superClass_compile options suffix
  obtain ⟨graphs, hblueprint⟩ := b.blueprint_compile options suffix
  rw [hblueprint]
  generalize (b.settleNames .empty).1 = b' at *
  refine (hproperty name hown).imp_left fun hdeclared ↦ ?_
  refine (mem_declaredNames hdeclared).resolve_left fun hmember ↦ ?_
  cases hparent.symm.trans hsuper
  obtain ⟨-, hfree⟩ := (NameValidator.accepts_iff.1 haccepts).2 name hmember
  rw [NameValidator.mem_taken_ofNames] at hfree
  exact hfree (List.mem_map_of_mem (Class.mem_memberNames_of_findProperty? hinherited))

/-- A timeline with a track, on a class that inherits a property under the name of the track's. -/
def playing : Blueprint :=
  let actor := Class.new "Actor" none
  let parent := { actor with
    own.properties := [{ name := "T_Speed", ty := .float, flags := .empty, size := 4 }] }
  { Blueprint.new "Player" parent with
    timelines := [{ TimelineTemplate.new "T" with floatTracks := ["Speed"] }] }

theorem hidden_of_compile_playing :
    let c := playing.compile .full false
    playing.MembersEnd ∧ "T_Speed" ∈ c.cls.propertyNames ∧
      c.cls.superClass = some playing.parentClass ∧
      (playing.parentClass.findProperty? "T_Speed").isSome ∧
      ((∃ t ∈ c.blueprint.timelines, "T_Speed" = t.directionPropertyName ∨
          ∃ track ∈ t.dataTracks, "T_Speed" = t.trackPropertyName track.1) ∨
        ∃ d ∈ c.contexts, d.HasTerm .eventGraphLocal "T_Speed") := by
  intro c
  have hends : playing.MembersEnd := .of_length (by decide +kernel)
  have hown : "T_Speed" ∈ c.cls.propertyNames := by decide +kernel
  have hparent : c.cls.superClass = some playing.parentClass := rfl
  have hinherited : (playing.parentClass.findProperty? "T_Speed").isSome := by decide +kernel
  exact ⟨hends, hown, hparent, hinherited, hidden_of_compile hends hown hparent hinherited⟩

/-- The property of a track hides an inherited one, and nothing is reported. -/
theorem not_apart_of_compile : ¬∀ (b : Blueprint) (options : CompileOptions) (suffix : Bool)
    (parent : Class), (b.compile options suffix).log.numErrors = 0 →
      (b.compile options suffix).cls.superClass = some parent →
      ∀ name ∈ (b.compile options suffix).cls.propertyNames,
        (parent.findProperty? name).isNone := by
  intro h
  have hnone := h playing .full false playing.parentClass (by decide +kernel) rfl "T_Speed"
    (by decide +kernel)
  revert hnone
  decide +kernel

end Blueprint

end VisualScript
