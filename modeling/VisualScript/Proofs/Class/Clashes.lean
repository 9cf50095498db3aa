import VisualScript.Proofs.Class.Inheritance
import VisualScript.Proofs.Compile.Listing
import VisualScript.Proofs.Compile.Origins
import VisualScript.Proofs.Compile.Overriding

/-!
# Functions beside properties

A function is checked against the properties of the class when it is created.  From then on
only the nets of the event graph get properties, and only signatures of delegates are on the
class before these.  So no function has the name of a property that is declared or inherited,
and of a net only the signature of a delegate can have the name.
-/

namespace VisualScript

/-! ## Names of nets -/

namespace NetNameMap

/-- How the name of the event graph begins. -/
def ubergraphStem : List Char := "ExecuteUbergraph_".toList

/-- No text that begins so begins like the name of the event graph. -/
def Diverges (l : List Char) : Prop := ¬l <+: ubergraphStem ∧ ¬ubergraphStem <+: l

instance (l : List Char) : Decidable (Diverges l) :=
  inferInstanceAs (Decidable (¬l <+: ubergraphStem ∧ ¬ubergraphStem <+: l))

theorem Diverges.ne_append {l text rest : List Char} (h : Diverges l) (hl : l <+: text) :
    text ≠ ubergraphStem ++ rest := by
  rintro rfl
  exact (List.prefix_or_prefix_of_prefix hl (List.prefix_append _ _)).elim h.1 h.2

/-- Cleaning and cutting keep the beginning of a text. -/
theorem prefix_sanitize {a b : String} (hne : a.toList ≠ [])
    (hlength : a.toList.length ≤ Name.maxBaseLength) :
    Name.cleanChars a.toList <+: (Name.sanitize (a ++ b)).toList := by
  have hclean : Name.cleanChars (a ++ b).toList =
      Name.cleanChars a.toList ++ Name.cleanChars b.toList := by
    simp [Name.cleanChars]
  have hne' : Name.cleanChars (a ++ b).toList ≠ [] := by
    rw [hclean]
    exact List.append_ne_nil_of_left_ne_nil (mt List.map_eq_nil_iff.1 hne) _
  have hlength' : (Name.cleanChars a.toList).length ≤ Name.maxBaseLength := by
    simpa [Name.cleanChars] using hlength
  unfold Name.sanitize
  dsimp only
  rw [if_neg (mt List.isEmpty_iff.1 hne'), String.toList_ofList, hclean, List.take_append,
    List.take_of_length_le hlength']
  exact List.prefix_append _ _

/-- The name of a net begins with the kind of its node. -/
theorem exists_diverges_baseName (g : Graph) (p : PinId) :
    ∃ l, Diverges l ∧ l <+: (baseName g p).toList := by
  unfold baseName
  cases g.pin? p with
  | none => exact ⟨"Net_".toList, by decide, by simp⟩
  | some pin =>
    let tag := ((g.kind? pin.owner).map (·.tag.name)).getD ""
    have htag : Diverges (Name.cleanChars (tag ++ "_").toList) ∧ (tag ++ "_").toList ≠ [] ∧
        (tag ++ "_").toList.length ≤ Name.maxBaseLength := by
      unfold tag
      cases g.kind? pin.owner with
      | none => decide
      | some kind =>
        rw [Option.map_some, Option.getD_some]
        cases kind.tag <;> decide
    obtain ⟨hdiverges, hne, hlength⟩ := htag
    refine ⟨_, hdiverges, ?_⟩
    have hname : tag ++ "_" ++ toString pin.owner.index ++ "_" ++ pin.name =
        tag ++ "_" ++ (toString pin.owner.index ++ "_" ++ pin.name) := by
      simp only [String.append_assoc]
    show _ <+: (Name.sanitize (tag ++ "_" ++ toString pin.owner.index ++ "_" ++ pin.name)).toList
    rw [hname]
    exact prefix_sanitize hne hlength

theorem Made.ne_ubergraphFunctionName {name : String} (h : Made name) (schema : Schema) :
    name ≠ schema.ubergraphFunctionName := by
  obtain ⟨g, p, hname⟩ := h
  obtain ⟨l, hdiverges, hl⟩ := exists_diverges_baseName g p
  have hl' : l <+: name.toList := by
    rcases hname with rfl | ⟨k, rfl⟩
    · exact hl
    · rw [String.toList_append, String.toList_append, List.append_assoc]
      exact hl.trans (List.prefix_append _ _)
  intro heq
  have hstem : schema.ubergraphFunctionName.toList =
      ubergraphStem ++ schema.blueprintName.toList := String.toList_append
  exact hdiverges.ne_append hl' ((congrArg String.toList heq).trans hstem)

/-- Every net has a name that is made for a pin. -/
def AllMade (m : NetNameMap) : Prop := ∀ p name, m.get? p = some name → Made name

theorem AllMade.of_extends {m m' : NetNameMap} (h : m.AllMade) (hext : m.Extends m') : m'.AllMade :=
  fun p name hname ↦ (hext.made p name hname).elim (h p name) id

end NetNameMap

/-! ## Preparing -/

namespace FunctionState

open NetNameMap (Made)

/-- What is kept on the class is for nets of the event graph, under names that are made for them. -/
structure StoresNets (s : FunctionState) : Prop where
  names : s.classNetNames.AllMade
  terms : ∀ name, s.ctx.HasTerm .eventGraphLocal name → s.ctx.isEventGraph = true ∧ Made name

theorem NodeStep.storesNets {kinds : TermKind → Prop} {code : Prop} {n : NodeId}
    {s s' : FunctionState} (h : NodeStep kinds code n s s') (hs : s.StoresNets) :
    s'.StoresNets := by
  have hgraph : s'.ctx.isEventGraph = s.ctx.isEventGraph :=
    congrArg ContextFlags.eventGraph h.sameFunction.flags
  obtain ⟨hnames, hterms⟩ := hs
  rw [← hgraph] at hterms
  cases h with
  | names onClass inFrame hext =>
    exact ⟨hnames.of_extends hext, hterms⟩
  | push term _ hadmits =>
    refine ⟨hnames, fun name ⟨t, old, hold, hkind, hname⟩ ↦ ?_⟩
    rw [FunctionContext.term?_pushTerm] at hold
    split at hold
    · cases hold
      obtain ⟨hevents, p, hp⟩ := hadmits.stored hkind
      exact ⟨hgraph.trans hevents, hname ▸ hnames p _ hp⟩
    · exact hterms name ⟨t, old, hold, hkind, hname⟩
  | touch u f hf =>
    refine ⟨hnames, fun name ⟨t, term, hterm, hkind, hname⟩ ↦ hterms name ?_⟩
    rw [FunctionContext.term?_modifyTerm] at hterm
    split at hterm
    · obtain ⟨old, hold, rfl⟩ := Option.map_eq_some_iff.1 hterm
      exact ⟨t, old, hold, (hf old).1.kind.symm.trans hkind, (hf old).1.name.symm.trans hname⟩
    · exact ⟨t, term, hterm, hkind, hname⟩
  | _ => exact ⟨hnames, hterms⟩

theorem storesNets_precompile (env : CompileEnv) {s : FunctionState} (hfresh : s.ctx.Fresh)
    (hnames : s.classNetNames.AllMade) :
    (s.precompile env).StoresNets := by
  have hnone {c : FunctionContext} (hc : c.terms = []) (name : String) :
      ¬c.HasTerm .eventGraphLocal name := by
    rintro ⟨t, term, hterm, -⟩
    simp [FunctionContext.term?, hc] at hterm
  rcases precompile_cases env s with ⟨ctx, log, hs, -, -, -, hterms, -⟩ |
    ⟨entry, g, log, f, cls, flags, overridden, -, -, -, -, -, hs⟩
  · rw [hs]
    exact ⟨hnames, fun name hname ↦ absurd hname (hnone (hterms.trans hfresh.terms) name)⟩
  · let s₁ := s.created entry g log cls flags
    obtain ⟨hnames', hterms'⟩ : (s₁.registered env entry).StoresNets :=
      (graphSteps_registered env s₁ entry).keeps
        ⟨hnames, fun name hname ↦ absurd hname (hnone hfresh.terms name)⟩
        fun hstep ht ↦ hstep.storesNets ht
    have hshape := sameShape_createProperties (s₁.registered env entry)
    obtain ⟨-, hctx, -⟩ := numErrors_le_checkSignature (s₁.layOut env entry) entry overridden
    rw [hs]
    refine ⟨?_, ?_⟩
    · rw [classNetNames_checkSignature, layOut_eq, classNetNames_createProperties]
      exact hnames'
    · rw [hctx, layOut_eq]
      intro name hname
      rw [hshape.hasTerm] at hname
      rw [FunctionContext.isEventGraph, hshape.eq]
      exact hterms' name hname

theorem findProperty?_of_creationFault? {s : FunctionState}
    {overridden : Option (String × Function)} (h : s.creationFault? overridden = none) :
    s.cls.findProperty? s.ctx.functionName = none := by
  unfold creationFault? at h
  dsimp only at h
  split at h
  · cases h
  · split at h
    · cases h
    · next hfree => simpa using hfree

/-- Only a function that shares its name with no property of the class gets there. -/
theorem cls_precompile_or_free (env : CompileEnv) (s : FunctionState) :
    (s.precompile env).cls = s.cls ∨ s.cls.findProperty? s.ctx.functionName = none := by
  rcases precompile_cases env s with ⟨ctx, log, hs, -⟩ |
    ⟨entry, g, log, -, -, -, -, hentry, hsimplify, -⟩
  · exact .inl (by rw [hs])
  · rcases createFunction_cases (s.simplifyGraph env entry) entry with
      ⟨text, tokens, hcreate⟩ | ⟨f, cls, flags, -, -, hcreate⟩
    · rw [precompile_of_findEntry env hentry hcreate, hsimplify]
      exact .inl rfl
    · have hfree := findProperty?_of_creationFault? (createFunction_eq_some hcreate).2
      rw [hsimplify] at hfree
      exact .inr hfree

/-- A function that is new on the class had no property of its name there. -/
theorem mem_functionNames_precompile (env : CompileEnv) {s : FunctionState} {name : String}
    (h : name ∈ (s.precompile env).cls.functionNames) : name ∈ s.cls.functionNames ∨
      name = s.ctx.functionName ∧ s.cls.findProperty? name = none := by
  rcases cls_precompile_or_free env s with hcls | hfree
  · exact .inl (hcls ▸ h)
  · rcases functionNames_precompile env s with hsame | ⟨-, hadded⟩
    · exact .inl (hsame ▸ h)
    · rw [hadded, List.mem_append, List.mem_singleton] at h
      exact h.imp_right fun hname ↦ ⟨hname, hname ▸ hfree⟩

/-- A property that is new on the class is for a net of the event graph. -/
theorem findProperty?_precompile (env : CompileEnv) {s : FunctionState} (hfresh : s.ctx.Fresh)
    (hnames : s.classNetNames.AllMade) {name : String}
    (h : ((s.precompile env).cls.findProperty? name).isSome) :
    (s.cls.findProperty? name).isSome ∨ s.ctx.isEventGraph = true ∧ Made name := by
  obtain ⟨hframe, hproperty, -, -⟩ := accounts_precompile env hfresh
  obtain ⟨-, hterms⟩ := storesNets_precompile env hfresh hnames
  have hgraph : (s.precompile env).ctx.isEventGraph = s.ctx.isEventGraph :=
    congrArg ContextFlags.eventGraph (s.precompile_keeps env).1.flags
  rw [Class.findProperty?_eq, Option.isSome_or, Bool.or_eq_true,
    Class.findOwnProperty?_isSome] at h ⊢
  rw [Class.superClass_of_frame hframe] at h
  rcases h with hown | hinherited
  · exact (hproperty name hown).imp .inl fun hnet ↦ hgraph ▸ hterms name hnet
  · exact .inl (.inr hinherited)

end FunctionState

/-! ## Passes -/

/-- What a function is by its header. -/
structure FunctionRole where
  name : String
  isEventGraph : Bool
  isDelegateSignature : Bool

def FunctionContext.role (c : FunctionContext) : FunctionRole :=
  ⟨c.functionName, c.isEventGraph, c.isDelegateSignature⟩

theorem FunctionState.SameHeader.role {c d : FunctionContext} (h : SameHeader c d) :
    d.role = c.role := by
  unfold FunctionContext.role FunctionContext.isEventGraph FunctionContext.isDelegateSignature
  rw [h.functionName, h.flags, h.delegateSignatureName]

namespace Compilation

open NetNameMap (Made)

/-- The signature of a delegate has this name. -/
def NamesDelegate (roles : List FunctionRole) (name : String) : Prop :=
  ∃ r ∈ roles, r.isDelegateSignature = true ∧ r.name = name

/-- No function on the class has the name of a property that was there before all functions.  Until
the event graph has its properties there are only signatures of delegates, and after that each other
function has a name that no property has. -/
structure Parted (before : Class) (roles : List FunctionRole) (waits : Prop) (cls : Class) :
    Prop where
  grown : before.Extends cls
  free : ∀ name ∈ cls.functionNames, before.findProperty? name = none
  apart : ∀ name ∈ cls.functionNames,
    NamesDelegate roles name ∨ ¬waits ∧ cls.findProperty? name = none

variable {before : Class} {roles : List FunctionRole} {waits waits' : Prop}

theorem Parted.mono {cls : Class} (h : Parted before roles waits cls) (hwaits : waits' → waits) :
    Parted before roles waits' cls :=
  { h with apart := fun name hname ↦ (h.apart name hname).imp_right (And.imp_left (mt hwaits)) }

/-- Preparing a function keeps the names apart, be it the signature of a delegate, the event graph
or one that comes after it. -/
theorem Parted.precompile (env : CompileEnv) {s : FunctionState}
    (h : Parted before roles waits s.cls) (hfresh : s.ctx.Fresh)
    (hnames : s.classNetNames.AllMade)
    (hturn : NamesDelegate roles s.ctx.functionName ∨ ¬waits')
    (hwaits : waits' → waits) (hevents : s.ctx.isEventGraph = true → waits ∧
      s.ctx.functionName = env.schema.ubergraphFunctionName) :
    Parted before roles waits' (s.precompile env).cls := by
  have hproperty {name : String} (hname : s.cls.findProperty? name = none) :
      (s.precompile env).cls.findProperty? name = none ∨
        s.ctx.isEventGraph = true ∧ Made name := by
    cases hfound : (s.precompile env).cls.findProperty? name with
    | none => exact .inl rfl
    | some p =>
      refine .inr ((s.findProperty?_precompile env hfresh hnames
        (Option.isSome_iff_exists.2 ⟨p, hfound⟩)).resolve_left ?_)
      rw [hname]
      exact Bool.false_ne_true
  refine ⟨h.grown.trans (s.precompile_keeps env).2.1, fun name hname ↦ ?_, fun name hname ↦ ?_⟩
  · rcases s.mem_functionNames_precompile env hname with hold | ⟨-, hfree⟩
    · exact h.free name hold
    · rw [← Option.not_isSome_iff_eq_none]
      exact fun hbefore ↦ by simpa [hfree] using h.grown.findProperty? hbefore
  · rcases s.mem_functionNames_precompile env hname with hold | ⟨rfl, hfree⟩
    · refine (h.apart name hold).imp_right fun ⟨hgone, hfree⟩ ↦ ⟨mt hwaits hgone, ?_⟩
      exact (hproperty hfree).resolve_right fun hnet ↦ hgone (hevents hnet.1).1
    · refine hturn.imp_right fun hgone ↦ ⟨hgone, (hproperty hfree).resolve_right fun hnet ↦ ?_⟩
      exact hnet.2.ne_ubergraphFunctionName _ (hevents hnet.1).2

/-- A pass leaves the functions their roles. -/
theorem roles_runPass (selected : FunctionContext → Bool) {pass : FunctionState → FunctionState}
    (hpass : Keeps pass) (c : Compilation) :
    (c.runPass selected pass).contexts.map (·.role) = c.contexts.map (·.role) := by
  have hall : ((c.runPass selected pass).contexts ++ []).map FunctionContext.role =
      c.contexts.map FunctionContext.role := by
    refine runPass_induction
      (I := fun done rest _ ↦
        (done ++ rest).map FunctionContext.role = c.contexts.map FunctionContext.role)
      (fun _ h ↦ by rwa [List.append_assoc, List.singleton_append])
      (fun {done rest s} _ h ↦ ?_) rfl
    rw [← h]
    simp [(hpass s).1.role]
  rwa [List.append_nil] at hall

/-- The event graph comes before all others and has a name that no net can have. -/
structure Orderly (env : CompileEnv) (roles : List FunctionRole) : Prop where
  events : ∀ r ∈ roles, r.isEventGraph = true →
    r.name = env.schema.ubergraphFunctionName ∧ r.isDelegateSignature = false
  ordered : roles.Pairwise fun _ r ↦ r.isEventGraph = false

section Waves

variable {env : CompileEnv} {c : Compilation} (horderly : Orderly env (c.contexts.map (·.role)))
  (hnames : c.classNetNames.AllMade)
include horderly hnames

/-- Signatures of delegates are prepared while the event graph waits. -/
theorem parted_delegates (hfresh : ∀ d ∈ c.contexts, d.Fresh) (hnone : c.cls.functionNames = []) :
    let delegates := c.runPass (·.isDelegateSignature) (·.precompile env)
    (∀ d ∈ delegates.contexts, d.isDelegateSignature = false → d.Fresh) ∧
      delegates.classNetNames.AllMade ∧
      Parted c.cls (c.contexts.map (·.role)) True delegates.cls := by
  let I (done rest : List FunctionContext) (cls : Class) (names : NetNameMap) : Prop :=
    (∀ d ∈ rest, d ∈ c.contexts) ∧ (∀ d ∈ done, d.isDelegateSignature = false → d.Fresh) ∧
      names.AllMade ∧ Parted c.cls (c.contexts.map (·.role)) True cls
  have hskip {done rest : List FunctionContext} {d : FunctionContext} {cls : Class}
      {names : NetNameMap} (_ : d.isDelegateSignature = false) (hI : I done (d :: rest) cls names) :
      I (done ++ [d]) rest cls names := by
    obtain ⟨hrest, hdone, hnames, hparted⟩ := hI
    obtain ⟨hd, hrest⟩ := List.forall_mem_cons.1 hrest
    refine ⟨hrest, List.forall_mem_append.2 ⟨hdone, ?_⟩, hnames, hparted⟩
    exact List.forall_mem_singleton.2 fun _ ↦ hfresh d hd
  have hrun {done rest : List FunctionContext} {s : FunctionState}
      (hselected : s.ctx.isDelegateSignature = true)
      (hI : I done (s.ctx :: rest) s.cls s.classNetNames) :
      I (done ++ [(s.precompile env).ctx]) rest (s.precompile env).cls
        (s.precompile env).classNetNames := by
    obtain ⟨hrest, hdone, hnames, hparted⟩ := hI
    obtain ⟨hs, hrest⟩ := List.forall_mem_cons.1 hrest
    have hrole : s.ctx.role ∈ c.contexts.map (·.role) := List.mem_map_of_mem hs
    have hdelegate : (s.precompile env).ctx.isDelegateSignature = true := by
      rw [FunctionContext.isDelegateSignature, (s.precompile_keeps env).1.delegateSignatureName]
      exact hselected
    refine ⟨hrest, List.forall_mem_append.2 ⟨hdone, List.forall_mem_singleton.2 fun hnot ↦ ?_⟩,
      hnames.of_extends (s.names_precompile env), ?_⟩
    · exact absurd (hnot.symm.trans hdelegate) Bool.false_ne_true
    · refine hparted.precompile env (hfresh _ hs) hnames (.inl ⟨_, hrole, hselected, rfl⟩) id
        fun hgraph ↦ ?_
      exact absurd ((horderly.events _ hrole hgraph).2.symm.trans hselected) Bool.false_ne_true
  have hstart : I [] c.contexts c.cls c.classNetNames := by
    refine ⟨fun _ hd ↦ hd, fun _ hd ↦ absurd hd List.not_mem_nil, hnames, .refl _, ?_, ?_⟩
    all_goals exact fun _ hname ↦ absurd (hnone ▸ hname) List.not_mem_nil
  exact (runPass_names_induction (I := I) hskip hrun hstart).2

/-- The event graph is prepared before all functions that are not signatures of delegates. -/
theorem parted_others {before : Class}
    (hfresh : ∀ d ∈ c.contexts, d.isDelegateSignature = false → d.Fresh)
    (h : Parted before (c.contexts.map (·.role)) True c.cls) :
    Parted before (c.contexts.map (·.role)) False
      (c.runPass (!·.isDelegateSignature) (·.precompile env)).cls := by
  let I (rest : List FunctionContext) (cls : Class) (names : NetNameMap) : Prop :=
    (∀ d ∈ rest, d ∈ c.contexts) ∧ (rest.Pairwise fun _ d ↦ d.isEventGraph = false) ∧
      names.AllMade ∧
      Parted before (c.contexts.map (·.role)) (∃ d ∈ rest, d.isEventGraph = true) cls
  have hskip {rest : List FunctionContext} {d : FunctionContext} {cls : Class} {names : NetNameMap}
      (_ : (!d.isDelegateSignature) = false) (hI : I (d :: rest) cls names) :
      I rest cls names := by
    obtain ⟨hrest, hordered, hnames, hparted⟩ := hI
    refine ⟨(List.forall_mem_cons.1 hrest).2, (List.pairwise_cons.1 hordered).2, hnames, ?_⟩
    exact hparted.mono fun ⟨u, hu, hgraph⟩ ↦ ⟨u, List.mem_cons_of_mem d hu, hgraph⟩
  have hrun {rest : List FunctionContext} {s : FunctionState}
      (hselected : (!s.ctx.isDelegateSignature) = true)
      (hI : I (s.ctx :: rest) s.cls s.classNetNames) :
      I rest (s.precompile env).cls (s.precompile env).classNetNames := by
    obtain ⟨hrest, hordered, hnames, hparted⟩ := hI
    obtain ⟨hs, hrest⟩ := List.forall_mem_cons.1 hrest
    obtain ⟨hfirst, hordered⟩ := List.pairwise_cons.1 hordered
    have hgone : ¬∃ d ∈ rest, d.isEventGraph = true := fun ⟨u, hu, hgraph⟩ ↦
      absurd ((hfirst u hu).symm.trans hgraph) Bool.false_ne_true
    refine ⟨hrest, hordered, hnames.of_extends (s.names_precompile env), ?_⟩
    refine hparted.precompile env (hfresh _ hs (by simpa using hselected)) hnames (.inr hgone)
      (fun hwaits ↦ absurd hwaits hgone) fun hgraph ↦ ?_
    exact ⟨⟨_, List.mem_cons_self, hgraph⟩,
      (horderly.events _ (List.mem_map_of_mem hs) hgraph).1⟩
  have hstart : I c.contexts c.cls c.classNetNames :=
    ⟨fun _ hd ↦ hd, List.pairwise_map.1 horderly.ordered, hnames, h.mono fun _ ↦ trivial⟩
  obtain ⟨-, -, -, hparted⟩ := runPass_names_induction
    (I := fun _ rest cls names ↦ I rest cls names) hskip hrun hstart
  exact hparted.mono False.elim

end Waves

/-- Preparing all functions keeps the names apart. -/
theorem parted_precompile {env : CompileEnv} {c : Compilation}
    (horderly : Orderly env (c.contexts.map (·.role))) (hnames : c.classNetNames.AllMade)
    (hfresh : ∀ d ∈ c.contexts, d.Fresh) (hnone : c.cls.functionNames = []) :
    Parted c.cls (c.contexts.map (·.role)) False (c.precompile env).cls := by
  obtain ⟨hfresh', hnames', hparted⟩ := parted_delegates horderly hnames hfresh hnone
  have hroles := roles_runPass (·.isDelegateSignature) (keeps_precompile env) c
  rw [← hroles] at horderly hparted ⊢
  exact parted_others horderly hnames' hfresh' hparted

/-- Functions are listed with the event graph in front of them. -/
theorem orderly_addFunctions (env : CompileEnv) {c : Compilation} (hnone : c.contexts = []) :
    Orderly env ((c.addFunctions env).contexts.map (·.role)) := by
  have hothers {l : List FunctionContext} (h : ∀ d ∈ l, d.isEventGraph = false) :
      l.Pairwise fun _ d ↦ d.isEventGraph = false :=
    List.pairwise_of_forall_mem_list fun _ _ d hd ↦ h d hd
  refine ⟨fun r hr hgraph ↦ ?_, List.pairwise_map.2 ?_⟩
  · obtain ⟨d, hd, rfl⟩ := List.mem_map.1 hr
    obtain rfl := eq_eventContext_of_isEventGraph hnone hd hgraph
    exact ⟨(eventGraphOf_eventContext env c).functionName, rfl⟩
  · by_cases hevents : (c.blueprint.blueprintType.supportsEventGraphs &&
        !c.blueprint.ubergraphPages.isEmpty) = true
    · obtain ⟨others, hlisted, hordinary⟩ : ∃ others,
          (c.addFunctions env).contexts = c.eventContext env :: others ∧
            ∀ d ∈ others, d.isEventGraph = false := contexts_addFunctions hevents hnone
      rw [hlisted]
      exact List.pairwise_cons.2 ⟨hordinary, hothers hordinary⟩
    · unfold addFunctions
      dsimp only
      rw [if_neg hevents]
      obtain ⟨others, hlisted, hordinary⟩ := (enlarges_addGraphs env c.blueprint c).contexts
      rw [hlisted, hnone]
      exact hothers hordinary

theorem names_addFunctions (env : CompileEnv) (c : Compilation) :
    c.classNetNames.Extends (c.addFunctions env).classNetNames := by
  have hstart : (c.eventGraph env).2.classNetNames = c.classNetNames := by
    unfold eventGraph
    rfl
  have hevents : c.classNetNames.Extends (c.addEventGraph env).classNetNames := by
    rw [addEventGraph_eq, ← hstart]
    generalize c.eventGraph env = result
    exact (Enlarges.foldl (enlarges_addStub env result.1) _
      (result.2.addContext (c.eventContext env))).names
  unfold addFunctions
  dsimp only
  refine .trans ?_ (enlarges_addGraphs env c.blueprint _).names
  split
  · exact hevents
  · exact .refl _

end Compilation

/-! ## After preparing -/

namespace Class

/-- No function of the class `d` and nothing that it has as a property is new to the class `c`. -/
structure Within (d c : Class) : Prop where
  function : ∀ name ∈ d.functionNames, name ∈ c.functionNames
  property : ∀ name, c.findProperty? name = none → d.findProperty? name = none

namespace Within

theorem refl (c : Class) : c.Within c := ⟨fun _ h ↦ h, fun _ h ↦ h⟩

theorem trans {c d e : Class} (h : e.Within d) (h' : d.Within c) : e.Within c :=
  ⟨fun name hname ↦ h'.function name (h.function name hname),
    fun name hname ↦ h.property name (h'.property name hname)⟩

theorem of_names {c d : Class} (hsuper : d.superClass = c.superClass)
    (hfunctions : d.functionNames = c.functionNames)
    (hproperties : ∀ name ∈ d.propertyNames, name ∈ c.propertyNames) : d.Within c := by
  refine ⟨fun name hname ↦ hfunctions ▸ hname, fun name hname ↦ ?_⟩
  rw [findProperty?_eq, Option.or_eq_none_iff] at hname ⊢
  rw [hsuper]
  refine ⟨?_, hname.2⟩
  rw [← Option.not_isSome_iff_eq_none, findOwnProperty?_isSome] at hname ⊢
  exact mt (hproperties name) hname.1

theorem of_eraseScripts {c d : Class} (h : d.eraseScripts = c.eraseScripts) : d.Within c := by
  have hnames (c : Class) : c.eraseScripts.functionNames = c.functionNames := by
    unfold functionNames eraseScripts
    rw [List.map_map]
    rfl
  have hproperties : d.eraseScripts.propertyNames = c.eraseScripts.propertyNames := by rw [h]
  have hsuper : d.eraseScripts.superClass = c.eraseScripts.superClass := by rw [h]
  refine of_names hsuper ?_ fun name hname ↦ ?_
  · rw [← hnames d, h, hnames c]
  · exact hproperties ▸ hname

end Within

end Class

namespace FunctionState

theorem within_postcompile (s : FunctionState) : s.postcompile.cls.Within s.cls := by
  obtain ⟨ctx, -, -, hpostcompile⟩ := s.exists_postcompile_eq
  obtain ⟨hframe, hproperties⟩ := propertyNames_finish { s with ctx }
  refine .of_names ?_ s.functionNames_postcompile fun name hname ↦ ?_
  · rw [hpostcompile]
    exact Class.superClass_of_frame hframe
  · rw [hpostcompile, hproperties] at hname
    exact hname

end FunctionState

namespace Compilation

/-- After preparing, functions get no names any more and the class gets no properties. -/
theorem within_compileFunctions (env : CompileEnv) (c : Compilation) :
    (c.compileFunctions env).cls.Within ((c.addFunctions env).precompile env).cls := by
  let prepared := (c.addFunctions env).precompile env
  let coded := if env.options.isSkeletonOnly then prepared
    else prepared.runPass (fun _ ↦ true) (·.compile env)
  have hcoded : coded.cls = prepared.cls := by
    unfold coded
    split
    · rfl
    · exact (sameEntry_compile env prepared).1
  have hpost : (coded.runPass (fun _ ↦ true) (·.postcompile)).cls.Within coded.cls :=
    runPass_induction (I := fun _ _ cls ↦ cls.Within coded.cls) (fun _ h ↦ h)
      (fun {_ _ s} _ h ↦ s.within_postcompile.trans h) (.refl _)
  exact hcoded ▸ hpost

theorem within_finishClass (env : CompileEnv) (old : Option DefaultObject) (c : Compilation) :
    (c.finishClass env old).cls.Within c.cls := by
  have hlinked := c.adds_linkedClass
  rw [cls_finishClass]
  refine .of_names hlinked.superClass ?_ fun name hname ↦ ?_
  · exact congrArg (List.map Function.name) hlinked.functions
  · simpa using hlinked.property name hname

theorem within_deliver (env : CompileEnv) (c : Compilation) : (c.deliver env).cls.Within c.cls :=
  .of_eraseScripts (by rw [cls_deliver, Class.eraseScripts_generateCode])

theorem roles_compileFunctions (env : CompileEnv) (c : Compilation) :
    (c.compileFunctions env).contexts.map (·.role) = (c.addFunctions env).contexts.map (·.role) := by
  let prepared := (c.addFunctions env).precompile env
  let coded := if env.options.isSkeletonOnly then prepared
    else prepared.runPass (fun _ ↦ true) (·.compile env)
  have hprepared : prepared.contexts.map (·.role) = (c.addFunctions env).contexts.map (·.role) :=
    (roles_runPass _ (keeps_precompile env) _).trans (roles_runPass _ (keeps_precompile env) _)
  have hcoded : coded.contexts.map (·.role) = prepared.contexts.map (·.role) := by
    unfold coded
    split
    · rfl
    · exact roles_runPass _ (keeps_compile env) prepared
  have hpost := roles_runPass (fun _ ↦ true) keeps_postcompile coded
  have hpatched : (c.compileFunctions env).contexts.map (·.role) =
      (coded.runPass (fun _ ↦ true) (·.postcompile)).contexts.map (·.role) := by
    show ((coded.runPass (fun _ ↦ true) (·.postcompile)).patchStubs).contexts.map (·.role) = _
    rw [contexts_patchStubs, List.map_map]
    exact List.map_congr_left fun ctx _ ↦ (ctx.sameHeader_patchStub _).role
  exact hpatched.trans (hpost.trans (hcoded.trans hprepared))

end Compilation

/-! ## The whole compile -/

namespace Blueprint

variable {b : Blueprint} {options : CompileOptions} {suffix : Bool}

/-- No function of a compiled class has the name of a property that was there before, and none but
the signature of a delegate has the name of any property. -/
theorem parted_compile {name : String}
    (hname : name ∈ (b.compile options suffix).cls.functionNames) :
    (b.shaped suffix).cls.findProperty? name = none ∧
      ((∃ d ∈ (b.compile options suffix).contexts, d.isDelegateSignature = true ∧
          d.functionName = name) ∨
        (b.compile options suffix).cls.findProperty? name = none) := by
  let listed := (b.shaped suffix).addFunctions (b.environment options)
  let compiled := (b.shaped suffix).compileFunctions (b.environment options)
  let old := (b.settleNames .empty).1.freshClass.2
  have hnames : listed.classNetNames.AllMade :=
    NetNameMap.AllMade.of_extends (fun _ _ h ↦ by cases h)
      (Compilation.names_addFunctions (b.environment options) (b.shaped suffix))
  have hnone : listed.cls.functionNames = [] := by
    rw [Compilation.cls_addFunctions, Class.functionNames, (b.adds_shaped suffix).functions,
      (b.settleNames .empty).1.freshClass_spec.2.1, List.map_nil]
  have hparted := Compilation.parted_precompile
    (Compilation.orderly_addFunctions (b.environment options) (b.contexts_shaped suffix)) hnames
    (b.fresh_listed options suffix) hnone
  have hwithin : (b.compile options suffix).cls.Within
      (listed.precompile (b.environment options)).cls := by
    rw [compile_eq_deliver]
    exact (Compilation.within_deliver _ _).trans ((Compilation.within_finishClass _ old _).trans
      (Compilation.within_compileFunctions _ _))
  have hroles : (b.compile options suffix).contexts.map (·.role) =
      listed.contexts.map (·.role) := by
    rw [compile_eq_deliver, ← Compilation.roles_compileFunctions]
    exact congrArg (List.map _) (compiled.finishClass_keeps (b.environment options) old).2.2
  have hprepared := hwithin.function name hname
  refine ⟨?_, (hparted.apart name hprepared).imp (fun hdelegate ↦ ?_) fun h ↦
    hwithin.property name h.2⟩
  · rw [← Compilation.cls_addFunctions (b.environment options)]
    exact hparted.free name hprepared
  · obtain ⟨r, hr, hdelegate, rfl⟩ := hdelegate
    rw [← hroles] at hr
    obtain ⟨d, hd, rfl⟩ := List.mem_map.1 hr
    exact ⟨d, hd, hdelegate, rfl⟩

/-- No function of a compiled class has the name of a property that the Blueprint declares or that
is inherited.  A function that has the name of a property all the same is the signature of a
delegate, and the property is for a net of the event graph. -/
theorem findProperty?_of_compile {f : Function}
    (hf : f ∈ (b.compile options suffix).cls.own.functions) :
    (b.shaped suffix).cls.findProperty? f.name = none ∧
      ((b.compile options suffix).cls.findProperty? f.name = none ∨
        (∃ d ∈ (b.compile options suffix).contexts, d.isDelegateSignature = true ∧
            d.functionName = f.name) ∧
          ∃ d ∈ (b.compile options suffix).contexts, d.HasTerm .eventGraphLocal f.name) := by
  obtain ⟨hfree, happart⟩ := parted_compile (List.mem_map_of_mem hf)
  obtain ⟨hframe, hproperty⟩ := b.accounted_shaped options suffix
  refine ⟨hfree, ?_⟩
  cases hfound : (b.compile options suffix).cls.findProperty? f.name with
  | none => exact .inl rfl
  | some p =>
    rw [hfound] at happart
    refine .inr ⟨happart.resolve_right (Option.some_ne_none p), ?_⟩
    rw [Class.findProperty?_eq, Option.or_eq_none_iff] at hfree
    rw [Class.findProperty?_eq, Class.superClass_of_frame hframe, hfree.2, Option.or_none] at hfound
    have hown := Class.findOwnProperty?_isSome.1 (Option.isSome_iff_exists.2 ⟨p, hfound⟩)
    refine (hproperty f.name hown).resolve_left fun hshaped ↦ ?_
    have hfound' := Class.findOwnProperty?_isSome.2 hshaped
    rw [hfree.1] at hfound'
    exact Bool.false_ne_true hfound'

/-- A delegate whose signature has the name of a net of the event graph. -/
def ringing : Blueprint :=
  let (_, signature) := (Graph.empty "Event_0_x").spawn (.functionEntry {})
  let (event, page) := (Graph.empty "Page").spawn (.event { function := "Hit" })
  { Blueprint.new "Bell" (Class.new "Actor" none) with
    newVariables := [.new "Event_0_x" .multicastDelegate]
    delegateSignatureGraphs := [signature]
    ubergraphPages := [(page.allocPin event .output ⟨"x__DelegateSignature", .int, ""⟩).2] }

theorem findProperty?_of_compile_ringing :
    let c := ringing.compile .full false
    c.log.numErrors = 0 ∧ ∃ f ∈ c.cls.own.functions, (c.cls.findProperty? f.name).isSome ∧
      (ringing.shaped false).cls.findProperty? f.name = none ∧
        (c.cls.findProperty? f.name = none ∨
          (∃ d ∈ c.contexts, d.isDelegateSignature = true ∧ d.functionName = f.name) ∧
            ∃ d ∈ c.contexts, d.HasTerm .eventGraphLocal f.name) := by
  intro c
  have hlog : c.log.numErrors = 0 := by decide +kernel
  obtain ⟨f, hf, hproperty⟩ : ∃ f ∈ c.cls.own.functions, (c.cls.findProperty? f.name).isSome := by
    decide +kernel
  exact ⟨hlog, f, hf, hproperty, findProperty?_of_compile hf⟩

/-- The net gets a property of the name of a function, and nothing is reported. -/
theorem not_findProperty?_of_compile : ¬∀ (b : Blueprint) (options : CompileOptions) (suffix : Bool),
    (b.compile options suffix).log.numErrors = 0 →
      ∀ f ∈ (b.compile options suffix).cls.own.functions,
        (b.compile options suffix).cls.findProperty? f.name = none := by
  intro h
  have hnone := h ringing .full false (by decide +kernel)
  revert hnone
  decide +kernel

end Blueprint

end VisualScript
