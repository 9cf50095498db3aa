import VisualScript.Proofs.Compile.Recompiling
import VisualScript.Proofs.Compile.Signatures

/-!
# Overrides

A function that overrides another is made after it when it is prepared, and settled against it
when it is finished.  A compile that reports no error leaves every override with the signature,
flags, access and metadata of the function that it overrides; a function that overrides nothing
becomes a root.
-/

namespace VisualScript

/-! ## What an override has of the overridden function -/

namespace Function

/-- The function can override `g` of the class `owner`, and is declared after it. -/
structure Follows (f : Function) (owner : String) (g : Function) : Prop where
  signature : f.signature = g.signature
  event : g.flags.contains FunctionFlags.blueprintEvent
  inherits : f.flags.contains (g.flags &&& FunctionFlags.funcInherit)
  superFunction : f.superFunction = some (owner ++ "::" ++ f.name)

/-- The function overrides `g` of the class `owner`, and is settled against it. -/
structure Overrides (f : Function) (owner : String) (g : Function) : Prop
    extends Follows f owner g where
  net : f.flags &&& FunctionFlags.netFuncFlags = g.flags &&& FunctionFlags.netFuncFlags
  access : g.flags.intersects FunctionFlags.accessSpecifiers →
    f.flags &&& FunctionFlags.accessSpecifiers = g.flags &&& FunctionFlags.accessSpecifiers
  metadata (key : String) : g.metadata.contains key → f.metadata.contains key

/-- The function overrides nothing, and can be executed. -/
structure IsRoot (f : Function) : Prop where
  superFunction : f.superFunction = none
  exec : f.flags.contains FunctionFlags.exec

/-- The function is declared after what it overrides, if that is anything. -/
def DeclaredAfter (f : Function) : Option (String × Function) → Prop
  | none => f.superFunction = none
  | some (owner, g) => f.Follows owner g

/-- The function is settled against what it overrides, or is a root. -/
def SettledAgainst (f : Function) : Option (String × Function) → Prop
  | none => f.IsRoot
  | some (owner, g) => f.Overrides owner g

theorem SettledAgainst.declaredAfter {f : Function} {overridden : Option (String × Function)}
    (h : f.SettledAgainst overridden) : f.DeclaredAfter overridden := by
  cases overridden with
  | none => exact h.superFunction
  | some overridden => exact h.toFollows

/-- The script of a function is its own. -/
theorem SettledAgainst.of_eraseScript {f f₀ : Function} {overridden : Option (String × Function)}
    (h : f₀.SettledAgainst overridden)
    (heq : { f₀ with script := [] } = { f with script := [] }) : f.SettledAgainst overridden := by
  obtain ⟨name, flags, superFunction, properties, numParms, parmsSize, offset, size, metadata,
    script⟩ := f
  obtain ⟨rfl, rfl, rfl, rfl, rfl, rfl, rfl, rfl, rfl, -⟩ := Function.mk.inj heq
  cases overridden with
  | none => exact ⟨h.superFunction, h.exec⟩
  | some overridden =>
    exact ⟨⟨h.signature, h.event, h.inherits, h.superFunction⟩, h.net, h.access, h.metadata⟩

end Function

namespace Class

/-- The own function of that name, if there is one, is to what it overrides as `P` has it. -/
def Relates (P : Function → Option (String × Function) → Prop) (c : Class) (name : String) : Prop :=
  ∀ f, c.findOwnFunction? name = some f → P f (c.findOverridden? name)

theorem Relates.spares {P : Function → Option (String × Function) → Prop} {c d : Class}
    {names : String → Prop} {name : String} (h : c.Relates P name) (hspares : c.Spares names d)
    (hname : names name) : d.Relates P name := by
  intro f hf
  rw [hspares.function hname] at hf
  rw [hspares.findOverridden?]
  exact h f hf

theorem findOwnFunction?_of_mem {c : Class} (hnodup : c.functionNames.Nodup) {f : Function}
    (hf : f ∈ c.own.functions) : c.findOwnFunction? f.name = some f := by
  unfold functionNames at hnodup
  unfold findOwnFunction?
  generalize c.own.functions = functions at hnodup hf
  induction functions with
  | nil => cases hf
  | cons g functions ih =>
    obtain ⟨hfirst, hrest⟩ := List.nodup_cons.1 hnodup
    rcases List.mem_cons.1 hf with rfl | hmem
    · exact List.find?_cons_of_pos (beq_self_eq_true _)
    · have hne : g.name ≠ f.name := fun heq ↦ hfirst (List.mem_map.2 ⟨f, hmem, heq.symm⟩)
      rw [List.find?_cons_of_neg (by simpa using hne)]
      exact ih hrest hmem

/-- Classes that differ in scripts have the same functions but for these. -/
theorem exists_of_eraseScripts {c d : Class} (h : d.eraseScripts = c.eraseScripts) {f : Function}
    (hf : f ∈ d.own.functions) :
    ∃ f₀ ∈ c.own.functions, { f₀ with script := [] } = { f with script := [] } := by
  have hfunctions : d.eraseScripts.own.functions = c.eraseScripts.own.functions := by rw [h]
  unfold eraseScripts at hfunctions
  dsimp only at hfunctions
  have hmem := List.mem_map_of_mem (f := fun f : Function ↦ { f with script := [] }) hf
  rw [hfunctions] at hmem
  exact List.mem_map.1 hmem

theorem findOverridden?_of_eraseScripts {c d : Class} (h : d.eraseScripts = c.eraseScripts)
    (name : String) : d.findOverridden? name = c.findOverridden? name := by
  have hsuper : d.eraseScripts.superClass = c.eraseScripts.superClass := by rw [h]
  have hinterfaces : d.eraseScripts.interfaces = c.eraseScripts.interfaces := by rw [h]
  exact findOverridden?_congr (c := c) (d := d) hsuper hinterfaces name

end Class

/-! ## Preparing -/

namespace FunctionState

/-- A new function has the flags that overrides inherit, whatever the author asks for. -/
theorem contains_newFunction (ctx : FunctionContext) (data : EntryData) (owner : String)
    (g : Function) : (newFunction ctx data (some (owner, g))).flags.contains
      (g.flags &&& FunctionFlags.funcInherit) := by
  have hinherit : (inheritFlags (ownFlags ctx) g.flags).contains
      (g.flags &&& FunctionFlags.funcInherit) := by
    refine Flags.contains_iff.2 fun i _ hi ↦ ?_
    rw [Flags.has_and, Bool.and_eq_true] at hi
    rw [inheritFlags, Flags.has_or, Flags.has_and, Flags.has_or, hi.1, hi.2, Bool.true_or,
      Bool.true_and, Bool.or_true]
  have hrequest : (requestFlags (inheritFlags (ownFlags ctx) g.flags) data.extraFlags).contains
      (g.flags &&& FunctionFlags.funcInherit) := by
    unfold requestFlags
    refine Flags.contains_or_of_contains ?_ _
    split
    · exact Flags.contains_of_and_eq (Flags.without_and_of_disjoint (by decide)) hinherit
    · exact hinherit
  unfold newFunction
  dsimp only [Function.new]
  split
  · exact Flags.contains_or_of_contains hrequest _
  · exact hrequest

/-- A signature that is not reported is that of the overridden function. -/
theorem signature_of_checkSignature {s : FunctionState} (entry : NodeId) {owner : String}
    {f g : Function} (hf : s.cls.findOwnFunction? s.ctx.functionName = some f)
    (hlog : (s.checkSignature entry (some (owner, g))).log.numErrors ≤ s.log.numErrors) :
    f.signature = g.signature := by
  unfold checkSignature at hlog
  rw [hf] at hlog
  dsimp only at hlog
  by_contra hne
  rw [if_neg hne] at hlog
  exact absurd hlog (Nat.not_succ_le_self _)

/-- A function that overrides another and is created without an error may do so. -/
theorem event_of_creationFault? {s : FunctionState} {owner : String} {g : Function}
    (h : s.creationFault? (some (owner, g)) = none) :
    g.flags.contains FunctionFlags.blueprintEvent ∧ (s.ctx.stub.isSome → g.hasOutputs = false) := by
  unfold creationFault? at h
  dsimp only at h
  split at h
  · cases h
  · split at h
    · cases h
    · split at h
      · cases h
      · next hevent =>
        split at h
        · cases h
        · next houtputs =>
          refine ⟨by simpa using hevent, fun hstub ↦ ?_⟩
          simpa [hstub] using houtputs

theorem createFunction_eq_some {s s' : FunctionState} {entry : NodeId}
    {overridden : Option (String × Function)}
    (h : s.createFunction entry = (some overridden, s')) :
    overridden = s.cls.findOverridden? s.ctx.functionName ∧
      s.creationFault? overridden = none := by
  unfold createFunction at h
  dsimp only at h
  split at h
  · cases h
  · next hfault =>
    split at h
    · cases h
    · cases h
      exact ⟨rfl, hfault⟩

theorem precompile_of_findEntry (env : CompileEnv) {s s' : FunctionState} {entry : NodeId}
    {created : Option (Option (String × Function))} (hentry : s.findEntry = .ok entry)
    (hcreate : (s.simplifyGraph env entry).createFunction entry = (created, s')) :
    s.precompile env = created.elim s'.fail ((s'.layOut env entry).checkSignature entry) := by
  unfold precompile
  simp only [hentry, hcreate]
  cases created <;> rfl

/-- Preparation that reports no error ends with the check of a signature, and nothing was wrong
with the function before. -/
theorem precompile_of_quiet {env : CompileEnv} {s : FunctionState}
    (hlog : (s.precompile env).log.numErrors ≤ s.log.numErrors) :
    ∃ (entry : NodeId) (s' : FunctionState), s'.ctx.functionName = s.ctx.functionName ∧
      s.creationFault? (s.cls.findOverridden? s.ctx.functionName) = none ∧
      s.precompile env = s'.checkSignature entry (s.cls.findOverridden? s.ctx.functionName) ∧
      (s.precompile env).log.numErrors ≤ s'.log.numErrors := by
  rcases precompile_cases env s with ⟨ctx, log, hs, hlt, -⟩ |
    ⟨entry, g, log, -, -, -, -, hentry, hsimplify, hle, -⟩
  · rw [hs] at hlog
    exact absurd hlt (Nat.not_lt.2 hlog)
  · rcases createFunction_cases (s.simplifyGraph env entry) entry with
      ⟨text, tokens, hcreate⟩ | ⟨f, cls, flags, -, -, hcreate⟩
    · rw [precompile_of_findEntry env hentry hcreate, hsimplify] at hlog
      exact absurd hlog (Nat.not_le.2 (Nat.lt_succ_of_le hle))
    · obtain ⟨-, hfault⟩ := createFunction_eq_some hcreate
      have hprecompile := precompile_of_findEntry env hentry hcreate
      rw [hsimplify] at hfault hprecompile
      let s₁ := s.created entry g log cls flags
      exact ⟨entry, s₁.layOut env entry, (sameHeader_layOut env s₁ entry).functionName, hfault,
        hprecompile, Nat.le_trans hlog (Nat.le_trans hle (numErrors_le_layOut env s₁ entry))⟩

/-- A function that is prepared without an error is declared after what it overrides. -/
theorem declared_precompile {env : CompileEnv} {s : FunctionState}
    (hlog : (s.precompile env).log.numErrors ≤ s.log.numErrors) {name : String}
    (h : s.cls.Relates Function.DeclaredAfter name) :
    (s.precompile env).cls.Relates Function.DeclaredAfter name := by
  rcases precompile_isolated env s with ⟨-, hcls⟩ | ⟨-, hspares, entry, frame, -, hcreated⟩
  · rwa [hcls]
  · by_cases hname : name = s.ctx.functionName
    · subst hname
      obtain ⟨entry', s', hname', hfault, hprecompile, hquiet⟩ := precompile_of_quiet hlog
      obtain ⟨-, -, hcls⟩ := numErrors_le_checkSignature s' entry'
        (s.cls.findOverridden? s.ctx.functionName)
      have hheader := (s.precompile_keeps env).1.functionName
      intro f hf
      rw [hspares.findOverridden?]
      rw [hheader, hf] at hcreated
      have hown := Option.some.inj hcreated
      unfold FunctionContext.ownFunction at hown
      rw [hspares.findOverridden?, hheader] at hown
      generalize s.cls.findOverridden? s.ctx.functionName = overridden at *
      cases overridden with
      | none =>
        rw [hown]
        rfl
      | some overridden =>
        obtain ⟨owner, g⟩ := overridden
        refine ⟨?_, (event_of_creationFault? hfault).1, ?_, ?_⟩
        · refine signature_of_checkSignature (s := s') entry' ?_ (hprecompile ▸ hquiet)
          rw [hname', ← hcls, ← hprecompile, hf]
        · rw [hown]
          exact contains_newFunction _ _ owner g
        · rw [hown]
          rfl
    · exact h.spares hspares hname

end FunctionState

/-! ## Finishing -/

namespace Function

/-- Metadata is added where there is none of its name. -/
theorem contains_inheritMetadata {f : Function} {entries : List (String × String)} {key : String}
    (h : f.metadata.contains key = true ∨ key ∈ entries.map (·.1)) :
    (f.inheritMetadata entries).metadata.contains key := by
  let add (m : Metadata) (e : String × String) : Metadata :=
    if m.contains e.1 then m else m.insert e.1 e.2
  have hadd (m : Metadata) (e : String × String) (h : m.contains key = true ∨ key = e.1) :
      (add m e).contains key := by
    by_cases hold : m.contains e.1 = true
    · simp only [add, if_pos hold]
      exact h.elim id fun heq ↦ heq ▸ hold
    · simp only [add, if_neg hold]
      rw [Metadata.contains, Metadata.get?_insert]
      split
      · rfl
      · next hne => exact h.resolve_right hne
  have hfold (m : Metadata) (h : m.contains key = true ∨ key ∈ entries.map (·.1)) :
      (entries.foldl add m).contains key := by
    clear * - h hadd
    induction entries generalizing m with
    | nil => exact h.resolve_right List.not_mem_nil
    | cons e entries ih =>
      rw [List.map_cons, List.mem_cons] at h
      refine ih (add m e) ?_
      rcases h with hold | hfirst | hrest
      · exact .inl (hadd m e (.inl hold))
      · exact .inl (hadd m e (.inr hfirst))
      · exact .inr hrest
  exact hfold f.metadata h

theorem mem_keys_of_contains {m : Metadata} {key : String} (h : m.contains key = true) :
    key ∈ m.entries.map (·.1) := by
  obtain ⟨e, he, hkey⟩ := List.lookup_isSome_iff.1 h
  exact List.mem_map.2 ⟨e, he, (beq_iff_eq.1 hkey).symm⟩

end Function

namespace FunctionState

/-- An access other than that of the overridden function is a fault. -/
theorem access_of_overrideFaults {f g : Function} {owner : String} {tokens : List SourceToken}
    (hfaults : ∀ m ∈ overrideFaults f g owner tokens, m.severity ≠ .error)
    (haccess : g.flags.intersects FunctionFlags.accessSpecifiers) :
    f.flags &&& FunctionFlags.accessSpecifiers = g.flags &&& FunctionFlags.accessSpecifiers := by
  by_contra hne
  have hfault : (!(g.flags &&& FunctionFlags.accessSpecifiers).isEmpty &&
      decide (f.flags &&& FunctionFlags.accessSpecifiers ≠
        g.flags &&& FunctionFlags.accessSpecifiers)) = true :=
    Bool.and_eq_true_iff.2 ⟨haccess, decide_eq_true hne⟩
  unfold overrideFaults at hfaults
  dsimp only at hfaults
  rw [if_pos hfault] at hfaults
  exact hfaults _ (List.mem_append_left _ (List.mem_singleton_self _)) rfl

/-- An override that is described without a fault is settled against the overridden function. -/
theorem overrides_of_describes {f f' g : Function} {owner : String} {tokens : List SourceToken}
    (hf : f.Follows owner g) (hdescribes : Describes f f')
    (hfaults : ∀ m ∈ overrideFaults (f'.inheritMetadata g.metadata.entries) g owner tokens,
      m.severity ≠ .error) :
    (inheritNetFlags (f'.inheritMetadata g.metadata.entries) g).Overrides owner g := by
  have hmask {mask : FunctionFlags} (hout : FunctionFlags.hasOutParms &&& mask = .empty)
      (hdefaults : FunctionFlags.hasDefaults &&& mask = .empty)
      (hnet : FunctionFlags.netFuncFlags &&& mask = .empty) :
      (inheritNetFlags (f'.inheritMetadata g.metadata.entries) g).flags &&& mask =
        f.flags &&& mask := by
    have hkept := (Flags.without_and_of_disjoint hnet).trans (hdescribes.flags hout hdefaults)
    exact (Flags.or_and_of_disjoint (Flags.and_and_of_disjoint hnet)).trans hkept
  refine ⟨⟨hdescribes.signature.trans hf.signature, hf.event, ?_, ?_⟩, ?_, ?_, ?_⟩
  · exact Flags.contains_of_and_eq (hmask (by decide) (by decide) (by decide)) hf.inherits
  · exact hdescribes.superFunction.trans (hdescribes.name ▸ hf.superFunction)
  · exact Flags.replace_and _ _ _
  · intro haccess
    rw [hmask (by decide) (by decide) (by decide), ← hdescribes.flags (by decide) (by decide)]
    exact access_of_overrideFaults hfaults haccess
  · intro key hkey
    exact Function.contains_inheritMetadata (.inr (Function.mem_keys_of_contains hkey))

/-- A function that overrides nothing is described as a root. -/
theorem isRoot_of_describes {f f' : Function} (hf : f.superFunction = none)
    (hdescribes : Describes f f') (isEventGraph : Bool) : (f'.becomeRoot isEventGraph).IsRoot := by
  refine ⟨hdescribes.superFunction.trans hf, ?_⟩
  unfold Function.becomeRoot
  dsimp only
  split
  · exact Flags.contains_or_right _ _
  · exact Flags.contains_or_of_contains (Flags.contains_or_right _ _) _

/-- Finishing a function settles it, or reports why it cannot. -/
theorem settled_finish {s : FunctionState} (hlog : s.finish.log.numErrors ≤ s.log.numErrors)
    (h : s.cls.Relates Function.DeclaredAfter s.ctx.functionName) :
    s.finish.cls.Relates Function.SettledAgainst s.ctx.functionName := by
  intro f' hf'
  rw [(finish_isolated s).1.findOverridden?]
  cases hf : s.cls.findOwnFunction? s.ctx.functionName with
  | none =>
    have hfinish : s.finish = s := by
      unfold finish
      dsimp only
      rw [hf]
    rw [hfinish, hf] at hf'
    cases hf'
  | some f =>
    have hdeclared := h f hf
    have hdescribes := Describes.describe s.graph s.ctx.entryPoint f
    obtain ⟨d, hd, hcases⟩ := finish_cases hf
    obtain rfl := Option.some.inj (hd.symm.trans hf')
    rcases hcases with ⟨hnone, rfl⟩ | ⟨owner, g, described, tokens, hsome, rfl, rfl, hreports⟩
    · rw [hnone] at hdeclared ⊢
      exact isRoot_of_describes hdeclared hdescribes _
    · rw [hsome] at hdeclared ⊢
      rw [hreports] at hlog
      exact overrides_of_describes hdeclared hdescribes
        (MessageLog.severity_ne_error_of_pushAll hlog)

/-- The same of finishing once the jumps are resolved. -/
theorem settled_postcompile {s : FunctionState}
    (hlog : s.postcompile.log.numErrors ≤ s.log.numErrors)
    (h : s.cls.Relates Function.DeclaredAfter s.ctx.functionName) :
    s.postcompile.cls.Relates Function.SettledAgainst s.ctx.functionName := by
  obtain ⟨ctx, hctx, -, hpostcompile⟩ := s.exists_postcompile_eq
  rw [hpostcompile] at hlog ⊢
  have hname : ctx.functionName = s.ctx.functionName := hctx.functionName
  have hfinish := settled_finish (s := { s with ctx }) hlog
  rw [← hname] at h ⊢
  exact hfinish h

end FunctionState

/-! ## Passes -/

namespace Compilation

/-- What a pass that reports no error keeps of the functions that had their turn, those that wait,
and the class. -/
theorem runPass_quiet_induction {selected : FunctionContext → Bool}
    {pass : FunctionState → FunctionState}
    {I : List FunctionContext → List FunctionContext → Class → Prop} (hkeeps : Keeps pass)
    (hskip : ∀ {done c rest cls}, selected c = false → I done (c :: rest) cls →
      I (done ++ [c]) rest cls)
    (hrun : ∀ {done rest} {s : FunctionState}, selected s.ctx = true →
      (pass s).log.numErrors ≤ s.log.numErrors → I done (s.ctx :: rest) s.cls →
        I (done ++ [(pass s).ctx]) rest (pass s).cls)
    {c : Compilation} (hlog : (c.runPass selected pass).log.numErrors ≤ c.log.numErrors)
    (h : I [] c.contexts c.cls) :
    I (c.runPass selected pass).contexts [] (c.runPass selected pass).cls := by
  have hfold (rest : List FunctionContext) (c : Compilation)
      (hlog : (rest.foldl (advance selected pass) c).log.numErrors ≤ c.log.numErrors)
      (hc : I c.contexts rest c.cls) :
      I (rest.foldl (advance selected pass) c).contexts []
        (rest.foldl (advance selected pass) c).cls := by
    induction rest generalizing c with
    | nil => exact hc
    | cons ctx rest ih =>
      obtain ⟨-, hfirst, -⟩ := advance_keeps selected hkeeps c ctx
      obtain ⟨-, hrest, -⟩ := foldl_advance_keeps selected hkeeps (c.advance selected pass ctx) rest
      rw [List.foldl_cons] at hlog ⊢
      refine ih _ (Nat.le_trans hlog hfirst) ?_
      have hquiet := Nat.le_trans hrest hlog
      unfold advance at hquiet ⊢
      by_cases hselected : selected ctx = true
      · rw [if_pos hselected] at hquiet ⊢
        exact hrun (s := ⟨ctx, c.log, c.cls, c.classNetNames⟩) hselected hquiet hc
      · rw [if_neg hselected]
        exact hskip (by simpa using hselected) hc
  exact hfold c.contexts { c with contexts := [] } hlog h

theorem declared_runPass_precompile {env : CompileEnv} {selected : FunctionContext → Bool}
    {c : Compilation}
    (hlog : (c.runPass selected (·.precompile env)).log.numErrors ≤ c.log.numErrors)
    (h : ∀ name, c.cls.Relates Function.DeclaredAfter name) (name : String) :
    (c.runPass selected (·.precompile env)).cls.Relates Function.DeclaredAfter name :=
  runPass_quiet_induction (I := fun _ _ cls ↦ ∀ name, cls.Relates Function.DeclaredAfter name)
    (keeps_precompile env) (fun _ hs ↦ hs)
    (fun _ hquiet hs name ↦ FunctionState.declared_precompile hquiet (hs name)) hlog h name

/-- Functions that are prepared without an error are declared after those that they override. -/
theorem declared_precompile {env : CompileEnv} {c : Compilation}
    (hlog : (c.precompile env).log.numErrors ≤ c.log.numErrors)
    (h : ∀ name, c.cls.Relates Function.DeclaredAfter name) (name : String) :
    (c.precompile env).cls.Relates Function.DeclaredAfter name := by
  obtain ⟨-, hfirst, -⟩ := runPass_keeps (·.isDelegateSignature) (keeps_precompile env) c
  obtain ⟨-, hsecond, -⟩ := runPass_keeps (!·.isDelegateSignature) (keeps_precompile env)
    (c.runPass (·.isDelegateSignature) (·.precompile env))
  have hdelegates := declared_runPass_precompile (Nat.le_trans hsecond hlog) h
  exact declared_runPass_precompile (Nat.le_trans hlog hfirst) hdelegates name

/-- Functions that are finished without an error are settled against those that they override. -/
theorem settled_runPass_postcompile {c : Compilation}
    (hlog : (c.runPass (fun _ ↦ true) (·.postcompile)).log.numErrors ≤ c.log.numErrors)
    (h : ∀ name, c.cls.Relates Function.DeclaredAfter name) :
    ∀ d ∈ (c.runPass (fun _ ↦ true) (·.postcompile)).contexts,
      (c.runPass (fun _ ↦ true) (·.postcompile)).cls.Relates Function.SettledAgainst
        d.functionName := by
  refine (runPass_quiet_induction (I := fun done _ cls ↦
    (∀ name, cls.Relates Function.DeclaredAfter name) ∧
      ∀ d ∈ done, cls.Relates Function.SettledAgainst d.functionName) keeps_postcompile
    (fun {done d rest cls} (hselected : true = false) _ ↦ by cases hselected)
    (fun {done rest s} _ hquiet hs ↦ ?_) hlog ⟨h, fun _ hd ↦ absurd hd List.not_mem_nil⟩).2
  obtain ⟨hdeclared, hdone⟩ := hs
  obtain ⟨hspares, -⟩ := FunctionState.postcompile_isolated s
  have hsettled := FunctionState.settled_postcompile hquiet (hdeclared s.ctx.functionName)
  refine ⟨fun name ↦ ?_, fun d hd ↦ ?_⟩
  · by_cases hname : name = s.ctx.functionName
    · exact hname ▸ fun f hf ↦ (hsettled f hf).declaredAfter
    · exact (hdeclared name).spares hspares hname
  · by_cases hname : d.functionName = s.ctx.functionName
    · exact hname ▸ hsettled
    · rcases List.mem_append.1 hd with hd | hd
      · exact (hdone d hd).spares hspares hname
      · rw [List.mem_singleton.1 hd, s.postcompile_keeps.1.functionName] at hname
        exact absurd rfl hname

/-- The functions that the passes make are settled against those that they override. -/
theorem settled_compileFunctions {env : CompileEnv} {c : Compilation}
    (hnone : c.cls.own.functions = []) (hlog : (c.compileFunctions env).log.numErrors = 0) :
    (c.compileFunctions env).cls.functionNames.Nodup ∧
      ∀ name ∈ (c.compileFunctions env).cls.functionNames,
        (c.compileFunctions env).cls.Relates Function.SettledAgainst name := by
  let listed := c.addFunctions env
  let prepared := listed.precompile env
  let coded := if env.options.isSkeletonOnly then prepared
    else prepared.runPass (fun _ ↦ true) (·.compile env)
  have hlisted : listed.cls.own.functions = [] := (cls_addFunctions env c) ▸ hnone
  have hempty : Covered listed.contexts listed.cls := by
    constructor
    all_goals rw [Class.functionNames, hlisted]
    · exact .nil
    · exact fun _ h ↦ absurd h List.not_mem_nil
  have hprepared := covered_precompile env hempty
  have hcoded : coded.cls = prepared.cls ∧ Covered coded.contexts coded.cls ∧
      prepared.log.numErrors ≤ coded.log.numErrors := by
    unfold coded
    split
    · exact ⟨rfl, hprepared, Nat.le_refl _⟩
    · refine ⟨(sameEntry_compile env prepared).1, ?_,
        (runPass_keeps (fun _ ↦ true) (keeps_compile env) prepared).2.1⟩
      exact covered_runPass _ _ (fun s ↦ (s.compile_keeps env).1)
        (fun s ↦ .inl (congrArg Class.functionNames (s.compile_isolated env).1)) hprepared
  obtain ⟨hcls, hcovered, hcompile⟩ := hcoded
  -- no pass reports an error, for none is taken back
  have hquiet : (coded.runPass (fun _ ↦ true) (·.postcompile)).log.numErrors = 0 := hlog
  have hpost := (runPass_keeps (fun _ ↦ true) keeps_postcompile coded).2.1
  have hzero : prepared.log.numErrors = 0 := by omega
  have hdeclared := declared_precompile (c := listed)
    (Nat.le_trans (Nat.le_of_eq hzero) (Nat.zero_le _)) fun name f hf ↦ by
      rw [Class.findOwnFunction?, hlisted] at hf
      cases hf
  have hsettled := settled_runPass_postcompile (c := coded)
    (Nat.le_trans (Nat.le_of_eq hquiet) (Nat.zero_le _)) (hcls ▸ hdeclared)
  obtain ⟨hnodup, hsubset⟩ := covered_postcompile hcovered
  refine ⟨hnodup, fun name hname ↦ ?_⟩
  obtain ⟨d, hd, rfl⟩ := List.mem_map.1 (hsubset name hname)
  exact hsettled d hd

/-- Around functions that are settled the class is finished, and they get their scripts. -/
theorem settled_deliver {c : Compilation} (hnodup : c.cls.functionNames.Nodup)
    (hsettled : ∀ name ∈ c.cls.functionNames, c.cls.Relates Function.SettledAgainst name)
    (env : CompileEnv) (old : Option DefaultObject) :
    ∀ f ∈ ((c.finishClass env old).deliver env).cls.own.functions,
      f.SettledAgainst (((c.finishClass env old).deliver env).cls.findOverridden? f.name) := by
  have hfunctions : (c.finishClass env old).cls.own.functions = c.cls.own.functions := by
    rw [cls_finishClass]
    exact c.adds_linkedClass.functions
  have hspares := c.spares_finishClass (fun _ ↦ True) env old
  generalize c.finishClass env old = finished at hfunctions hspares
  have herase : (finished.deliver env).cls.eraseScripts = finished.cls.eraseScripts := by
    rw [cls_deliver, Class.eraseScripts_generateCode]
  intro f hf
  obtain ⟨f₀, hf₀, heq⟩ := Class.exists_of_eraseScripts herase hf
  have hname : f₀.name = f.name := (Function.mk.inj heq).1
  rw [hfunctions] at hf₀
  rw [Class.findOverridden?_of_eraseScripts herase, hspares.findOverridden?, ← hname]
  exact (hsettled f₀.name (List.mem_map_of_mem hf₀) f₀
    (Class.findOwnFunction?_of_mem hnodup hf₀)).of_eraseScript heq

end Compilation

/-! ## The whole compile -/

namespace Blueprint

variable {b : Blueprint} {options : CompileOptions} {suffix : Bool}

/-- Every function of a class that a compile made without an error is settled. -/
theorem settled_of_compile (hlog : (b.compile options suffix).log.numErrors = 0) :
    ∀ f ∈ (b.compile options suffix).cls.own.functions,
      f.SettledAgainst ((b.compile options suffix).cls.findOverridden? f.name) := by
  have hnone : (b.shaped suffix).cls.own.functions = [] :=
    (b.adds_shaped suffix).functions.trans (b.settleNames .empty).1.freshClass_spec.2.1
  rw [compile_eq_deliver] at hlog ⊢
  rw [Compilation.numErrors_deliver] at hlog
  have hfinished := (((b.shaped suffix).compileFunctions (b.environment options)).finishClass_keeps
    (b.environment options) (b.settleNames .empty).1.freshClass.2).2.1
  obtain ⟨hnodup, hsettled⟩ := Compilation.settled_compileFunctions hnone
    (Nat.le_zero.1 (hlog ▸ hfinished))
  exact Compilation.settled_deliver hnodup hsettled _ _

/-- Every function of a class that a compile made without an error, if a function of its name is
inherited or else declared by an interface, has the signature of that function, the flags that
overrides inherit, its network flags, its access and its metadata; and that one may be overridden. -/
theorem overrides_of_compile (hlog : (b.compile options suffix).log.numErrors = 0) :
    ∀ f ∈ (b.compile options suffix).cls.own.functions, ∀ owner g,
      (b.compile options suffix).cls.findOverridden? f.name = some (owner, g) →
        f.Overrides owner g := by
  intro f hf owner g hg
  have hsettled := settled_of_compile hlog f hf
  rwa [hg] at hsettled

/-- A function with a parameter, on a class whose parent declares it for a server. -/
def damaging : Blueprint :=
  let amount : Property := { name := "Amount", ty := .float, flags := PropertyFlags.parm, size := 4 }
  let damage : Function := {
    name := "Damage"
    flags := .union [FunctionFlags.event, FunctionFlags.blueprintEvent, FunctionFlags.publicAccess,
      FunctionFlags.net, FunctionFlags.netServer]
    properties := [amount]
    metadata := .ofList [("Category", "Combat")] }
  let actor := Class.new "Actor" none
  let (entry, g) := (Graph.empty "Damage").spawn (.functionEntry {})
  { Blueprint.new "Player" { actor with own.functions := [damage] } with
    functionGraphs := [(g.allocPin entry .output ⟨"Amount", .float, ""⟩).2] }

theorem overrides_of_compile_damaging :
    let c := damaging.compile .full false
    c.log.numErrors = 0 ∧ ∃ f ∈ c.cls.own.functions, ∃ owner g,
      c.cls.findOverridden? f.name = some (owner, g) ∧ g.signature.length = 1 ∧
        g.metadata.contains "Category" ∧ f.Overrides owner g := by
  intro c
  have hlog : c.log.numErrors = 0 := by decide +kernel
  obtain ⟨f, hf, hany⟩ : ∃ f ∈ c.cls.own.functions, (c.cls.findOverridden? f.name).any fun o ↦
      o.2.signature.length = 1 ∧ o.2.metadata.contains "Category" := by decide +kernel
  obtain ⟨⟨owner, g⟩, hg, hdeclared⟩ := (Option.any_eq_true _ _).1 hany
  rw [decide_eq_true_iff] at hdeclared
  exact ⟨hlog, f, hf, owner, g, hg, hdeclared.1, hdeclared.2,
    overrides_of_compile hlog f hf owner g hg⟩

end Blueprint

end VisualScript
