import VisualScript.Proofs.Compile.Delivery
import Mathlib.Data.List.Pairwise

/-!
# Where scripts find their values

A compile that reports no error leaves nothing dangling.  Every function has its
script on the class, every place that a script names is there, and no two values
share one.
-/

namespace VisualScript

/-! ## Operands -/

/-- The places and values that the operation names. -/
def ScriptOp.operands : ScriptOp → List Operand
  | .callFunction _ context args result => context.toList ++ (args ++ result.toList)
  | .assign dest src => [dest, src]
  | .setArray array elements => array :: elements
  | .jumpIfNot condition _ => [condition]
  | .computedJump target => [target]
  | _ => []

namespace FunctionContext

variable (c : FunctionContext)

/-- Every operand of a lowered statement stands for a terminal. -/
theorem exists_term_of_mem_operands_lower {k : Nat} {s : Statement} {operand : Operand}
    (h : operand ∈ (c.lower k s).operands) : ∃ t, operand = c.operand t := by
  have hoption {t? : Option TermId} (hmem : operand ∈ (t?.map c.operand).toList) :
      ∃ t, operand = c.operand t := by
    obtain ⟨t, -, ht⟩ := Option.map_eq_some_iff.1 (Option.mem_toList.1 hmem)
    exact ⟨t, ht.symm⟩
  have hlist {l : List TermId} (hmem : operand ∈ l.map c.operand) :
      ∃ t, operand = c.operand t := by
    obtain ⟨t, -, ht⟩ := List.mem_map.1 hmem
    exact ⟨t, ht.symm⟩
  cases s with
  | callFunction function target args result =>
    rcases List.mem_append.1 h with h | h
    · exact hoption h
    · exact (List.mem_append.1 h).elim hlist hoption
  | assignment lhs rhs => exact hlist (l := [lhs, rhs]) h
  | createArray array elements => exact hlist (l := array :: elements) h
  | gotoIfNot condition target => exact hlist (l := [condition]) h
  | computedGoto term => exact hlist (l := [term]) h
  | _ => cases h

theorem operand_eq_frame {t : TermId} {name : String} (h : c.operand t = .frame name) :
    ∃ term, c.term? t = some term ∧ term.isLocal = true ∧ term.name = name := by
  unfold operand at h
  cases ht : c.term? t with
  | none => rw [ht] at h; cases h
  | some term =>
    rw [ht] at h
    refine ⟨term, rfl, ?_⟩
    simp only [Option.map_some, Option.getD_some, Terminal.operand] at h
    simp only [Terminal.isLocal]
    split at h <;> simp_all

theorem operand_eq_inst {t : TermId} {name : String} (h : c.operand t = .inst name) :
    ∃ term, c.term? t = some term ∧ term.name = name ∧
      (term.kind = .eventGraphLocal ∨ term.kind = .memberReference) := by
  unfold operand at h
  cases ht : c.term? t with
  | none => rw [ht] at h; cases h
  | some term =>
    rw [ht] at h
    refine ⟨term, rfl, ?_⟩
    simp only [Option.map_some, Option.getD_some, Terminal.operand] at h
    split at h <;> simp_all

variable {c} {cls : Class} (hstored : c.Stored cls) {k : Nat} {code : List Statement}
  {op : ScriptOp} (hop : op ∈ code.map (c.lower k)) {name : String}
include hstored hop

/-- A place in the frame is a property of the function. -/
theorem Stored.findProperty?_of_frame (hname : .frame name ∈ op.operands) :
    ∃ f, cls.findOwnFunction? c.functionName = some f ∧ (f.findProperty? name).isSome := by
  obtain ⟨s, -, rfl⟩ := List.mem_map.1 hop
  obtain ⟨t, ht⟩ := c.exists_term_of_mem_operands_lower hname
  obtain ⟨term, hterm, hlocal, rfl⟩ := c.operand_eq_frame ht.symm
  obtain ⟨f, hf, hframe⟩ := hstored.frame
  exact ⟨f, hf, hframe t term hterm hlocal⟩

/-- A place on the object is a property of its class, unless a variable of a named class is. -/
theorem Stored.findProperty?_of_inst (hname : .inst name ∈ op.operands) :
    (cls.findProperty? name).isSome ∨ c.graph.NamesExplicitly name := by
  obtain ⟨s, -, rfl⟩ := List.mem_map.1 hop
  obtain ⟨t, ht⟩ := c.exists_term_of_mem_operands_lower hname
  obtain ⟨term, hterm, rfl, hkind | hkind⟩ := c.operand_eq_inst ht.symm
  · have hclass := hstored.onClass term.name ⟨t, term, hterm, hkind, rfl⟩
    exact .inl (Class.findProperty?_isSome_of_own hclass)
  · exact hstored.members term (mem_terms_of_term? hterm) hkind

end FunctionContext

/-! ## Compiled functions -/

namespace FunctionContext

/-- The function did not fail, its script is made of its statements, and the script names only
places that are there. -/
structure Delivered (c : FunctionContext) (cls : Class) : Prop where
  failed : c.failed = false
  script : ∃ f, cls.findOwnFunction? c.functionName = some f ∧
    f.script = c.statements.map (c.lower (c.statements.length - 1)) ∧
    ∀ op ∈ f.script, ∀ name,
      (.frame name ∈ op.operands → (f.findProperty? name).isSome) ∧
      (.inst name ∈ op.operands →
        (cls.findProperty? name).isSome ∨ c.graph.NamesExplicitly name)

theorem statements_ne_nil_of_finishedFrom {c d : FunctionContext} (h : c.FinishedFrom d) :
    d.statements ≠ [] := by
  cases h with
  | stub => exact List.cons_ne_nil _ _
  | code flags =>
    simp only [resolveJumps, tail]
    split <;> simp

variable {env : CompileEnv} {origin : FunctionContext → Prop} {c : FunctionContext} {cls : Class}

/-- A finished function has the storage that it was prepared with. -/
theorem Finished.keeps (h : Finished env origin c cls) :
    c.failed = false ∧ c.NetsTyped ∧ c.Stored cls ∧ c.statements ≠ [] := by
  obtain ⟨c₁, c₂, hready, hcompiled, hfinished⟩ := h
  have hne := statements_ne_nil_of_finishedFrom hfinished
  obtain ⟨table, list, rfl⟩ := hcompiled.frame
  obtain ⟨table', list', code, labels, flags, rfl⟩ := hfinished.frame
  have hsame : c₁.SameStorage { ({ c₁.withCode table with executionList := list } :
      FunctionContext).withCode table' with
      executionList := list', statements := code, nodeLabels := labels, netFlags := flags } :=
    ⟨rfl, rfl, fun _ ↦ .inl rfl⟩
  exact ⟨hready.failed, hready.nets, hsame.stored hready.stored, hne⟩

end FunctionContext

namespace Blueprint

open FunctionContext

variable {b : Blueprint} {options : CompileOptions} {suffix : Bool}

section Quiet

variable (hfull : options.compileType = .full)
  (hlog : (b.compile options suffix).log.numErrors = 0)
include hfull hlog

/-- Without an error, every function is finished and apart from the others. -/
theorem finished_of_compile (source origin : FunctionContext → Prop)
    (horigin : ∀ s : FunctionState, s.ctx.Fresh → source s.ctx →
      (s.precompile (b.environment options)).log.numErrors ≤ s.log.numErrors →
        origin (s.precompile (b.environment options)).ctx)
    (hsource : ∀ d ∈ ((b.shaped suffix).addFunctions (b.environment options)).contexts, source d) :
    (∀ d ∈ (b.passed options suffix).contexts, d.Finished (b.environment options)
        (fun e ↦ origin e ∧ e ∈ (b.precompiled options suffix).contexts)
        (b.passed options suffix).cls) ∧
      (b.passed options suffix).contexts.Pairwise Apart := by
  have hle := (compile_keeps b suffix hfull).2.2
  have hfresh := b.fresh_listed options suffix
  rw [hlog, passed] at hle
  rw [passed, precompiled]
  generalize (b.shaped suffix).addFunctions (b.environment options) = c at *
  exact Compilation.finished_of_afterPasses handlesAll_environment horigin
    (fun d hd ↦ ⟨hfresh d hd, hsource d hd⟩) (Nat.le_trans hle (Nat.zero_le _))

/-- The functions of a finished compile come from finished functions. -/
theorem exists_finished_of_compile {c : FunctionContext}
    (hc : c ∈ (b.compile options suffix).contexts) :
    ∃ c₀ ∈ (b.passed options suffix).contexts, c₀.SameStorage c ∧
      c₀.Stored (b.passed options suffix).cls ∧ c.failed = false ∧ c.statements ≠ [] := by
  obtain ⟨hfinished, -⟩ := finished_of_compile hfull hlog (fun _ ↦ True) (fun _ ↦ True)
    (fun _ _ _ _ ↦ trivial) fun _ _ ↦ trivial
  rw [contexts_compile hfull] at hc
  obtain ⟨c₀, hc₀, rfl⟩ := List.mem_map.1 hc
  obtain ⟨hfailed, hnets, hstored, hcode⟩ := (hfinished c₀ hc₀).keeps
  obtain ⟨hstatements, hfailed'⟩ := Compilation.statements_patchStub c₀
    (b.passed options suffix).eventLabels
  exact ⟨c₀, hc₀, Compilation.sameStorage_patchStub _ hnets, hstored, hfailed'.trans hfailed,
    hstatements ▸ hcode⟩

theorem pairwise_apart_of_compile : (b.compile options suffix).contexts.Pairwise Apart := by
  obtain ⟨hfinished, hapart⟩ := finished_of_compile hfull hlog (fun _ ↦ True) (fun _ ↦ True)
    (fun _ _ _ _ ↦ trivial) fun _ _ ↦ trivial
  rw [contexts_compile hfull, List.pairwise_map]
  refine hapart.imp_of_mem fun {c d} hc hd h ↦ ?_
  have hsame {c : FunctionContext} (hc : c ∈ (b.passed options suffix).contexts) :=
    Compilation.sameStorage_patchStub (b.passed options suffix).eventLabels
      (hfinished c hc).keeps.2.1
  refine ⟨?_, fun name hterm hterm' ↦ h.storage name ((hsame hc).hasTerm_iff.1 hterm)
    ((hsame hd).hasTerm_iff.1 hterm')⟩
  rw [(hsame hc).functionName, (hsame hd).functionName]
  exact h.functionName

theorem nodup_functionNames_of_compile :
    ((b.compile options suffix).contexts.map (·.functionName)).Nodup :=
  List.pairwise_map.2 ((pairwise_apart_of_compile hfull hlog).imp (·.functionName))

/-- Every terminal of a finished compile has storage on the class. -/
theorem stored_of_compile {c : FunctionContext} (hc : c ∈ (b.compile options suffix).contexts) :
    c.Stored (b.compile options suffix).cls := by
  obtain ⟨c₀, -, hsame, hstored, -⟩ := exists_finished_of_compile hfull hlog hc
  obtain ⟨hext, hcls, -⟩ := compile_keeps b suffix hfull
  rw [hcls]
  exact hsame.stored (hstored.extend (hext.trans (Class.extends_generateCode _ _)))

/-- Every function has the script of its context. -/
theorem script_of_compile {c : FunctionContext} (hc : c ∈ (b.compile options suffix).contexts) :
    c.failed = false ∧ ∃ f, (b.compile options suffix).cls.findOwnFunction? c.functionName = some f ∧
      f.script = c.statements.map (c.lower (c.statements.length - 1)) := by
  obtain ⟨c₀, -, hsame, hstored, hfailed, hcode⟩ := exists_finished_of_compile hfull hlog hc
  obtain ⟨hext, hcls, -⟩ := compile_keeps b suffix hfull
  obtain ⟨f₀, hf₀, -⟩ := hstored.frame
  obtain ⟨f, hf, -⟩ := hext.function _ f₀ hf₀
  rw [← hsame.functionName] at hf
  refine ⟨hfailed, { f with script := c.script false }, ?_, ?_⟩
  · rw [hcls, Class.findOwnFunction?_generateCode (nodup_functionNames_of_compile hfull hlog) hc, hf]
    rfl
  · simp [script, hfailed, hcode]

/-- A full compile that reports no error leaves nothing dangling and nothing aliased: the functions
have names and scripts of their own, scripts name places that are there, and no two values of a
frame, or two nets on the class, are stored in one place. -/
theorem delivered_of_compile :
    ((b.compile options suffix).contexts.map (·.functionName)).Nodup ∧
      (∀ c ∈ (b.compile options suffix).contexts, c.Delivered (b.compile options suffix).cls ∧
        ∀ t u term term', c.term? t = some term → c.term? u = some term' →
          term.isLocal = true → term'.isLocal = true → term.name = term'.name → t = u) ∧
      ∀ c ∈ (b.compile options suffix).contexts, ∀ d ∈ (b.compile options suffix).contexts,
        ∀ t u term term', c.term? t = some term → d.term? u = some term' →
          term.kind = .eventGraphLocal → term'.kind = .eventGraphLocal → term.name = term'.name →
            c = d ∧ t = u := by
  refine ⟨nodup_functionNames_of_compile hfull hlog, fun c hc ↦ ?_,
    fun c hc d hd t u term term' ht hu hkind hkind' hname ↦ ?_⟩
  · have hstored := stored_of_compile hfull hlog hc
    obtain ⟨hfailed, f, hf, hscript⟩ := script_of_compile hfull hlog hc
    refine ⟨⟨hfailed, f, hf, hscript, fun op hop name ↦ ⟨fun hframe ↦ ?_, fun hinst ↦ ?_⟩⟩,
      hstored.frameNames⟩
    · obtain ⟨g, hg, hproperty⟩ := hstored.findProperty?_of_frame (hscript ▸ hop) hframe
      cases hf.symm.trans hg
      exact hproperty
    · exact hstored.findProperty?_of_inst (hscript ▸ hop) hinst
  · have hsame : c = d := by
      by_contra hne
      have happart := (pairwise_apart_of_compile hfull hlog).forall hc hd hne
      exact happart.storage term.name ⟨t, term, ht, hkind, rfl⟩ ⟨u, term', hu, hkind', hname.symm⟩
    subst hsame
    exact ⟨rfl, (stored_of_compile hfull hlog hc).classNames t u term term' ht hu hkind hkind' hname⟩

end Quiet

end Blueprint

/-! ## A clock -/

/-- Links a named output to a named input, if they are there. -/
def Graph.wired (g : Graph) (source : NodeId) (output : String) (target : NodeId)
    (input : String) : Graph :=
  match g.connect source output target input with
  | .ok g => g
  | .error _ => g

namespace Blueprint

/-- An event that stores its parameter and a function that clears it. -/
def clock : Blueprint :=
  let (event, page) := (Graph.empty "Page").spawn (.event (.custom "Tick"))
  let (_, page) := page.allocPin event .output { name := "Delta", ty := .float }
  let (set, page) := page.spawn (.variableSet (some (.selfMember "Last" .float)))
  let page := page.wired event PinName.thenOut set PinName.execute
  let page := page.wired event "Delta" set "Last"
  let (entry, reset) := (Graph.empty "Reset").spawn (.functionEntry {})
  let (clear, reset) := reset.spawn (.variableSet (some (.selfMember "Last" .float)))
  let reset := reset.wired entry PinName.thenOut clear PinName.execute
  { Blueprint.new "Clock" (Class.new "Actor" none) with
    newVariables := [.new "Last" .float]
    ubergraphPages := [page]
    functionGraphs := [reset] }

theorem delivered_of_compile_clock :
    CompileOptions.full.compileType = .full ∧ (clock.compile .full true).log.numErrors = 0 ∧
      ((clock.compile .full true).contexts.map (·.functionName)).Nodup ∧
      ∀ c ∈ (clock.compile .full true).contexts, c.Delivered (clock.compile .full true).cls := by
  have hfull : CompileOptions.full.compileType = .full := rfl
  have hlog : (clock.compile .full true).log.numErrors = 0 := by decide +kernel
  obtain ⟨hnodup, hdelivered, -⟩ := delivered_of_compile hfull hlog
  exact ⟨hfull, hlog, hnodup, fun c hc ↦ (hdelivered c hc).1⟩

end Blueprint

end VisualScript
