import VisualScript.Compile.Emit
import VisualScript.Proofs.Run.Code
import VisualScript.Proofs.Terminals.Variables

/-!
# The code of a node

What a node does itself and where it goes next are read off the graph and the
terminals.  Compiling the node appends just that, or reports an error.
-/

namespace VisualScript

namespace FunctionContext

variable (c : FunctionContext) (n : NodeId)

/-! ## What a node does -/

/-- The terminal of a local variable or member. -/
def variableTerm? (name : String) : Option TermId :=
  c.findNamed? name (c.userLocals ++ c.variableReferences)

/-- The object that a call is made on, if one is wired to it. -/
def callTarget? : Option TermId :=
  (c.graph.selfPin? n).bind fun p ↦
    if (c.graph.linksOf p).isEmpty then none else c.inputTerm? p

/-- The call passes its inputs and then its outputs, but takes the return value back. -/
def callStatement (call : CallData) : Statement :=
  let outs := c.graph.filteredPins n .output false
  let returned := outs.filter (CallFunction.isReturn c.graph)
  let passed := outs.filter (!CallFunction.isReturn c.graph ·)
  .callFunction call.function (c.callTarget? n)
    ((CallFunction.inputs c.graph n).filterMap c.inputTerm? ++ passed.filterMap c.net?)
    (returned.filterMap c.net?).getLast?

def pinName (p : PinId) : String := ((c.graph.pin? p).map (·.name)).getD ""

/-- The value of an input is assigned, if there is something to assign it to. -/
def assignmentOf (lhs : Option TermId) (p : PinId) : Option Statement := do
  return .assignment (← lhs) (← c.inputTerm? p)

/-- What the pin of an assignment is assigned to. -/
def assigned? (var : Option VariableReference) (p : PinId) : Option TermId :=
  c.variableTerm? (match var with
    | some var => VariableAccess.storageName var
    | none => c.pinName p)

/-- The operations of a node. -/
def operationsOf : NodeKind → List Statement
  | .callFunction call => [c.callStatement n call]
  | .variableSet var => (c.graph.filteredPins n .input false).filterMap fun p ↦
      c.assignmentOf (c.assigned? var p) p
  | .functionResult => (c.graph.filteredPins n .input false).filterMap fun p ↦
      c.assignmentOf (c.findResult? (c.pinName p)) p
  | .makeArray _ _ =>
    ((c.graph.findPin? n PinName.array (some .output)).bind c.net?).toList.map fun array ↦
      .createArray array ((c.graph.filteredPins n .input false).filterMap c.inputTerm?)
  | _ => []

/-! ## Where it goes -/

/-- Goes to what the `then` pin is wired to, or ends the function or thread. -/
def thenExit : Statement :=
  match (c.graph.findPin? n PinName.thenOut (some .output)).filter
      fun p ↦ !(c.graph.linksOf p).isEmpty with
  | some p => .unconditionalGoto (.pin p)
  | none => if c.isEventGraph then .endOfThread else .gotoReturn

def branchExit : List Statement :=
  match c.graph.findPin? n PinName.condition (some .input),
      c.graph.findPin? n PinName.thenOut (some .output),
      c.graph.findPin? n PinName.elseOut (some .output) with
  | some condition, some thenPin, some elsePin =>
    (c.inputTerm? condition).toList.flatMap fun t ↦
      [.gotoIfNot t (.pin elsePin), .unconditionalGoto (.pin thenPin)]
  | _, _, _ => []

/-- The jumps at the end of a node. -/
def exitOf : NodeKind → List Statement
  | .functionEntry _ =>
    if c.isEventGraph then
      ((c.graph.findPin? n PinName.entryPoint (some .output)).bind c.net?).toList.map .computedGoto
    else [c.thenExit n]
  | .event _ | .variableSet _ => [c.thenExit n]
  | .callFunction call => if call.isPure then [] else [c.thenExit n]
  | .functionResult => [.gotoReturn]
  | .branch => c.branchExit n
  | _ => []

/-- The marks where the code of a node begins. -/
def marksOf (env : CompileEnv) (kind : NodeKind) : List Statement :=
  if c.isEventGraph && kind.isEntry then []
  else
    (if env.options.emitNodeComments then [.comment (FunctionState.commentOf c.graph n)] else []) ++
      if c.flags.createDebugData then [.debugSite n] else []

/-- All the code of a node. -/
def codeOfNode (env : CompileEnv) : List Statement :=
  match c.graph.kind? n with
  | none => []
  | some kind => c.marksOf n env kind ++ (c.operationsOf n kind ++ c.exitOf n kind)

theorem isOperation_of_mem_operationsOf {kind : NodeKind} {s : Statement}
    (h : s ∈ c.operationsOf n kind) : s.isOperation = true := by
  have hassign {lhs : Option TermId} {p : PinId} (hs : c.assignmentOf lhs p = some s) :
      s.isOperation = true := by
    unfold assignmentOf at hs
    cases lhs with
    | none => cases hs
    | some lhs =>
      cases hrhs : c.inputTerm? p with
      | none =>
        rw [hrhs] at hs
        cases hs
      | some rhs =>
        rw [hrhs] at hs
        cases hs
        rfl
  cases kind with
  | callFunction call =>
    rw [List.mem_singleton.1 h]
    rfl
  | variableSet var =>
    obtain ⟨p, -, hp⟩ := List.mem_filterMap.1 h
    exact hassign hp
  | functionResult =>
    obtain ⟨p, -, hp⟩ := List.mem_filterMap.1 h
    exact hassign hp
  | makeArray element count =>
    obtain ⟨array, -, rfl⟩ := List.mem_map.1 h
    rfl
  | _ => cases h

theorem isMarker_of_mem_marksOf {env : CompileEnv} {kind : NodeKind} {s : Statement}
    (h : s ∈ c.marksOf n env kind) : s.isMarker = true := by
  unfold marksOf at h
  split at h
  · cases h
  · rcases List.mem_append.1 h with h | h
    · split at h
      · rw [List.mem_singleton.1 h]
        rfl
      · cases h
    · split at h
      · rw [List.mem_singleton.1 h]
        rfl
      · cases h

/-- A pure node does not say what comes next. -/
theorem exitOf_of_isPure {kind : NodeKind} (h : kind.isPure = true) : c.exitOf n kind = [] := by
  cases kind with
  | callFunction call => exact if_pos h
  | variableGet var | temporaryVariable ty | knot ty | makeArray element count | comment text => rfl
  | _ => cases h

theorem jumpsToPins_thenExit : (c.thenExit n).JumpsToPins := by
  intro index
  unfold thenExit
  split
  · simp [Statement.target?]
  · split <;> simp [Statement.target?]

/-- The exits of nodes jump to pins. -/
theorem jumpsToPins_of_mem_exitOf {kind : NodeKind} {s : Statement} (h : s ∈ c.exitOf n kind) :
    s.JumpsToPins := by
  cases kind with
  | functionEntry data =>
    simp only [exitOf] at h
    split at h
    · obtain ⟨t, -, rfl⟩ := List.mem_map.1 h
      exact fun index ↦ by simp [Statement.target?]
    · rw [List.mem_singleton.1 h]
      exact c.jumpsToPins_thenExit n
  | event data | variableSet var =>
    rw [List.mem_singleton.1 h]
    exact c.jumpsToPins_thenExit n
  | callFunction call =>
    simp only [exitOf] at h
    split at h
    · cases h
    · rw [List.mem_singleton.1 h]
      exact c.jumpsToPins_thenExit n
  | functionResult =>
    rw [List.mem_singleton.1 h]
    exact fun index ↦ by simp [Statement.target?]
  | branch =>
    simp only [exitOf, branchExit] at h
    split at h
    · obtain ⟨t, -, ht⟩ := List.mem_flatMap.1 h
      rcases List.mem_cons.1 ht with rfl | ht
      · exact fun index ↦ by simp [Statement.target?]
      · rw [List.mem_singleton.1 ht]
        exact fun index ↦ by simp [Statement.target?]
    · cases h
  | _ => cases h

/-- Nodes that can be compiled where they stand: a branch has its pins and a condition. -/
def Compilable (env : CompileEnv) : Prop :=
  ∀ kind, c.graph.kind? n = some kind → env.handles kind = true ∧
    (kind = .branch → c.branchExit n ≠ [])

/-! ## Appending -/

def appendAll (code : List Statement) : FunctionContext := code.foldl (·.append n ·) c

variable {c n}

theorem appendAll_append (code code' : List Statement) :
    c.appendAll n (code ++ code') = (c.appendAll n code).appendAll n code' :=
  List.foldl_append

theorem appendAll_eq (code : List Statement) :
    ∃ table, c.appendAll n code = { c with nodeStatements := table } := by
  induction code generalizing c with
  | nil => exact ⟨c.nodeStatements, rfl⟩
  | cons s code ih => exact ih

theorem statementsOf_append (m : NodeId) (s : Statement) :
    (c.append n s).statementsOf m =
      if m = n then c.statementsOf n ++ [s] else c.statementsOf m := by
  simp only [append, statementsOf, Assoc.lookup_update]
  split <;> rfl

theorem statementsOf_appendAll (m : NodeId) (code : List Statement) :
    (c.appendAll n code).statementsOf m =
      if m = n then c.statementsOf n ++ code else c.statementsOf m := by
  induction code generalizing c with
  | nil => simpa [appendAll] using congrArg c.statementsOf
  | cons s code ih =>
    refine (ih (c := c.append n s)).trans ?_
    rw [statementsOf_append, statementsOf_append]
    split <;> simp

end FunctionContext

namespace FunctionState

open FunctionContext

/-! ## Emitting -/

/-- The node appends some code and reports perhaps some errors; without any the code is this. -/
def Emits (n : NodeId) (code : List Statement) (s s' : FunctionState) : Prop :=
  ∃ new log, s' = { s with ctx := s.ctx.appendAll n new, log } ∧
    s.log.numErrors ≤ log.numErrors ∧ (log.numErrors ≤ s.log.numErrors → new = code)

namespace Emits

variable {n : NodeId} {s s' s'' : FunctionState} {code code' : List Statement}

theorem nil (n : NodeId) (s : FunctionState) : Emits n [] s s :=
  ⟨[], s.log, rfl, Nat.le_refl _, fun _ ↦ rfl⟩

theorem append (statement : Statement) : Emits n [statement] s (s.append n statement) :=
  ⟨[statement], s.log, rfl, Nat.le_refl _, fun _ ↦ rfl⟩

theorem error (n : NodeId) (code : List Statement) (s : FunctionState) (text : String)
    (tokens : List SourceToken) : Emits n code s (s.error text tokens) := by
  refine ⟨[], s.log.error text tokens, rfl, Nat.le_succ _, fun h ↦ ?_⟩
  rw [MessageLog.numErrors_error] at h
  omega

theorem trans (h : Emits n code s s') (h' : Emits n code' s' s'') :
    Emits n (code ++ code') s s'' := by
  obtain ⟨new, log, rfl, hle, hcode⟩ := h
  obtain ⟨new', log', rfl, hle', hcode'⟩ := h'
  refine ⟨new ++ new', log', ?_, Nat.le_trans hle hle', fun hlog ↦ ?_⟩
  · rw [appendAll_append]
  · rw [hcode (Nat.le_trans hle' hlog), hcode' (Nat.le_trans hlog hle)]

/-- Emitting changes only the code of nodes. -/
theorem exists_table (h : Emits n code s s') :
    ∃ table, s'.ctx = { s.ctx with nodeStatements := table } := by
  obtain ⟨new, log, rfl, -, -⟩ := h
  exact appendAll_eq new

theorem cls_eq (h : Emits n code s s') : s'.cls = s.cls := by
  obtain ⟨new, log, rfl, -, -⟩ := h
  rfl

theorem numErrors_le (h : Emits n code s s') : s.log.numErrors ≤ s'.log.numErrors := by
  obtain ⟨new, log, rfl, hle, -⟩ := h
  exact hle

theorem statementsOf (h : Emits n code s s') (hlog : s'.log.numErrors ≤ s.log.numErrors)
    (m : NodeId) : s'.ctx.statementsOf m =
      if m = n then s.ctx.statementsOf n ++ code else s.ctx.statementsOf m := by
  obtain ⟨new, log, rfl, -, hcode⟩ := h
  rw [← hcode hlog]
  exact statementsOf_appendAll m new

/-- What is emitted piece by piece may be read off the first context, as emitting changes
nothing that it is read off. -/
theorem foldl {α : Type} {f : FunctionState → α → FunctionState} {block : α → List Statement}
    (l : List α) (hf : ∀ s' : FunctionState, (∃ table, s'.ctx = { s.ctx with nodeStatements := table }) →
      s'.cls = s.cls → ∀ a ∈ l, Emits n (block a) s' (f s' a)) :
    Emits n (l.flatMap block) s (l.foldl f s) := by
  induction l generalizing s with
  | nil => exact .nil n s
  | cons a l ih =>
    have hfirst := hf s ⟨_, rfl⟩ rfl a List.mem_cons_self
    refine hfirst.trans (ih fun s' hs' hcls b hb ↦ ?_)
    obtain ⟨table, htable⟩ := hfirst.exists_table
    obtain ⟨table', htable'⟩ := hs'
    refine hf s' ⟨table', ?_⟩ (hcls.trans hfirst.cls_eq) b (List.mem_cons_of_mem _ hb)
    rw [htable', htable]

end Emits

/-! ## The kinds -/

section Kinds

variable {n : NodeId} {s : FunctionState}

theorem emits_gotoThen : Emits n [s.ctx.thenExit n] s (s.gotoThen n) := .append _

/-- A list that is mapped without failure. -/
theorem eq_filterMap_of_mapM {α β ε : Type} {f : α → Except ε β} {g : α → Option β}
    (hf : ∀ a b, f a = .ok b → g a = some b) {l : List α} {bs : List β} (h : l.mapM f = .ok bs) :
    bs = l.filterMap g := by
  induction l generalizing bs with
  | nil => cases h; rfl
  | cons a l ih =>
    rw [List.mapM_cons] at h
    cases ha : f a with
    | error e => rw [ha] at h; cases h
    | ok b =>
      cases hrest : l.mapM f with
      | error e => rw [ha, hrest] at h; cases h
      | ok bs' =>
        rw [ha, hrest] at h
        cases h
        rw [List.filterMap_cons_some (hf a b ha), ih hrest]

theorem inputTerms_eq_ok {ps : List PinId} {ts : List TermId} (h : s.inputTerms ps = .ok ts) :
    ts = ps.filterMap s.ctx.inputTerm? := by
  refine eq_filterMap_of_mapM (fun p t hp ↦ ?_) h
  split at hp
  · next ht => cases hp; exact ht
  · cases hp

theorem outputTerms_eq_ok {ps : List PinId} {outs : List (PinId × TermId)}
    (h : CallFunction.outputTerms s ps = .ok outs) :
    outs = ps.filterMap fun p ↦ (s.ctx.net? p).map (p, ·) := by
  refine eq_filterMap_of_mapM (fun p out hp ↦ ?_) h
  split at hp
  · next ht => cases hp; rw [ht]; rfl
  · cases hp

/-! ### Variables that are settled -/

open VariableAccess

theorem variableTerm?_isSome {c : FunctionContext} (h : c.Enlisted) {name : String} :
    (c.variableTerm? name).isSome ↔
      c.HasTerm .userLocal name ∨ c.HasTerm .memberReference name := by
  rw [← h.findNamed?_isSome .userLocal, ← h.findNamed?_isSome .memberReference, variableTerm?, findNamed?, List.find?_append,
    Option.isSome_or, Bool.or_eq_true]
  rfl

/-- Resolving a variable again finds its terminal and changes nothing. -/
theorem resolve_eq_of_resolves (henlisted : s.ctx.Enlisted) {var : VariableReference}
    (h : s.ctx.Resolves s.cls var) (m : NodeId) (report : Bool) :
    resolve s m var report = (s.ctx.variableTerm? (storageName var), s) := by
  obtain ⟨t, ht⟩ := Option.isSome_iff_exists.1 ((variableTerm?_isSome henlisted).2 h.term)
  have hmissing : (var.owner.isNone && !isUserLocal s.ctx var.name &&
      (s.cls.findProperty? var.name).isNone) = false := by
    rw [← Option.not_isSome, ← Option.not_isSome]
    rcases h.found with h | h | h
    · simp [h]
    · simp [(hasTerm_userLocal henlisted).2 h]
    · simp [h]
  rw [resolve, hmissing, if_neg (by decide), ht]
  rw [variableTerm?] at ht
  simp only [variableTerm, ht]

theorem resolveMembers_eq (henlisted : s.ctx.Enlisted) {ps : List PinId}
    (h : ∀ p ∈ ps, ∃ pin, s.graph.pin? p = some pin ∧
      s.ctx.Resolves s.cls (.selfMember pin.name pin.ty))
    (report : Bool) (pairs : List (TermId × PinId)) :
    ps.foldl (VariableSet.resolveMember n report) (pairs, s) =
      (pairs ++ ps.filterMap fun p ↦ (s.ctx.assigned? none p).map (·, p), s) := by
  induction ps generalizing pairs with
  | nil => simp
  | cons p ps ih =>
    obtain ⟨pin, hpin, hresolves⟩ := h p List.mem_cons_self
    have hname : storageName (.selfMember pin.name pin.ty) = s.ctx.pinName p := by
      simp [storageName, VariableReference.selfMember, pinName, hpin]
    rw [List.foldl_cons, resolveMember_eq hpin, resolve_eq_of_resolves henlisted hresolves,
      hname,
      ih fun q hq ↦ h q (List.mem_cons_of_mem p hq)]
    cases ht : s.ctx.assigned? none p with
    | none =>
      rw [List.filterMap_cons_none (by rw [ht]; rfl)]
      simp only [assigned?] at ht
      simp [ht]
    | some t =>
      rw [List.filterMap_cons_some (by rw [ht]; rfl)]
      simp only [assigned?] at ht
      simp [ht]

theorem assignments_eq (henlisted : s.ctx.Enlisted) {var : Option VariableReference}
    (hkind : s.graph.kind? n = some (.variableSet var)) (h : s.ctx.Settled s.cls n)
    (report : Bool) :
    VariableSet.assignments s n var report =
      ((s.graph.filteredPins n .input false).filterMap fun p ↦
        (s.ctx.assigned? var p).map (·, p), s) := by
  rw [Settled, assignedVariables, hkind] at h
  cases var with
  | none =>
    refine (resolveMembers_eq henlisted (fun p hp ↦ ?_) report []).trans rfl
    obtain ⟨-, pin, hpin, -, -⟩ := Graph.mem_filteredPins.1 hp
    exact ⟨pin, hpin, h _ (List.mem_filterMap.2 ⟨p, hp, by rw [hpin]; rfl⟩)⟩
  | some var =>
    have hvar := h var (List.mem_singleton_self var)
    rw [assignments_some, resolve_eq_of_resolves henlisted hvar]
    obtain ⟨t, ht⟩ := Option.isSome_iff_exists.1 ((variableTerm?_isSome henlisted).2 hvar.term)
    simp [assigned?, ht, List.filterMap_eq_map']

/-! ### Compiling -/

theorem emits_assign (a : TermId × PinId) :
    Emits n (s.ctx.assignmentOf (some a.1) a.2).toList s (VariableSet.assign n s a) := by
  unfold VariableSet.assign assignmentOf
  cases hrhs : s.ctx.inputTerm? a.2 with
  | none => exact .error ..
  | some rhs => exact .append _

theorem emits_assignResult {p : PinId} {pin : Pin} (hpin : s.graph.pin? p = some pin) :
    Emits n (s.ctx.assignmentOf (s.ctx.findResult? (s.ctx.pinName p)) p).toList s
      (FunctionResult.assignResult n s p) := by
  have hname : s.ctx.pinName p = pin.name := by simp [pinName, hpin]
  rw [hname]
  simp only [FunctionResult.assignResult, hpin, assignmentOf]
  cases hrhs : s.ctx.inputTerm? p with
  | none => exact .error ..
  | some rhs =>
    cases hlhs : s.ctx.findResult? pin.name with
    | none => exact .nil n s
    | some lhs => exact .append _

/-- The second components of pairs that are chosen by their first. -/
theorem map_snd_filter_filterMap {α β : Type} (g : α → Option β) (q : α → Bool) (l : List α) :
    ((l.filterMap fun a ↦ (g a).map (a, ·)).filter fun e ↦ q e.1).map (·.2) =
      (l.filter q).filterMap g := by
  induction l with
  | nil => rfl
  | cons a l ih =>
    cases hg : g a with
    | none => by_cases hq : q a = true <;> simp [hg, hq, ih]
    | some b => by_cases hq : q a = true <;> simp [hg, hq, ih]

theorem emits_callFunction (call : CallData) :
    Emits n (s.ctx.callStatement n call :: if call.isPure then [] else [s.ctx.thenExit n]) s
      (CallFunction.compile s n call) := by
  unfold CallFunction.compile
  cases hins : s.inputTerms (CallFunction.inputs s.graph n) with
  | error p => exact .error ..
  | ok ins =>
    cases houts : CallFunction.outputTerms s (s.graph.filteredPins n .output false) with
    | error p => exact .error ..
    | ok outs =>
      have hcall : s.ctx.callStatement n call = .callFunction call.function
          (CallFunction.target? s n)
          (ins ++ (outs.filter fun o ↦ !CallFunction.isReturn s.graph o.1).map (·.2))
          ((outs.filter fun o ↦ CallFunction.isReturn s.graph o.1).getLast?.map (·.2)) := by
        rw [outputTerms_eq_ok houts, inputTerms_eq_ok hins,
          map_snd_filter_filterMap s.ctx.net? (!CallFunction.isReturn s.graph ·),
          ← List.getLast?_map, map_snd_filter_filterMap s.ctx.net? (CallFunction.isReturn s.graph)]
        rfl
      rw [hcall]
      simp only [List.partition_eq_filter_filter]
      split
      · exact .append _
      · exact (Emits.append _).trans emits_gotoThen

theorem emits_makeArray : Emits n (s.ctx.operationsOf n (.makeArray .exec 0)) s
    (MakeArray.compile s n) := by
  unfold MakeArray.compile operationsOf
  cases (s.graph.findPin? n PinName.array (some .output)).bind s.ctx.net? with
  | none => exact .error ..
  | some array =>
    cases hins : s.inputTerms (s.graph.filteredPins n .input false) with
    | error p => exact .error ..
    | ok elements =>
      rw [inputTerms_eq_ok hins]
      exact .append _

theorem emits_branch : Emits n (s.ctx.branchExit n) s (Branch.compile s n) := by
  unfold Branch.compile branchExit
  cases s.graph.findPin? n PinName.condition (some .input) with
  | none => exact .error ..
  | some condition =>
    cases s.graph.findPin? n PinName.thenOut (some .output) with
    | none => exact .error ..
    | some thenPin =>
      cases s.graph.findPin? n PinName.elseOut (some .output) with
      | none => exact .error ..
      | some elsePin =>
        dsimp only
        cases s.ctx.inputTerm? condition with
        | none => exact .error ..
        | some t => exact (Emits.append _).trans (.append _)

/-- A branch that compiles has its pins and a condition. -/
theorem branchExit_ne_nil (hlog : (Branch.compile s n).log.numErrors ≤ s.log.numErrors) :
    s.ctx.branchExit n ≠ [] := by
  have herror (text : String) (tokens : List SourceToken) :
      ¬(s.error text tokens).log.numErrors ≤ s.log.numErrors := Nat.not_succ_le_self _
  unfold Branch.compile at hlog
  unfold branchExit
  cases hcondition : s.graph.findPin? n PinName.condition (some .input) with
  | none =>
    rw [hcondition] at hlog
    exact absurd hlog (herror _ _)
  | some condition =>
    cases hthen : s.graph.findPin? n PinName.thenOut (some .output) with
    | none =>
      rw [hcondition, hthen] at hlog
      exact absurd hlog (herror _ _)
    | some thenPin =>
      cases helse : s.graph.findPin? n PinName.elseOut (some .output) with
      | none =>
        rw [hcondition, hthen, helse] at hlog
        exact absurd hlog (herror _ _)
      | some elsePin =>
        rw [hcondition, hthen, helse] at hlog
        dsimp only at hlog ⊢
        cases ht : s.ctx.inputTerm? condition with
        | none =>
          rw [ht] at hlog
          exact absurd hlog (herror _ _)
        | some t => simp

theorem emits_functionEntry (data : EntryData) :
    Emits n (s.ctx.exitOf n (.functionEntry data)) s (FunctionEntry.compile s n) := by
  simp only [FunctionEntry.compile, exitOf]
  split
  · cases (s.graph.findPin? n PinName.entryPoint (some .output)).bind s.ctx.net? with
    | none => exact .error ..
    | some t => exact .append _
  · exact emits_gotoThen

/-- A goto comes after what was emitted before it. -/
theorem Emits.gotoThen {code : List Statement} {s' : FunctionState} (h : Emits n code s s') :
    Emits n (code ++ [s.ctx.thenExit n]) s (s'.gotoThen n) := by
  obtain ⟨table, htable⟩ := h.exists_table
  have hexit : s'.ctx.thenExit n = s.ctx.thenExit n := by
    rw [htable]
    rfl
  rw [← hexit]
  exact h.trans emits_gotoThen

theorem emits_variableSet (henlisted : s.ctx.Enlisted) {var : Option VariableReference}
    (hkind : s.graph.kind? n = some (.variableSet var)) (h : s.ctx.Settled s.cls n) :
    Emits n (s.ctx.operationsOf n (.variableSet var) ++ [s.ctx.thenExit n]) s
      (VariableSet.compile s n var) := by
  simp only [VariableSet.compile, assignments_eq henlisted hkind h]
  have hcode : s.ctx.operationsOf n (.variableSet var) =
      ((s.graph.filteredPins n .input false).filterMap fun p ↦
        (s.ctx.assigned? var p).map (·, p)).flatMap fun a ↦
          (s.ctx.assignmentOf (some a.1) a.2).toList := by
    simp only [operationsOf]
    generalize s.ctx.graph.filteredPins n .input false = ps
    induction ps with
    | nil => rfl
    | cons p ps ih =>
      cases hlhs : s.ctx.assigned? var p with
      | none =>
        have hnone : s.ctx.assignmentOf none p = none := rfl
        simpa [hlhs, hnone] using ih
      | some lhs =>
        cases hp : s.ctx.assignmentOf (some lhs) p <;> simp [hlhs, hp, ih]
  rw [hcode]
  refine (Emits.foldl _ fun s' hs' _ a _ ↦ ?_).gotoThen
  obtain ⟨table, htable⟩ := hs'
  have hsame : s.ctx.assignmentOf (some a.1) a.2 = s'.ctx.assignmentOf (some a.1) a.2 := by
    rw [htable]
    rfl
  rw [hsame]
  exact emits_assign a

theorem emits_functionResult :
    Emits n (s.ctx.operationsOf n .functionResult ++ [.gotoReturn]) s
      (FunctionResult.compile s n) := by
  have hcode : s.ctx.operationsOf n .functionResult =
      (s.graph.filteredPins n .input false).flatMap fun p ↦
        (s.ctx.assignmentOf (s.ctx.findResult? (s.ctx.pinName p)) p).toList := by
    simp only [operationsOf]
    generalize s.ctx.graph.filteredPins n .input false = ps
    induction ps with
    | nil => rfl
    | cons p ps ih =>
      cases hp : s.ctx.assignmentOf (s.ctx.findResult? (s.ctx.pinName p)) p <;> simp [hp, ih]
  rw [hcode]
  refine (Emits.foldl _ fun s' hs' _ p hp ↦ ?_).trans (.append _)
  obtain ⟨table, htable⟩ := hs'
  obtain ⟨-, pin, hpin, -, -⟩ := Graph.mem_filteredPins.1 hp
  have hsame : s.ctx.assignmentOf (s.ctx.findResult? (s.ctx.pinName p)) p =
      s'.ctx.assignmentOf (s'.ctx.findResult? (s'.ctx.pinName p)) p := by
    rw [htable]
    rfl
  rw [hsame]
  have hpin' : s'.graph.pin? p = some pin := by
    rw [graph, htable]
    exact hpin
  exact emits_assignResult hpin'

/-- Compiling a node appends its operations and its jumps, unless it reports an error. -/
theorem emits_compile (henlisted : s.ctx.Enlisted) {kind : NodeKind}
    (hkind : s.graph.kind? n = some kind) (h : s.ctx.Settled s.cls n) :
    Emits n (s.ctx.operationsOf n kind ++ s.ctx.exitOf n kind) s (kind.compile s n) := by
  cases kind with
  | functionEntry data => exact emits_functionEntry data
  | functionResult => exact emits_functionResult
  | event data => exact emits_gotoThen
  | callFunction call => exact emits_callFunction call
  | variableSet var => exact emits_variableSet henlisted hkind h
  | branch => exact emits_branch
  | makeArray element count =>
    rw [show s.ctx.exitOf n (.makeArray element count) = [] from rfl, List.append_nil]
    exact emits_makeArray
  | _ => exact .nil n s

theorem emits_markNode (env : CompileEnv) (kind : NodeKind) :
    Emits n (s.ctx.marksOf n env kind) s (s.markNode env n kind) := by
  unfold markNode marksOf
  split
  · exact .nil n s
  · have hflags : ∀ statement, (s.append n statement).ctx.flags = s.ctx.flags := fun _ ↦ rfl
    cases env.options.emitNodeComments <;> cases hdebug : s.ctx.flags.createDebugData <;>
      simp only [if_true, if_false, Bool.false_eq_true, hflags, hdebug]
    · exact .nil n s
    · exact .append _
    · exact .append _
    · exact (Emits.append _).trans (.append _)

end Kinds

/-! ## All nodes -/

/-- What the nodes of a list emit together, if each of them is as it must be. -/
structure EmitsAll (code : NodeId → List Statement) (ok : NodeId → Prop) (list : List NodeId)
    (s s' : FunctionState) : Prop where
  frame : ∃ table failed log, s' = { s with
    ctx := { s.ctx with nodeStatements := table, failed }, log }
  numErrors_le : s.log.numErrors ≤ s'.log.numErrors
  exact : s'.log.numErrors ≤ s.log.numErrors → s'.ctx.failed = s.ctx.failed ∧
    (∀ n ∈ list, ok n) ∧
    ∀ m, s'.ctx.statementsOf m = s.ctx.statementsOf m ++ (list.filter (· = m)).flatMap code

namespace EmitsAll

variable {code : NodeId → List Statement} {ok : NodeId → Prop} {list : List NodeId} {n : NodeId}
  {s s' s'' : FunctionState}

theorem nil (code : NodeId → List Statement) (ok : NodeId → Prop) (s : FunctionState) :
    EmitsAll code ok [] s s :=
  ⟨⟨_, _, _, rfl⟩, Nat.le_refl _, fun _ ↦ ⟨rfl, by simp, fun m ↦ by simp⟩⟩

theorem cons (h : Emits n (code n) s s') (hok : s'.log.numErrors ≤ s.log.numErrors → ok n)
    (h' : EmitsAll code ok list s' s'') : EmitsAll code ok (n :: list) s s'' where
  frame := by
    obtain ⟨table, failed, log, rfl⟩ := h'.frame
    obtain ⟨new, log', rfl, -, -⟩ := h
    obtain ⟨table', htable'⟩ := appendAll_eq (c := s.ctx) (n := n) new
    exact ⟨table, failed, log, by rw [htable']⟩
  numErrors_le := Nat.le_trans h.numErrors_le h'.numErrors_le
  exact hlog := by
    obtain ⟨hfailed, hlist, hcode⟩ := h'.exact (Nat.le_trans hlog h.numErrors_le)
    have hfirst := Nat.le_trans h'.numErrors_le hlog
    obtain ⟨table, htable⟩ := h.exists_table
    refine ⟨hfailed.trans (by rw [htable]), fun m hm ↦ ?_, fun m ↦ ?_⟩
    · rcases List.mem_cons.1 hm with rfl | hm
      · exact hok hfirst
      · exact hlist m hm
    · rw [hcode m, h.statementsOf hfirst]
      by_cases hm : m = n
      · simp [hm]
      · simp [hm, Ne.symm hm]

/-- A node that cannot be compiled is an error. -/
theorem stop (code : NodeId → List Statement) (ok : NodeId → Prop) (list : List NodeId)
    (s : FunctionState) (text : String) (tokens : List SourceToken) :
    EmitsAll code ok list s (s.error text tokens).fail where
  frame := ⟨s.ctx.nodeStatements, true, s.log.error text tokens, rfl⟩
  numErrors_le := Nat.le_succ _
  exact hlog := absurd hlog (Nat.not_succ_le_self _)

end EmitsAll

/-- Compiling the scheduled nodes gives each its code, unless an error is reported. -/
theorem emitsAll_emitNodes (env : CompileEnv) (list : List NodeId) {s : FunctionState}
    (henlisted : s.ctx.Enlisted) (hsettled : ∀ n ∈ list, s.ctx.Settled s.cls n) :
    EmitsAll (s.ctx.codeOfNode · env) (s.ctx.Compilable · env) list s (emitNodes env list s) := by
  induction list generalizing s with
  | nil => exact .nil _ _ s
  | cons n list ih =>
    unfold emitNodes
    cases hkind : s.graph.kind? n with
    | none =>
      have hcode : s.ctx.codeOfNode n env = [] := by simp only [codeOfNode, hkind]
      refine .cons (by rw [hcode]; exact .nil n s) (fun _ kind h ↦ ?_)
        (ih henlisted fun m hm ↦ hsettled m (List.mem_cons_of_mem n hm))
      cases hkind.symm.trans h
    | some kind =>
      dsimp only
      split
      · next hhandles =>
        have hmarks := emits_markNode (n := n) (s := s) env kind
        obtain ⟨table, htable⟩ := hmarks.exists_table
        have hcompile : Emits n (s.ctx.operationsOf n kind ++ s.ctx.exitOf n kind)
            (s.markNode env n kind) (kind.compile (s.markNode env n kind) n) := by
          have hcode := emits_compile (n := n) (s := s.markNode env n kind)
            (by rw [htable]; exact henlisted)
            (by rw [graph, htable]; exact hkind : _ = some kind)
            (by
              rw [htable, hmarks.cls_eq]
              exact (hsettled n List.mem_cons_self).congr rfl rfl)
          rw [htable] at hcode
          exact hcode
        have hnode : Emits n (s.ctx.codeOfNode n env) s (kind.compile (s.markNode env n kind) n) := by
          simp only [codeOfNode, hkind]
          exact hmarks.trans hcompile
        obtain ⟨table', htable'⟩ := hnode.exists_table
        have hrest := ih (s := kind.compile (s.markNode env n kind) n)
          (by rw [htable']; exact henlisted) (fun m hm ↦ by
            rw [htable', hnode.cls_eq]
            exact (hsettled m (List.mem_cons_of_mem n hm)).congr rfl rfl)
        rw [htable'] at hrest
        refine .cons hnode (fun hlog kind' h ↦ ?_) hrest
        cases hkind.symm.trans h
        refine ⟨hhandles, fun hbranch ↦ ?_⟩
        subst hbranch
        have hexit := branchExit_ne_nil (s := s.markNode env n .branch) (n := n)
          (Nat.le_trans hlog hmarks.numErrors_le)
        rw [htable] at hexit
        exact hexit
      · exact .stop ..

end FunctionState

end VisualScript
