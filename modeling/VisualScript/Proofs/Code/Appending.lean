import VisualScript.Proofs.Code.Emission
import VisualScript.Proofs.Code.Inlining

/-!
# What a node appends

Compiling a node reads the graph and the terminals but no code.  So whatever code there
is already, it does the same and appends the same code to that of the node, even where
it reports errors.
-/

namespace VisualScript

namespace Statement

/-- A statement that a node appends by itself: no mark, and jumps to pins only. -/
def IsPlain (s : Statement) : Prop := s.JumpsToPins ∧ s.isMarker = false

theorem isPlain_of_isOperation {s : Statement} (h : s.isOperation = true) : s.IsPlain := by
  refine ⟨jumpsToPins_of_isStraight (isStraight_of_isOperation h), ?_⟩
  cases s <;> first | rfl | cases h

end Statement

/-- A table with more code of a node. -/
def appendCode (n : NodeId) (code : List Statement) (table : List (NodeId × List Statement)) :
    List (NodeId × List Statement) :=
  code.foldl (fun table s ↦ Assoc.update n [] (· ++ [s]) table) table

theorem appendCode_append (n : NodeId) (code code' : List Statement)
    (table : List (NodeId × List Statement)) :
    appendCode n (code ++ code') table = appendCode n code' (appendCode n code table) :=
  List.foldl_append

namespace FunctionContext

variable (c : FunctionContext) (table : List (NodeId × List Statement))

theorem withCode_appendCode (n : NodeId) (code : List Statement) :
    c.withCode (appendCode n code table) = (c.withCode table).appendAll n code := by
  induction code generalizing table with
  | nil => rfl
  | cons s code ih => exact ih (Assoc.update n [] (· ++ [s]) table)

theorem statementsOf_withCode_appendCode (n m : NodeId) (code : List Statement) :
    (c.withCode (appendCode n code table)).statementsOf m =
      if m = n then (c.withCode table).statementsOf n ++ code
      else (c.withCode table).statementsOf m := by
  rw [withCode_appendCode, statementsOf_appendAll]

end FunctionContext

namespace FunctionState

/-- The state with other code. -/
def withCode (s : FunctionState) (table : List (NodeId × List Statement)) : FunctionState :=
  { s with ctx := s.ctx.withCode table }

section WithCode

variable (s : FunctionState) (table : List (NodeId × List Statement))

@[simp] theorem graph_withCode : (s.withCode table).graph = s.graph := rfl

@[simp] theorem isEventGraph_withCode :
    (s.withCode table).ctx.isEventGraph = s.ctx.isEventGraph := rfl

@[simp] theorem net?_withCode : (s.withCode table).ctx.net? = s.ctx.net? := rfl

@[simp] theorem inputTerm?_withCode : (s.withCode table).ctx.inputTerm? = s.ctx.inputTerm? := rfl

@[simp] theorem findResult?_withCode :
    (s.withCode table).ctx.findResult? = s.ctx.findResult? := rfl

@[simp] theorem inputTerms_withCode : (s.withCode table).inputTerms = s.inputTerms := rfl

@[simp] theorem outputTerms_withCode :
    CallFunction.outputTerms (s.withCode table) = CallFunction.outputTerms s := rfl

@[simp] theorem target?_withCode :
    CallFunction.target? (s.withCode table) = CallFunction.target? s := rfl

end WithCode

/-- Whatever code there is, `f` does the same from the state on and appends the same code to
that of the node. -/
def Appends (n : NodeId) (f : FunctionState → FunctionState) (s : FunctionState) : Prop :=
  ∃ (s' : FunctionState) (code : List Statement), (∀ statement ∈ code, statement.IsPlain) ∧
    ∀ table, f (s.withCode table) = s'.withCode (appendCode n code table)

namespace Appends

variable {n : NodeId} {f g : FunctionState → FunctionState} {s s' : FunctionState}

theorem nothing (s' : FunctionState) (h : ∀ table, f (s.withCode table) = s'.withCode table) :
    Appends n f s :=
  ⟨s', [], by simp, h⟩

theorem error (n : NodeId) (s : FunctionState) (text : String) (tokens : List SourceToken) :
    Appends n (·.error text tokens) s :=
  .nothing (s.error text tokens) fun _ ↦ rfl

theorem missingInput (n : NodeId) (s : FunctionState) (p : PinId) :
    Appends n (·.missingInput p) s :=
  .nothing (s.missingInput p) fun _ ↦ rfl

theorem append (s : FunctionState) {statement : Statement} (h : statement.IsPlain) :
    Appends n (·.append n statement) s :=
  ⟨s, [statement], by simpa using h, fun _ ↦ rfl⟩

theorem operation (s : FunctionState) (statement : Statement) (h : statement.isOperation = true) :
    Appends n (·.append n statement) s :=
  .append s (Statement.isPlain_of_isOperation h)

theorem comp (hf : Appends n f s) (hg : ∀ s, Appends n g s) : Appends n (fun s ↦ g (f s)) s := by
  obtain ⟨s', code, hplain, hf⟩ := hf
  obtain ⟨s'', code', hplain', hg⟩ := hg s'
  refine ⟨s'', code ++ code', fun statement h ↦ ?_, fun table ↦ ?_⟩
  · exact (List.mem_append.1 h).elim (hplain statement) (hplain' statement)
  · rw [appendCode_append, ← hg, ← hf]

theorem congr (hg : Appends n g s) (h : ∀ table, f (s.withCode table) = g (s.withCode table)) :
    Appends n f s := by
  obtain ⟨s', code, hplain, hg⟩ := hg
  exact ⟨s', code, hplain, fun table ↦ (h table).trans (hg table)⟩

theorem foldl {α : Type} {f : FunctionState → α → FunctionState}
    (hf : ∀ s a, Appends n (f · a) s) (l : List α) (s : FunctionState) :
    Appends n (fun s ↦ l.foldl f s) s := by
  induction l generalizing s with
  | nil => exact .nothing s fun _ ↦ rfl
  | cons a l ih => exact .comp (hf s a) ih

/-- What the code of the nodes is afterwards. -/
theorem exists_code (h : Appends n f s) : ∃ code, (∀ statement ∈ code, statement.IsPlain) ∧
    ∀ m, (f s).ctx.statementsOf m =
      if m = n then s.ctx.statementsOf n ++ code else s.ctx.statementsOf m := by
  obtain ⟨s', code, hplain, h⟩ := h
  refine ⟨code, hplain, fun m ↦ ?_⟩
  have hf : f s = s'.withCode (appendCode n code s.ctx.nodeStatements) := h s.ctx.nodeStatements
  rw [hf]
  exact s'.ctx.statementsOf_withCode_appendCode s.ctx.nodeStatements n m code

end Appends

/-! ## The kinds -/

section Kinds

variable (n : NodeId) (s : FunctionState)

theorem isPlain_thenExit (c : FunctionContext) : (c.thenExit n).IsPlain := by
  refine ⟨c.jumpsToPins_thenExit n, ?_⟩
  unfold FunctionContext.thenExit
  split
  · rfl
  · split <;> rfl

theorem appends_gotoThen : Appends n (·.gotoThen n) s :=
  (Appends.append s (isPlain_thenExit n s.ctx)).congr fun _ ↦ rfl

theorem appends_compileEntry : Appends n (FunctionEntry.compile · n) s := by
  by_cases hevent : s.ctx.isEventGraph = true
  · cases ht : (s.graph.findPin? n PinName.entryPoint (some .output)).bind s.ctx.net? with
    | none =>
      exact (Appends.error n s _ _).congr fun table ↦ by
        simp only [FunctionEntry.compile, isEventGraph_withCode, graph_withCode, net?_withCode,
          hevent, ht, if_true]
        rfl
    | some t =>
      have hplain : (Statement.computedGoto t).IsPlain :=
        ⟨fun _ ↦ by simp [Statement.target?], rfl⟩
      exact (Appends.append s hplain).congr fun table ↦ by simp [FunctionEntry.compile, hevent, ht]
  · exact (appends_gotoThen n s).congr fun table ↦ by simp [FunctionEntry.compile, hevent]

theorem appends_assignResult (p : PinId) : Appends n (FunctionResult.assignResult n · p) s := by
  cases hpin : s.graph.pin? p with
  | none => exact .nothing s fun table ↦ by simp [FunctionResult.assignResult, hpin]
  | some pin =>
    cases hrhs : s.ctx.inputTerm? p with
    | none =>
      exact (Appends.missingInput n s p).congr fun table ↦ by
        simp only [FunctionResult.assignResult, graph_withCode, inputTerm?_withCode, hpin, hrhs]
    | some rhs =>
      cases hlhs : s.ctx.findResult? pin.name with
      | none =>
        exact .nothing s fun table ↦ by simp [FunctionResult.assignResult, hpin, hrhs, hlhs]
      | some lhs =>
        exact (Appends.operation s (.assignment lhs rhs) rfl).congr fun table ↦ by
          simp only [FunctionResult.assignResult, graph_withCode, inputTerm?_withCode,
            findResult?_withCode, hpin, hrhs, hlhs]

theorem appends_compileResult : Appends n (FunctionResult.compile · n) s := by
  have hreturn : Statement.gotoReturn.IsPlain := ⟨fun _ ↦ by simp [Statement.target?], rfl⟩
  have hassign := Appends.foldl (fun s p ↦ appends_assignResult n s p)
    (s.graph.filteredPins n .input false) s
  exact (hassign.comp fun s ↦ .append s hreturn).congr fun _ ↦ rfl

theorem appends_compileCall (call : CallData) : Appends n (CallFunction.compile · n call) s := by
  cases hins : s.inputTerms (CallFunction.inputs s.graph n) with
  | error p =>
    exact (Appends.missingInput n s p).congr fun table ↦ by
      simp only [CallFunction.compile, graph_withCode, inputTerms_withCode, hins]
  | ok ins =>
    cases houts : CallFunction.outputTerms s (s.graph.filteredPins n .output false) with
    | error p =>
      exact (Appends.error n s _ _).congr fun table ↦ by
        simp only [CallFunction.compile, graph_withCode, inputTerms_withCode, outputTerms_withCode,
          hins, houts]
        rfl
    | ok outs =>
      let split := outs.partition fun o ↦ CallFunction.isReturn s.graph o.1
      have hcall := Appends.operation (n := n) s (.callFunction call.function
        (CallFunction.target? s n) (ins ++ split.2.map (·.2)) (split.1.getLast?.map (·.2))) rfl
      by_cases hpure : call.isPure = true
      · exact hcall.congr fun table ↦ by
          simp only [CallFunction.compile, graph_withCode, inputTerms_withCode, outputTerms_withCode,
            target?_withCode, hins, houts, hpure, if_true, split]
      · exact (hcall.comp (appends_gotoThen n)).congr fun table ↦ by
          simp [CallFunction.compile, hins, houts, hpure, split]

theorem appends_compileArray : Appends n (MakeArray.compile · n) s := by
  cases harray : (s.graph.findPin? n PinName.array (some .output)).bind s.ctx.net? with
  | none =>
    exact (Appends.error n s _ _).congr fun table ↦ by
      simp only [MakeArray.compile, graph_withCode, net?_withCode, harray]
      rfl
  | some array =>
    cases hins : s.inputTerms (s.graph.filteredPins n .input false) with
    | error p =>
      exact (Appends.missingInput n s p).congr fun table ↦ by
        simp only [MakeArray.compile, graph_withCode, net?_withCode, inputTerms_withCode, harray,
          hins]
    | ok elements =>
      exact (Appends.operation s (.createArray array elements) rfl).congr fun table ↦ by
        simp only [MakeArray.compile, graph_withCode, net?_withCode, inputTerms_withCode, harray,
          hins]

theorem appends_compileBranch : Appends n (Branch.compile · n) s := by
  have hmissing (h : ∀ table, Branch.compile (s.withCode table) n =
      (s.withCode table).error "Branch node @@ is missing pins" [s.graph.nodeToken n]) :
      Appends n (Branch.compile · n) s := (Appends.error n s _ _).congr h
  cases hcondition : s.graph.findPin? n PinName.condition (some .input) with
  | none => exact hmissing fun table ↦ by simp [Branch.compile, hcondition]
  | some condition =>
    cases hthen : s.graph.findPin? n PinName.thenOut (some .output) with
    | none => exact hmissing fun table ↦ by simp [Branch.compile, hthen]
    | some thenPin =>
      cases helse : s.graph.findPin? n PinName.elseOut (some .output) with
      | none => exact hmissing fun table ↦ by simp [Branch.compile, helse]
      | some elsePin =>
        cases ht : s.ctx.inputTerm? condition with
        | none =>
          exact (Appends.missingInput n s condition).congr fun table ↦ by
            simp only [Branch.compile, graph_withCode, inputTerm?_withCode, hcondition, hthen, helse,
              ht]
        | some t =>
          have hbranch : (Statement.gotoIfNot t (.pin elsePin)).IsPlain :=
            ⟨fun _ ↦ by simp [Statement.target?], rfl⟩
          have hgoto : (Statement.unconditionalGoto (.pin thenPin)).IsPlain :=
            ⟨fun _ ↦ by simp [Statement.target?], rfl⟩
          exact ((Appends.append s hbranch).comp fun s ↦ .append s hgoto).congr fun table ↦ by
            simp [Branch.compile, hcondition, hthen, helse, ht]

/-! ### Assignments of variables -/

theorem variableTerm_withCode (c : FunctionContext) (name : String) (ty : PinType)
    (source : Option SourceToken) (table : List (NodeId × List Statement)) :
    (c.withCode table).variableTerm name ty source =
      ((c.variableTerm name ty source).1, (c.variableTerm name ty source).2.withCode table) := by
  have hnamed : (c.withCode table).findNamed? name
      ((c.withCode table).userLocals ++ (c.withCode table).variableReferences) =
    c.findNamed? name (c.userLocals ++ c.variableReferences) := rfl
  simp only [FunctionContext.variableTerm, hnamed]
  cases c.findNamed? name (c.userLocals ++ c.variableReferences) <;> rfl

theorem resolve_withCode (var : VariableReference) (report : Bool)
    (table : List (NodeId × List Statement)) :
    VariableAccess.resolve (s.withCode table) n var report =
      ((VariableAccess.resolve s n var report).1,
        (VariableAccess.resolve s n var report).2.withCode table) := by
  have hlocal : VariableAccess.isUserLocal (s.withCode table).ctx var.name =
    VariableAccess.isUserLocal s.ctx var.name := rfl
  have hctx : (s.withCode table).ctx = s.ctx.withCode table := rfl
  have hcls : (s.withCode table).cls = s.cls := rfl
  unfold VariableAccess.resolve
  rw [hlocal, hcls, hctx, variableTerm_withCode]
  split
  · cases report <;> rfl
  · rfl

theorem resolveMembers_withCode (report : Bool) (table : List (NodeId × List Statement))
    (ps : List PinId) (pairs : List (TermId × PinId)) :
    ps.foldl (VariableSet.resolveMember n report) (pairs, s.withCode table) =
      ((ps.foldl (VariableSet.resolveMember n report) (pairs, s)).1,
        (ps.foldl (VariableSet.resolveMember n report) (pairs, s)).2.withCode table) := by
  induction ps generalizing s pairs with
  | nil => rfl
  | cons p ps ih =>
    rw [List.foldl_cons, List.foldl_cons]
    cases hpin : s.graph.pin? p with
    | none =>
      have hskip (s' : FunctionState) (hs' : s'.graph.pin? p = none) :
          VariableSet.resolveMember n report (pairs, s') p = (pairs, s') := by
        simp only [VariableSet.resolveMember, hs']
      rw [hskip s hpin, hskip (s.withCode table) hpin, ih]
    | some pin =>
      have hpin' : (s.withCode table).graph.pin? p = some pin := hpin
      rw [resolveMember_eq hpin, resolveMember_eq hpin', resolve_withCode, ih]

theorem assignments_withCode (var : Option VariableReference) (report : Bool)
    (table : List (NodeId × List Statement)) :
    VariableSet.assignments (s.withCode table) n var report =
      ((VariableSet.assignments s n var report).1,
        (VariableSet.assignments s n var report).2.withCode table) := by
  cases var with
  | some var => rw [assignments_some, assignments_some, resolve_withCode, graph_withCode]
  | none => exact resolveMembers_withCode n s report table _ []

theorem appends_assign (a : TermId × PinId) : Appends n (VariableSet.assign n · a) s := by
  cases hrhs : s.ctx.inputTerm? a.2 with
  | none =>
    exact (Appends.missingInput n s a.2).congr fun table ↦ by
      simp only [VariableSet.assign, inputTerm?_withCode, hrhs]
  | some rhs =>
    exact (Appends.operation s (.assignment a.1 rhs) rfl).congr fun table ↦ by
      simp only [VariableSet.assign, inputTerm?_withCode, hrhs]

theorem appends_compileSet (var : Option VariableReference) :
    Appends n (VariableSet.compile · n var) s := by
  obtain ⟨s', code, hplain, hcode⟩ :=
    (Appends.foldl (fun s a ↦ appends_assign n s a) (VariableSet.assignments s n var false).1
      (VariableSet.assignments s n var false).2).comp (appends_gotoThen n)
  refine ⟨s', code, hplain, fun table ↦ .trans ?_ (hcode table)⟩
  simp only [VariableSet.compile, assignments_withCode]

/-- Whatever its kind, a node appends to its code only. -/
theorem appends_compile (kind : NodeKind) : Appends n (kind.compile · n) s := by
  cases kind with
  | functionEntry data => exact appends_compileEntry n s
  | functionResult => exact appends_compileResult n s
  | event data => exact appends_gotoThen n s
  | callFunction call => exact appends_compileCall n s call
  | variableSet var => exact appends_compileSet n s var
  | branch => exact appends_compileBranch n s
  | makeArray element count => exact appends_compileArray n s
  | _ => exact .nothing s fun _ ↦ rfl

end Kinds

end FunctionState

end VisualScript
