import VisualScript.Compile.Emit
import VisualScript.Proofs.Terminals.Registration

/-!
# Compiling nodes

Every kind of node compiles by steps of its own.  So a compile keeps the function
and its errors whatever state the terminals are in.
-/

namespace VisualScript.FunctionState

section Steps

variable {n : NodeId} {s : FunctionState}

theorem steps_append (statement : Statement) : CompileSteps n s (s.append n statement) :=
  .single (.append statement trivial)

theorem steps_compileEntry : CompileSteps n s (FunctionEntry.compile s n) := by
  unfold FunctionEntry.compile
  split
  · split
    · exact steps_append _
    · exact steps_error _ _
  · exact steps_append _

theorem steps_assignResult (p : PinId) :
    CompileSteps n s (FunctionResult.assignResult n s p) := by
  unfold FunctionResult.assignResult
  split
  · exact .refl
  · split
    · exact steps_error _ _
    · split
      · exact .refl
      · exact steps_append _

theorem steps_compileCall (call : CallData) : CompileSteps n s (CallFunction.compile s n call) := by
  unfold CallFunction.compile
  split
  · exact steps_error _ _
  · split
    · exact steps_error _ _
    · dsimp only
      split
      · exact steps_append _
      · exact (steps_append _).trans (steps_append _)

theorem steps_compileBranch : CompileSteps n s (Branch.compile s n) := by
  unfold Branch.compile
  split
  · split
    · exact steps_error _ _
    · exact (steps_append _).trans (steps_append _)
  · exact steps_error _ _

theorem steps_compileArray : CompileSteps n s (MakeArray.compile s n) := by
  unfold MakeArray.compile
  split
  · exact steps_error _ _
  · split
    · exact steps_error _ _
    · exact steps_append _

theorem steps_assign (a : TermId × PinId) : CompileSteps n s (VariableSet.assign n s a) := by
  unfold VariableSet.assign
  split
  · exact steps_error _ _
  · exact steps_append _

/-- Whatever its kind, a node compiles by steps of its own. -/
theorem steps_compile {kind : NodeKind} (hkind : s.graph.kind? n = some kind) :
    CompileSteps n s (kind.compile s n) := by
  cases kind with
  | functionEntry data => exact steps_compileEntry
  | functionResult =>
    exact (steps_foldl_sameFunction fun _ _ p _ ↦ steps_assignResult p).trans (steps_append _)
  | event data => exact steps_append _
  | callFunction call => exact steps_compileCall call
  | variableSet var =>
    have hvariables : CompileSteps n s (VariableSet.assignments s n var false).2 := by
      refine steps_assignments ?_ hkind false
      rfl
    exact hvariables.trans
      ((steps_foldl_sameFunction fun _ _ a _ ↦ steps_assign a).trans (steps_append _))
  | branch => exact steps_compileBranch
  | makeArray element count => exact steps_compileArray
  | _ => exact .refl

theorem steps_markNode (env : CompileEnv) (kind : NodeKind) :
    CompileSteps n s (s.markNode env n kind) := by
  have hdebug (s' : FunctionState) : CompileSteps n s'
      (if s'.ctx.flags.createDebugData then s'.append n (.debugSite n) else s') := by
    split
    · exact steps_append _
    · exact .refl
  unfold markNode
  split
  · exact .refl
  · dsimp only
    split
    · exact (steps_append _).trans (hdebug _)
    · exact hdebug s

end Steps

theorem graphSteps_emitNodes (env : CompileEnv) (list : List NodeId) (s : FunctionState) :
    GraphSteps (· = .memberReference) True s (emitNodes env list s) := by
  induction list generalizing s with
  | nil => exact .refl
  | cons n list ih =>
    unfold emitNodes
    split
    · exact ih s
    · next kind hkind =>
      have hmark := steps_markNode (n := n) (s := s) env kind
      split
      · rw [← hmark.sameFunction.graph] at hkind
        exact (NodeSteps.graphSteps (hmark.trans (steps_compile hkind))).trans (ih _)
      · exact .single ⟨n, .stop _ _⟩

end VisualScript.FunctionState
