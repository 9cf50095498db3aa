import VisualScript.Proofs.Code.Appending
import VisualScript.Proofs.Code.Inlining
import VisualScript.Proofs.Code.Steps

/-!
# Code with comments and without

A node may begin its code with a comment, and a mark for the debugger follows it.  The
code with comments and that without are made alike: no node looks at code, and where
inlining asks whether a node has code, comments do not count.
-/

namespace VisualScript

/-- The first code has comments before marks for the debugger, and the second leaves these
comments out. -/
inductive Commented : List Statement → List Statement → Prop
  | nil : Commented [] []
  | keep {s : Statement} {code plain : List Statement} : (∀ text, s ≠ .comment text) →
      Commented code plain → Commented (s :: code) (s :: plain)
  | comment {text : String} {n : NodeId} {code plain : List Statement} : Commented code plain →
      Commented (.comment text :: .debugSite n :: code) (.debugSite n :: plain)

namespace Commented

variable {code code' plain plain' : List Statement}

theorem refl (h : ∀ s ∈ code, ∀ text, s ≠ .comment text) : Commented code code := by
  induction code with
  | nil => exact .nil
  | cons s code ih =>
    exact .keep (h s List.mem_cons_self) (ih fun t ht ↦ h t (List.mem_cons_of_mem s ht))

theorem append (h : Commented code plain) (h' : Commented code' plain') :
    Commented (code ++ code') (plain ++ plain') := by
  induction h with
  | nil => exact h'
  | keep hs _ ih => exact .keep hs ih
  | comment _ ih => exact .comment ih

theorem any_isMarker (h : Commented code plain) :
    code.any (!·.isMarker) = plain.any (!·.isMarker) := by
  induction h with
  | nil => rfl
  | keep hs _ ih => rw [List.any_cons, List.any_cons, ih]
  | comment _ ih => simpa [Statement.isMarker] using ih

theorem isEmpty (h : Commented code plain) : code.isEmpty = plain.isEmpty := by
  cases h <;> rfl

/-- The last statement is no comment. -/
theorem getLast? (h : Commented code plain) : code.getLast? = plain.getLast? := by
  induction h with
  | nil => rfl
  | @keep s code plain _ h ih =>
    cases h with
    | nil => rfl
    | keep _ _ => simpa [List.getLast?_cons_cons] using ih
    | comment _ => simpa [List.getLast?_cons_cons] using ih
  | @comment _ _ code plain h ih =>
    cases h with
    | nil => rfl
    | keep _ _ => simpa [List.getLast?_cons_cons] using ih
    | comment _ => simpa [List.getLast?_cons_cons] using ih

/-- A statement at the end that is no mark can be left out. -/
theorem dropLast {s : Statement} (h : Commented code plain) (hlast : code.getLast? = some s)
    (hs : s.isMarker = false) : Commented code.dropLast plain.dropLast := by
  induction h with
  | nil => cases hlast
  | @keep t code plain ht h ih =>
    cases h with
    | nil => exact .nil
    | keep _ _ =>
      rw [List.getLast?_cons_cons] at hlast
      exact .keep ht (ih hlast)
    | comment _ =>
      rw [List.getLast?_cons_cons] at hlast
      exact .keep ht (ih hlast)
  | @comment _ n code plain h ih =>
    cases h with
    | nil =>
      cases hlast
      cases hs
    | keep _ _ =>
      rw [List.getLast?_cons_cons, List.getLast?_cons_cons] at hlast
      exact .comment (ih hlast)
    | comment _ =>
      rw [List.getLast?_cons_cons, List.getLast?_cons_cons] at hlast
      exact .comment (ih hlast)

end Commented

/-! ## Inlining -/

namespace FunctionContext

/-- The first function has comments in its code, and else the two are the same. -/
structure Annotates (c d : FunctionContext) : Prop where
  frame : ∃ table, d = c.withCode table
  code (n : NodeId) : Commented (c.statementsOf n) (d.statementsOf n)

namespace Annotates

variable {c d : FunctionContext} (h : c.Annotates d)
include h

theorem graph : d.graph = c.graph := by
  obtain ⟨table, rfl⟩ := h.frame
  rfl

theorem generatedCode (n : NodeId) : d.generatedCode n = c.generatedCode n :=
  (h.code n).any_isMarker.symm

theorem prependStatements (dest source : NodeId) :
    (c.prependStatements dest source).Annotates (d.prependStatements dest source) where
  frame := by
    obtain ⟨table, rfl⟩ := h.frame
    obtain ⟨table₁, heq₁⟩ := prependStatements_eq c dest source
    obtain ⟨table₂, heq₂⟩ := prependStatements_eq (c.withCode table) dest source
    exact ⟨table₂, by rw [heq₂, heq₁]; rfl⟩
  code n := by
    rw [statementsOf_prependStatements, statementsOf_prependStatements]
    split
    · exact (h.code source).append (h.code dest)
    · exact h.code n

end Annotates

end FunctionContext

namespace Inline

/-- Two walks along the execution list that differ in comments only. -/
structure State.Annotates (s t : State) : Prop where
  ctx : s.ctx.Annotates t.ctx
  needed : t.needed = s.needed
  kept : t.kept = s.kept

namespace State.Annotates

variable {s t : State} (h : s.Annotates t)
include h

theorem step (schedule : List NodeId) (n : NodeId) :
    (Inline.step schedule s n).Annotates (Inline.step schedule t n) := by
  unfold Inline.step
  rw [h.ctx.graph]
  split
  · unfold propagate
    dsimp only
    rw [h.needed, h.ctx.graph, h.ctx.generatedCode]
    split
    · exact ⟨h.ctx, rfl, h.kept⟩
    · exact h
  · unfold finish
    rw [h.needed, h.kept]
    refine ⟨?_, rfl, rfl⟩
    have hfold (sources : List NodeId) {c d : FunctionContext} (h : c.Annotates d) :
        (sources.foldl (fun c p ↦ c.prependStatements n p) c).Annotates
          (sources.foldl (fun c p ↦ c.prependStatements n p) d) := by
      induction sources generalizing c d with
      | nil => exact h
      | cons p sources ih => exact ih (h.prependStatements n p)
    exact hfold _ h.ctx

theorem foldl (schedule list : List NodeId) :
    (list.foldl (Inline.step schedule) s).Annotates (list.foldl (Inline.step schedule) t) := by
  induction list generalizing s t with
  | nil => exact h
  | cons n list ih => exact ih (h.step schedule n)

end State.Annotates

end Inline

theorem FunctionContext.Annotates.inlinePureNodes {c d : FunctionContext} (h : c.Annotates d) :
    c.inlinePureNodes.Annotates d.inlinePureNodes := by
  have hlist : d.executionList = c.executionList := by
    obtain ⟨table, rfl⟩ := h.frame
    rfl
  have hwalk : ({ ctx := c } : Inline.State).Annotates { ctx := d } := ⟨h, rfl, rfl⟩
  replace hwalk := hwalk.foldl c.executionList c.executionList
  unfold FunctionContext.inlinePureNodes
  dsimp only
  rw [hlist, hwalk.kept]
  obtain ⟨table, htable⟩ := hwalk.ctx.frame
  exact ⟨⟨table, by rw [htable]; rfl⟩, hwalk.ctx.code⟩

/-! ## Emitting -/

/-- The same with comments or without. -/
def CompileEnv.withComments (env : CompileEnv) (comments : Bool) : CompileEnv :=
  { env with options.emitNodeComments := comments }

namespace FunctionState

/-- Two states that differ in comments only. -/
structure Annotates (s t : FunctionState) : Prop where
  frame : ∃ table, t = s.withCode table
  code (n : NodeId) : Commented (s.ctx.statementsOf n) (t.ctx.statementsOf n)

namespace Annotates

variable {s t : FunctionState} {env env' : CompileEnv} {n : NodeId} (h : s.Annotates t)
include h

theorem ctx : s.ctx.Annotates t.ctx := by
  obtain ⟨table, rfl⟩ := h.frame
  exact ⟨⟨table, rfl⟩, h.code⟩

theorem appends {f : FunctionState → FunctionState} (hs : Appends n f s) :
    (f s).Annotates (f t) := by
  obtain ⟨table, rfl⟩ := h.frame
  obtain ⟨s', code, hplain, hf⟩ := hs
  have hs' : f s = s'.withCode (appendCode n code s.ctx.nodeStatements) := hf s.ctx.nodeStatements
  rw [hs', hf]
  refine ⟨⟨appendCode n code table, rfl⟩, fun m ↦ ?_⟩
  have hcode : Commented code code := .refl fun statement hs text htext ↦ by
    rw [htext] at hs
    exact Bool.noConfusion (hplain _ hs).2
  have hold : ∀ m, Commented ((s'.ctx.withCode s.ctx.nodeStatements).statementsOf m)
      ((s'.ctx.withCode table).statementsOf m) := h.code
  have hold_n := hold n
  have hold_m := hold m
  change Commented ((s'.ctx.withCode (appendCode n code s.ctx.nodeStatements)).statementsOf m)
    ((s'.ctx.withCode (appendCode n code table)).statementsOf m)
  rw [FunctionContext.statementsOf_withCode_appendCode,
    FunctionContext.statementsOf_withCode_appendCode]
  split
  · exact hold_n.append hcode
  · exact hold_m

/-- The marks of a node are a comment, or not, and then a mark for the debugger. -/
theorem markNode (env : CompileEnv) (hdebug : s.ctx.flags.createDebugData = true) (n : NodeId)
    (kind : NodeKind) : (s.markNode (env.withComments true) n kind).Annotates
      (t.markNode (env.withComments false) n kind) := by
  obtain ⟨table, rfl⟩ := h.frame
  have hdebug' : (s.withCode table).ctx.flags.createDebugData = true := hdebug
  have hdebug'' (statement : Statement) :
    (s.append n statement).ctx.flags.createDebugData = true := hdebug
  unfold FunctionState.markNode
  rw [isEventGraph_withCode]
  split
  · exact h
  · simp only [CompileEnv.withComments, if_true, Bool.false_eq_true, if_false, hdebug', hdebug'']
    refine ⟨⟨_, rfl⟩, fun m ↦ ?_⟩
    unfold append
    simp only [FunctionContext.statementsOf_append, if_true]
    split
    · rw [List.append_assoc]
      exact (h.code n).append (.comment .nil)
    · exact h.code m

theorem emitNodes (env : CompileEnv) (hdebug : s.ctx.flags.createDebugData = true)
    (list : List NodeId) : (FunctionState.emitNodes (env.withComments true) list s).Annotates
      (FunctionState.emitNodes (env.withComments false) list t) := by
  induction list generalizing s t with
  | nil => exact h
  | cons n list ih =>
    unfold FunctionState.emitNodes
    have hgraph : t.graph = s.graph := h.ctx.graph
    rw [hgraph]
    cases hkind : s.graph.kind? n with
    | none => exact ih h hdebug
    | some kind =>
      have hmarks := steps_markNode (n := n) (s := s) (env.withComments true) kind
      dsimp only
      have hhandles : (env.withComments false).handles kind =
        (env.withComments true).handles kind := rfl
      rw [hhandles]
      split
      · refine ih ((h.markNode env hdebug n kind).appends (appends_compile n _ kind)) ?_
        rw [(steps_compile (hmarks.sameFunction.graph ▸ hkind)).sameFunction.flags,
          hmarks.sameFunction.flags]
        exact hdebug
      · obtain ⟨table, rfl⟩ := h.frame
        exact ⟨⟨table, rfl⟩, h.code⟩

/-- A function compiles to the same code but for comments. -/
theorem compile (env : CompileEnv) (hdebug : s.ctx.flags.createDebugData = true) :
    (s.compile (env.withComments true)).Annotates (t.compile (env.withComments false)) := by
  have hemit := h.emitNodes env hdebug s.ctx.executionList
  obtain ⟨table, rfl⟩ := h.frame
  unfold FunctionState.compile
  have hgiven : ((s.withCode table).ctx.failed || (s.withCode table).ctx.flags.interfaceStub) =
    (s.ctx.failed || s.ctx.flags.interfaceStub) := rfl
  rw [hgiven]
  split
  · exact h
  · dsimp only
    have hlist : (s.withCode table).ctx.executionList = s.ctx.executionList := rfl
    rw [hlist]
    generalize FunctionState.emitNodes (env.withComments true) s.ctx.executionList s = s' at hemit
    generalize FunctionState.emitNodes (env.withComments false) s.ctx.executionList
      (s.withCode table) = t' at hemit
    have hinline := hemit.ctx.inlinePureNodes
    obtain ⟨table', rfl⟩ := hemit.frame
    have hfailed : (s'.withCode table').ctx.failed = s'.ctx.failed := rfl
    rw [hfailed]
    split
    · exact hemit
    · obtain ⟨table'', heq⟩ := hinline.frame
      exact ⟨⟨table'', congrArg (fun ctx ↦ { s' with ctx := ctx }) heq⟩, hinline.code⟩

end Annotates

end FunctionState

end VisualScript
