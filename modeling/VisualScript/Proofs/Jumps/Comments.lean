import VisualScript.Proofs.Code.Comments
import VisualScript.Proofs.Compile.Walking
import VisualScript.Proofs.Jumps.Confined
import VisualScript.Proofs.Run.Script

/-!
# Comments among resolved jumps

Comments never come last in the code of a node nor make up all of it, so the same jumps
are dropped with comments and without.  What is left comes at indices that are lower by
the number of comments before.
-/

namespace VisualScript

/-! ## Code without comments -/

namespace Statement

def isComment : Statement → Bool
  | comment _ => true
  | _ => false

@[simp]
theorem isComment_mapTarget (f : GotoTarget → GotoTarget) (s : Statement) :
    (s.mapTarget f).isComment = s.isComment := by cases s <;> rfl

theorem mapTarget_mapTarget (f g : GotoTarget → GotoTarget) (s : Statement) :
    (s.mapTarget f).mapTarget g = s.mapTarget (g ∘ f) := by cases s <;> rfl

theorem mapTarget_congr {f g : GotoTarget → GotoTarget} {s : Statement}
    (h : ∀ target, s.target? = some target → f target = g target) :
    s.mapTarget f = s.mapTarget g := by
  cases s with
  | unconditionalGoto target => exact congrArg unconditionalGoto (h target rfl)
  | gotoIfNot condition target => exact congrArg (gotoIfNot condition) (h target rfl)
  | _ => rfl

end Statement

/-- Changes the index that a jump is resolved to. -/
def GotoTarget.map (f : Nat → Nat) : GotoTarget → GotoTarget
  | resolved index => resolved (f index)
  | pin p => pin p

theorem Commented.eq_filter {code plain : List Statement} (h : Commented code plain) :
    plain = code.filter (!·.isComment) := by
  induction h with
  | nil => rfl
  | @keep s code plain hs _ ih =>
    have hkeep : s.isComment = false := by
      cases s with
      | comment text => exact absurd rfl (hs text)
      | _ => rfl
    rw [List.filter_cons_of_pos (by simp [hkeep]), ← ih]
  | comment _ ih =>
    rw [List.filter_cons_of_neg (by simp [Statement.isComment]),
      List.filter_cons_of_pos (by simp [Statement.isComment]), ← ih]

namespace FunctionContext

/-! ## Dropping jumps -/

namespace Annotates

variable {c d : FunctionContext} (h : c.Annotates d)
include h

theorem hasCode (n : NodeId) : d.hasCode n = c.hasCode n := by
  rw [FunctionContext.hasCode, FunctionContext.hasCode, (h.code n).isEmpty]

theorem isEventGraph : d.isEventGraph = c.isEventGraph := by
  obtain ⟨table, rfl⟩ := h.frame
  rfl

/-- The last statements are the same, and so is what they lead to. -/
theorem endsRedundantly (list after : List NodeId) (n : NodeId) :
    d.endsRedundantly list after n = c.endsRedundantly list after n := by
  have hcode : d.hasCode = c.hasCode := funext h.hasCode
  unfold FunctionContext.endsRedundantly effectiveTarget? gotoNode?
  rw [(h.code n).getLast?, hcode, h.graph, h.isEventGraph]

theorem dropLastOf {n : NodeId} (hends : ∃ s, (c.statementsOf n).getLast? = some s ∧
    s.isMarker = false) : (c.dropLastOf n).Annotates (d.dropLastOf n) where
  frame := by
    obtain ⟨table, rfl⟩ := h.frame
    exact ⟨_, rfl⟩
  code m := by
    obtain ⟨s, hlast, hs⟩ := hends
    rw [statementsOf_dropLastOf, statementsOf_dropLastOf]
    split
    · exact (h.code n).dropLast hlast hs
    · exact h.code m

omit h in
theorem exists_getLast?_of_endsRedundantly {list after : List NodeId} {n : NodeId}
    (hends : c.endsRedundantly list after n = true) :
    ∃ s, (c.statementsOf n).getLast? = some s ∧ s.isMarker = false := by
  unfold FunctionContext.endsRedundantly at hends
  dsimp only at hends
  split at hends
  · next hlast => exact ⟨_, hlast, rfl⟩
  · next hlast => exact ⟨_, hlast, rfl⟩
  · cases hends

theorem dropRedundantJumps (list rest : List NodeId) :
    (FunctionContext.dropRedundantJumps list rest c).Annotates
      (FunctionContext.dropRedundantJumps list rest d) := by
  induction rest with
  | nil => exact h
  | cons n rest ih =>
    simp only [FunctionContext.dropRedundantJumps]
    rw [ih.endsRedundantly]
    split
    · next hends => exact ih.dropLastOf (exists_getLast?_of_endsRedundantly hends)
    · exact ih

theorem flatten (list : List NodeId) :
    d.flatten list = (c.flatten list).filter (!·.isComment) := by
  rw [FunctionContext.flatten, FunctionContext.flatten, List.filter_flatMap]
  exact List.flatMap_congr fun n _ ↦ (h.code n).eq_filter

theorem tail : d.tail = c.tail := by
  rw [FunctionContext.tail, h.isEventGraph]
  rfl

omit h in
theorem filter_tail (c : FunctionContext) : c.tail.filter (!·.isComment) = c.tail := by
  unfold FunctionContext.tail
  split <;> rfl

theorem codeOf (list : List NodeId) :
    d.codeOf list = (c.codeOf list).filter (!·.isComment) := by
  rw [FunctionContext.codeOf, FunctionContext.codeOf, List.filter_append, filter_tail, h.flatten,
    h.tail]

/-- The code of a node begins at an index that is lower by the number of comments before. -/
theorem startOf (list : List NodeId) (n : NodeId) :
    d.startOf list n = renumber Statement.isComment (c.codeOf list) (c.startOf list n) := by
  have hsplit : c.codeOf list = c.flatten (list.takeWhile (· ≠ n)) ++
      c.codeOf (list.dropWhile (· ≠ n)) := by
    rw [FunctionContext.codeOf, FunctionContext.codeOf, ← List.append_assoc, ← flatten_append,
      List.takeWhile_append_dropWhile]
  rw [FunctionContext.startOf, FunctionContext.startOf, hsplit, renumber_append_length, h.flatten]

theorem length_flatten (list : List NodeId) : (d.flatten list).length =
    renumber Statement.isComment (c.codeOf list) (c.flatten list).length := by
  rw [FunctionContext.codeOf, renumber_append_length, h.flatten]

theorem lookup_labels {list : List NodeId} (hnodup : list.Nodup) (n : NodeId) :
    (Assoc.setAll [] (d.labelsFrom 0 list)).lookup n =
      ((Assoc.setAll [] (c.labelsFrom 0 list)).lookup n).map
        (renumber Statement.isComment (c.codeOf list)) := by
  rw [FunctionContext.lookup_labels d hnodup, FunctionContext.lookup_labels c hnodup]
  split
  · rw [h.startOf, Option.map_some]
  · rfl

/-- A pin is resolved to the index that is lower by the number of comments before. -/
theorem resolveTarget_pin {list : List NodeId} (hnodup : list.Nodup) (p : PinId) :
    d.resolveTarget (Assoc.setAll [] (d.labelsFrom 0 list)) (d.flatten list).length (.pin p) =
      (c.resolveTarget (Assoc.setAll [] (c.labelsFrom 0 list)) (c.flatten list).length
        (.pin p)).map (renumber Statement.isComment (c.codeOf list)) := by
  have hnode : d.gotoNode? p = c.gotoNode? p := by
    rw [gotoNode?, gotoNode?, h.graph]
  simp only [resolveTarget, hnode, GotoTarget.map]
  cases c.gotoNode? p with
  | none => exact congrArg _ (h.length_flatten list)
  | some n =>
    simp only [Option.bind_some, h.lookup_labels hnodup]
    cases (Assoc.setAll [] (c.labelsFrom 0 list)).lookup n with
    | none => exact congrArg _ (h.length_flatten list)
    | some i => rfl

end Annotates

/-! ## Resolved code -/

/-- The second function is the first without its comments. -/
structure Uncomments (c d : FunctionContext) : Prop where
  frame : ∃ table code labels, d =
    { c.withCode table with statements := code, nodeLabels := labels }
  code : d.statements = (c.statements.filter (!·.isComment)).map
    (·.mapTarget (.map (renumber Statement.isComment c.statements)))
  labels (n : NodeId) : d.nodeLabels.lookup n =
    (c.nodeLabels.lookup n).map (renumber Statement.isComment c.statements)

theorem renumber_map_mapTarget (f : GotoTarget → GotoTarget) (code : List Statement) :
    renumber Statement.isComment (code.map (·.mapTarget f)) = renumber Statement.isComment code := by
  funext k
  rw [renumber_map]
  exact congrArg (renumber · code k) (funext (Statement.isComment_mapTarget f))

/-- Jumps to pins are resolved alike. -/
theorem Annotates.resolveJumps {c d : FunctionContext} (h : c.Annotates d) (hpins : c.CodeToPins)
    (hnodup : c.executionList.Nodup) : c.resolveJumps.Uncomments d.resolveJumps := by
  have hlist : d.executionList = c.executionList := by
    obtain ⟨table, rfl⟩ := h.frame
    rfl
  let c' := FunctionContext.dropRedundantJumps c.executionList c.executionList c
  let d' := FunctionContext.dropRedundantJumps c.executionList c.executionList d
  let f := c'.resolveTarget (Assoc.setAll [] (c'.labelsFrom 0 c.executionList))
    (c'.flatten c.executionList).length
  let g := d'.resolveTarget (Assoc.setAll [] (d'.labelsFrom 0 c.executionList))
    (d'.flatten c.executionList).length
  have hdropped : c'.Annotates d' := h.dropRedundantJumps _ _
  have hc : c.resolveJumps = { c' with
      statements := (c'.codeOf c.executionList).map (·.mapTarget f)
      nodeLabels := Assoc.setAll [] (c'.labelsFrom 0 c.executionList) } := rfl
  have hd : d.resolveJumps = { d' with
      statements := (d'.codeOf c.executionList).map (·.mapTarget g)
      nodeLabels := Assoc.setAll [] (d'.labelsFrom 0 c.executionList) } := by
    unfold FunctionContext.resolveJumps
    rw [hlist]
    rfl
  have hjumps : ∀ s ∈ c'.codeOf c.executionList, s.JumpsToPins := by
    intro s hs
    rcases List.mem_append.1 hs with hs | hs
    · obtain ⟨n, -, hs⟩ := List.mem_flatMap.1 hs
      exact hpins.dropRedundantJumps _ _ n s hs
    · exact jumpsToPins_of_mem_tail hs
  have hindex : renumber Statement.isComment c.resolveJumps.statements =
      renumber Statement.isComment (c'.codeOf c.executionList) := by
    rw [hc]
    exact renumber_map_mapTarget f _
  refine ⟨?_, ?_, fun n ↦ ?_⟩
  · obtain ⟨table, htable⟩ := hdropped.frame
    rw [hd, hc, htable]
    exact ⟨table, _, _, rfl⟩
  · have hkept : (fun s : Statement ↦ !s.isComment) ∘ (fun s : Statement ↦ s.mapTarget f) =
        fun s ↦ !s.isComment := funext fun s ↦ congrArg (!·) (s.isComment_mapTarget f)
    rw [hindex, hd, hc]
    dsimp only
    rw [hdropped.codeOf, List.filter_map, hkept, List.map_map]
    refine List.map_congr_left fun s hs ↦ ?_
    rw [Function.comp_apply, Statement.mapTarget_mapTarget]
    refine Statement.mapTarget_congr fun target htarget ↦ ?_
    cases target with
    | resolved i => exact absurd htarget (hjumps s (List.mem_filter.1 hs).1 i)
    | pin p => exact hdropped.resolveTarget_pin hnodup p
  · rw [hindex, hd, hc]
    exact hdropped.lookup_labels hnodup n

/-! ## Scripts -/

theorem isComment_lower (c : FunctionContext) (returnIndex : Nat) (s : Statement) :
    (c.lower returnIndex s).isComment = s.isComment := by cases s <;> rfl

/-- Lowering renumbers what the statement was renumbered by. -/
theorem lower_mapTarget (c : FunctionContext) (f : Nat → Nat) (returnIndex : Nat) (s : Statement) :
    c.lower (f returnIndex) (s.mapTarget (.map f)) = (c.lower returnIndex s).mapTarget f := by
  cases s with
  | unconditionalGoto target => cases target <;> rfl
  | gotoIfNot condition target => cases target <;> rfl
  | _ => rfl

/-- Code that does not end in a comment still ends at its last index. -/
theorem renumber_length {code : List Statement} {s : Statement} (hlast : code.getLast? = some s)
    (hs : s.isComment = false) : renumber Statement.isComment code (code.length - 1) =
      (code.filter (!·.isComment)).length - 1 := by
  obtain ⟨before, rfl⟩ := List.getLast?_eq_some_iff.1 hlast
  rw [List.length_append, List.length_singleton, Nat.add_sub_cancel, renumber_append_length,
    List.filter_append, List.length_append, List.filter_cons_of_pos (by simp [hs]), List.filter_nil,
    List.length_singleton, Nat.add_sub_cancel]

/-- The script of code that ends in a return has no comments if the code has none. -/
theorem Uncomments.script {c d : FunctionContext} (h : c.Uncomments d)
    (hlast : c.statements.getLast? = some .ret) :
    d.script false = (c.script false).withoutComments := by
  obtain ⟨before, hcode⟩ := List.getLast?_eq_some_iff.1 hlast
  have hfailed : d.failed = c.failed := by
    obtain ⟨table, code, labels, rfl⟩ := h.frame
    rfl
  have hlower (k : Nat) (s : Statement) : d.lower k s = c.lower k s := by
    obtain ⟨table, code, labels, rfl⟩ := h.frame
    cases s <;> rfl
  have hsome : c.statements.isEmpty = false := by rw [hcode]; simp
  have hsome' : d.statements.isEmpty = false := by
    rw [h.code, hcode, List.filter_append]
    simp [Statement.isComment]
  unfold FunctionContext.script
  rw [hfailed, hsome, hsome']
  cases c.failed with
  | true => rfl
  | false =>
    have hcomment : ScriptOp.isComment ∘ c.lower (c.statements.length - 1) = Statement.isComment :=
      funext (c.isComment_lower _)
    have hkept : (fun op : ScriptOp ↦ !op.isComment) ∘ c.lower (c.statements.length - 1) =
        fun s ↦ !s.isComment := funext fun s ↦ congrArg (!·) (c.isComment_lower _ s)
    have hindex : renumber ScriptOp.isComment
        (c.statements.map (c.lower (c.statements.length - 1))) =
          renumber Statement.isComment c.statements := by
      funext k
      rw [renumber_map, hcomment]
    have hend : d.statements.length - 1 =
        renumber Statement.isComment c.statements (c.statements.length - 1) := by
      rw [renumber_length hlast rfl, h.code, List.length_map]
    simp only [Bool.or_false, Bool.false_eq_true, if_false]
    rw [Script.withoutComments, hindex, List.filter_map, hkept, hend, h.code, List.map_map,
      List.map_map]
    refine List.map_congr_left fun s _ ↦ ?_
    rw [Function.comp_apply, hlower, lower_mapTarget, Function.comp_apply]

end FunctionContext

/-! ## Finishing -/

namespace FunctionContext

/-- The function with its code settled: a function that failed and one of an interface only
return. -/
def settled (c : FunctionContext) : FunctionContext :=
  if c.failed || c.flags.interfaceStub then { c with statements := [.ret], nodeLabels := [] }
  else c.sortForFallThrough.resolveJumps

theorem Annotates.settled {c d : FunctionContext} (h : c.Annotates d) (hpins : c.CodeToPins) :
    c.settled.Uncomments d.settled := by
  have hgiven : (d.failed || d.flags.interfaceStub) = (c.failed || c.flags.interfaceStub) := by
    obtain ⟨table, rfl⟩ := h.frame
    rfl
  unfold FunctionContext.settled
  rw [hgiven]
  split
  · obtain ⟨table, rfl⟩ := h.frame
    exact ⟨⟨table, _, _, rfl⟩, rfl, fun _ ↦ rfl⟩
  · have hsorted : c.sortForFallThrough.Annotates d.sortForFallThrough := by
      obtain ⟨table, rfl⟩ := h.frame
      exact ⟨⟨table, rfl⟩, h.code⟩
    exact hsorted.resolveJumps hpins c.nodup_sortForFallThrough

theorem Uncomments.withNetFlags {c d : FunctionContext} (h : c.Uncomments d)
    (flags : FunctionFlags) :
    Uncomments { c with netFlags := flags } { d with netFlags := flags } := by
  obtain ⟨table, code, labels, rfl⟩ := h.frame
  exact ⟨⟨table, code, labels, rfl⟩, h.code, h.labels⟩

end FunctionContext

namespace FunctionState

theorem postcompile_eq (s : FunctionState) :
    s.postcompile = finish { s with ctx := s.ctx.settled } := rfl

/-- Finishing does not look at the code. -/
theorem finish_uncomments {s : FunctionState} {d : FunctionContext} (h : s.ctx.Uncomments d) :
    s.finish.ctx.Uncomments (finish { s with ctx := d }).ctx ∧
      finish { s with ctx := d } = { s.finish with ctx := (finish { s with ctx := d }).ctx } := by
  obtain ⟨-, -, flags, hflags⟩ := s.finish_keeps
  have hfinish : finish { s with ctx := d } =
      { s.finish with ctx := { d with netFlags := s.finish.ctx.netFlags } } := by
    obtain ⟨table, code, labels, rfl⟩ := h.frame
    unfold finish FunctionContext.isEventGraph
    dsimp only
    have hname : (s.ctx.withCode table).functionName = s.ctx.functionName := rfl
    rw [hname]
    cases s.cls.findOwnFunction? s.ctx.functionName with
    | none => rfl
    | some f => rfl
  rw [hfinish]
  refine ⟨?_, rfl⟩
  have hctx : s.finish.ctx = { s.ctx with netFlags := s.finish.ctx.netFlags } := by
    rw [hflags]
  rw [hctx]
  exact h.withNetFlags _

/-- A function with comments and the same without are finished alike. -/
theorem Annotates.postcompile {s t : FunctionState} (h : s.Annotates t)
    (hpins : s.ctx.CodeToPins) : s.postcompile.ctx.Uncomments t.postcompile.ctx ∧
      t.postcompile = { s.postcompile with ctx := t.postcompile.ctx } := by
  have hsettled := h.ctx.settled hpins
  obtain ⟨table, rfl⟩ := h.frame
  exact finish_uncomments (s := { s with ctx := s.ctx.settled }) hsettled

end FunctionState

end VisualScript
