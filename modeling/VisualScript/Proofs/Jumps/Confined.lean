import VisualScript.Compile.Emit
import VisualScript.Compile.Finish
import VisualScript.Proofs.Code.Appending
import VisualScript.Proofs.Code.Inlining
import VisualScript.Proofs.Jumps.Resolution
import VisualScript.Proofs.Run.Script

/-!
# Jumps stay inside the code

Nodes jump to pins, whatever is wrong with their graph, and so does all that is copied
from them.  Resolving gives every pin an index of the code, or that of the tail, so the
script that is made of the code is never left.
-/

namespace VisualScript

/-! ## All code of a function -/

namespace FunctionContext

/-- Every statement of any node is of some kind. -/
def AllCode (P : Statement → Prop) (c : FunctionContext) : Prop := ∀ n, ∀ s ∈ c.statementsOf n, P s

variable {P : Statement → Prop} {c : FunctionContext}

theorem allCode_of_nodeStatements (h : c.nodeStatements = []) : c.AllCode P := by
  intro n s hs
  rw [statementsOf, h] at hs
  cases hs

theorem AllCode.append {n : NodeId} {s : Statement} (h : c.AllCode P) (hs : P s) :
    (c.append n s).AllCode P := by
  intro m t ht
  rw [statementsOf_append] at ht
  split at ht
  · rcases List.mem_append.1 ht with ht | ht
    · exact h n t ht
    · exact List.mem_singleton.1 ht ▸ hs
  · exact h m t ht

theorem AllCode.prependStatements (h : c.AllCode P) (dest source : NodeId) :
    (c.prependStatements dest source).AllCode P := by
  intro m t ht
  rw [statementsOf_prependStatements] at ht
  split at ht
  · exact (List.mem_append.1 ht).elim (h source t) (h dest t)
  · exact h m t ht

theorem AllCode.inlineStep {s : Inline.State} (h : s.ctx.AllCode P) (schedule : List NodeId)
    (n : NodeId) : (Inline.step schedule s n).ctx.AllCode P := by
  unfold Inline.step
  split
  · rwa [(Inline.ctx_propagate schedule s n).1]
  · exact List.foldlRecOn (motive := AllCode P) _ _ h fun c hc p _ ↦ hc.prependStatements n p

/-- Inlining makes copies only. -/
theorem AllCode.inlinePureNodes (h : c.AllCode P) : c.inlinePureNodes.AllCode P :=
  List.foldlRecOn (motive := fun s : Inline.State ↦ s.ctx.AllCode P) c.executionList _ h
    fun _ hs n _ ↦ hs.inlineStep _ n

theorem AllCode.dropRedundantJumps (h : c.AllCode P) (list rest : List NodeId) :
    (dropRedundantJumps list rest c).AllCode P := by
  induction rest with
  | nil => exact h
  | cons n rest ih =>
    simp only [FunctionContext.dropRedundantJumps]
    split
    · intro m t ht
      rw [statementsOf_dropLastOf] at ht
      split at ht
      · exact ih n t ((List.dropLast_sublist _).subset ht)
      · exact ih m t ht
    · exact ih

end FunctionContext

/-! ## Code that jumps to pins -/

/-- Every jump in the code of any node is to a pin. -/
abbrev FunctionContext.CodeToPins (c : FunctionContext) : Prop := c.AllCode Statement.JumpsToPins

namespace FunctionState

theorem codeToPins_markNode (env : CompileEnv) {s : FunctionState} (h : s.ctx.CodeToPins)
    (n : NodeId) (kind : NodeKind) : (s.markNode env n kind).ctx.CodeToPins := by
  have hmark {c : FunctionContext} (hc : c.CodeToPins) {s : Statement} (hs : s.isMarker = true) :
      (c.append n s).CodeToPins :=
    hc.append (Statement.jumpsToPins_of_isStraight (Statement.isStraight_of_isMarker hs))
  have hdebug {s : FunctionState} (hs : s.ctx.CodeToPins) :
      (if s.ctx.flags.createDebugData then s.append n (.debugSite n) else s).ctx.CodeToPins := by
    split
    · exact hmark hs rfl
    · exact hs
  unfold markNode
  split
  · exact h
  · refine hdebug ?_
    split
    · exact hmark h rfl
    · exact h

theorem codeToPins_emitNodes (env : CompileEnv) (list : List NodeId) {s : FunctionState}
    (h : s.ctx.CodeToPins) : (emitNodes env list s).ctx.CodeToPins := by
  induction list generalizing s with
  | nil => exact h
  | cons n list ih =>
    unfold emitNodes
    split
    · exact ih h
    · next kind _ =>
      split
      · obtain ⟨code, hplain, hcode⟩ := (appends_compile n (s.markNode env n kind) kind).exists_code
        have hmarked := codeToPins_markNode env h n kind
        refine ih fun m t ht ↦ ?_
        rw [hcode] at ht
        split at ht
        · exact (List.mem_append.1 ht).elim (hmarked n t) fun ht ↦ (hplain t ht).1
        · exact hmarked m t ht
      · exact h

/-- Whatever the nodes of a function report, their code jumps to pins. -/
theorem codeToPins_compile (env : CompileEnv) {s : FunctionState} (h : s.ctx.CodeToPins) :
    (s.compile env).ctx.CodeToPins := by
  have hemit := codeToPins_emitNodes env s.ctx.executionList h
  unfold compile
  split
  · exact h
  · dsimp only
    split
    · exact hemit
    · exact hemit.inlinePureNodes

end FunctionState

/-! ## Resolved code -/

namespace FunctionContext

variable {c : FunctionContext}

/-- What ends the code of a function: only a return where there is nothing else. -/
def ending (c : FunctionContext) : List Statement :=
  if c.failed || c.flags.interfaceStub then [.ret] else c.tail

/-- The jumps and labels of a function are indices of its code. -/
structure Confined (c : FunctionContext) : Prop where
  failed : c.failed = true → c.statements = [.ret]
  ending : c.ending <:+ c.statements
  resolved : ∀ s ∈ c.statements, ∀ target, s.target? = some target →
    ∃ i < c.statements.length, target = .resolved i
  labels : ∀ e ∈ c.nodeLabels, e.2 ≤ c.statements.length - c.ending.length

theorem exists_ending_eq (c : FunctionContext) : ∃ before, c.ending = before ++ [.ret] := by
  unfold ending tail
  split
  · exact ⟨[], rfl⟩
  · split
    · exact ⟨[.endOfThread], rfl⟩
    · exact ⟨[], rfl⟩

/-- The code ends in a return, so there is some. -/
theorem Confined.getLast? (h : c.Confined) : c.statements.getLast? = some .ret := by
  obtain ⟨code, hcode⟩ := h.ending
  obtain ⟨before, hbefore⟩ := c.exists_ending_eq
  rw [← hcode, hbefore, ← List.append_assoc, List.getLast?_concat]

theorem le_of_mem_labelsFrom {k : Nat} {list : List NodeId} {e : NodeId × Nat}
    (h : e ∈ c.labelsFrom k list) : e.2 ≤ k + (c.flatten list).length := by
  induction list generalizing k with
  | nil => cases h
  | cons n list ih =>
    rw [flatten_cons, List.length_append]
    rcases List.mem_cons.1 h with rfl | h
    · exact Nat.le_add_right _ _
    · have hrest := ih h
      omega

theorem mem_of_mem_set {κ ν : Type} [DecidableEq κ] {key : κ} {value : ν} {table : List (κ × ν)}
    {e : κ × ν} (h : e ∈ Assoc.set key value table) : e.2 = value ∨ e ∈ table := by
  induction table with
  | nil => exact .inl (by rw [List.mem_singleton.1 h])
  | cons head table ih =>
    rw [Assoc.set] at h
    split at h
    · exact (List.mem_cons.1 h).imp (fun heq ↦ by rw [heq]) (List.mem_cons_of_mem _)
    · rcases List.mem_cons.1 h with rfl | h
      · exact .inr List.mem_cons_self
      · exact (ih h).imp_right (List.mem_cons_of_mem _)

theorem le_of_mem_labels {list : List NodeId} {e : NodeId × Nat}
    (h : e ∈ Assoc.setAll [] (c.labelsFrom 0 list)) : e.2 ≤ (c.flatten list).length := by
  have hentries : ∀ e ∈ c.labelsFrom 0 list, e.2 ≤ (c.flatten list).length :=
    fun e he ↦ Nat.zero_add (c.flatten list).length ▸ le_of_mem_labelsFrom he
  refine List.foldlRecOn (motive := fun table ↦ ∀ e ∈ table, e.2 ≤ (c.flatten list).length)
    (c.labelsFrom 0 list) _ (by simp) (fun table htable entry hentry e he ↦ ?_) e h
  rcases mem_of_mem_set he with heq | he
  · exact heq ▸ hentries entry hentry
  · exact htable e he

theorem mapTarget_tail (c : FunctionContext) (f : GotoTarget → GotoTarget) :
    c.tail.map (·.mapTarget f) = c.tail := by
  unfold tail
  split <;> rfl

/-- A pin is resolved to the label of the node that it leads to, or to the tail. -/
theorem exists_resolveTarget_pin {labels : List (NodeId × Nat)} {tailIndex : Nat}
    (h : ∀ e ∈ labels, e.2 ≤ tailIndex) (p : PinId) :
    ∃ i ≤ tailIndex, c.resolveTarget labels tailIndex (.pin p) = .resolved i := by
  refine ⟨_, ?_, rfl⟩
  cases hlabel : (c.gotoNode? p).bind (List.lookup · labels) with
  | none => exact Nat.le_refl _
  | some i =>
    obtain ⟨n, -, hlookup⟩ := Option.bind_eq_some_iff.1 hlabel
    obtain ⟨before, after, rfl, -⟩ := List.lookup_eq_some_iff.1 hlookup
    exact h (n, i) (by simp)

/-- Resolving confines jumps to pins. -/
theorem confined_resolveJumps (h : c.CodeToPins) (hfailed : c.failed = false)
    (hstub : c.flags.interfaceStub = false) : c.resolveJumps.Confined := by
  let d := dropRedundantJumps c.executionList c.executionList c
  let labels := Assoc.setAll [] (d.labelsFrom 0 c.executionList)
  let f := d.resolveTarget labels (d.flatten c.executionList).length
  have hdtail : d.tail = c.tail := tail_dropRedundantJumps ..
  obtain ⟨hfailed', hending⟩ :
      c.resolveJumps.failed = c.failed ∧ c.resolveJumps.ending = c.tail := by
    obtain ⟨table, htable⟩ := dropRedundantJumps_eq c.executionList c.executionList c
    have hending : c.ending = c.tail := by simp [ending, hfailed, hstub]
    rw [← hending]
    simp only [resolveJumps, htable]
    exact ⟨trivial, rfl⟩
  have hstatements : c.resolveJumps.statements =
      (d.flatten c.executionList).map (·.mapTarget f) ++ c.tail := by
    rw [← hdtail, ← mapTarget_tail d f, ← List.map_append]
    rfl
  have hpins : ∀ s ∈ d.flatten c.executionList ++ d.tail, s.JumpsToPins := by
    intro s hs
    rcases List.mem_append.1 hs with hs | hs
    · obtain ⟨n, -, hs⟩ := List.mem_flatMap.1 hs
      exact h.dropRedundantJumps _ _ n s hs
    · exact jumpsToPins_of_mem_tail hs
  have htail : 0 < c.tail.length := by
    unfold tail
    split <;> simp
  refine ⟨fun h ↦ ?_, ?_, fun s hs target htarget ↦ ?_, fun e he ↦ ?_⟩
  · rw [hfailed', hfailed] at h
    cases h
  · rw [hending, hstatements]
    exact List.suffix_append _ _
  · have hcode : c.resolveJumps.statements =
      (d.flatten c.executionList ++ d.tail).map (·.mapTarget f) := rfl
    rw [hcode] at hs
    obtain ⟨before, hbefore, rfl⟩ := List.mem_map.1 hs
    rw [Statement.target?_mapTarget] at htarget
    obtain ⟨old, hold, rfl⟩ := Option.map_eq_some_iff.1 htarget
    cases old with
    | resolved i => exact absurd hold (hpins before hbefore i)
    | pin p =>
      obtain ⟨i, hi, heq⟩ : ∃ i ≤ (d.flatten c.executionList).length,
          d.resolveTarget labels (d.flatten c.executionList).length (.pin p) = .resolved i :=
        exists_resolveTarget_pin (fun _ ↦ le_of_mem_labels) p
      refine ⟨i, ?_, heq⟩
      rw [hstatements, List.length_append, List.length_map]
      omega
  · rw [hending, hstatements, List.length_append, List.length_map, Nat.add_sub_cancel]
    exact le_of_mem_labels he

/-- The code of a function that was given up is a return. -/
theorem confined_ret (h : c.ending = [.ret]) :
    Confined { c with statements := [.ret], nodeLabels := [] } where
  failed _ := rfl
  ending := h ▸ List.suffix_rfl
  resolved s hs target htarget := by
    cases List.mem_singleton.1 hs
    cases htarget
  labels e he := by cases he

/-! ## Scripts -/

/-- Where there is nothing to run the script only returns. -/
theorem script_eq_ret {skeletonOnly : Bool} (h : skeletonOnly = true ∨ c.failed = true) :
    c.script skeletonOnly = [.ret] := by
  unfold script
  rcases h with h | h <;> simp [h]

/-- The script has an operation for each statement. -/
theorem Confined.script_eq_map (h : c.Confined) :
    c.script false = c.statements.map (c.lower (c.statements.length - 1)) := by
  by_cases hfailed : c.failed = true
  · rw [script_eq_ret (.inr hfailed), h.failed hfailed]
    rfl
  · have hne : c.statements ≠ [] := fun hnil ↦ by simpa [hnil] using h.getLast?
    simp [script, hfailed, hne]

/-- Jumps are lowered to where they are resolved. -/
theorem target?_lower_lt {s : Statement} {k target : Nat}
    (h : ∀ goto, s.target? = some goto → ∃ i ≤ k, goto = .resolved i)
    (htarget : (c.lower k s).target? = some target) : target ≤ k := by
  have hgoto {goto : GotoTarget} (hs : s.target? = some goto) : lowerTarget k goto ≤ k := by
    obtain ⟨i, hi, rfl⟩ := h goto hs
    exact hi
  cases s with
  | unconditionalGoto goto | gotoIfNot condition goto =>
    cases htarget
    exact hgoto rfl
  | gotoReturn =>
    cases htarget
    exact Nat.le_refl _
  | _ => cases htarget

/-- The script of a confined function is never left. -/
theorem Confined.closed_script (h : c.Confined) (skeletonOnly : Bool) :
    (c.script skeletonOnly).Closed := by
  cases skeletonOnly with
  | true =>
    rw [script_eq_ret (.inl rfl)]
    exact Script.closed_ret
  | false =>
    have hlength : 0 < c.statements.length :=
      List.length_pos_iff.2 fun hnil ↦ by simpa [hnil] using h.getLast?
    rw [h.script_eq_map]
    refine ⟨?_, fun op hop target htarget ↦ ?_⟩
    · rw [List.getLast?_map, h.getLast?]
      rfl
    · obtain ⟨s, hs, rfl⟩ := List.mem_map.1 hop
      have hle := target?_lower_lt (fun goto hgoto ↦ by
        obtain ⟨i, hi, heq⟩ := h.resolved s hs goto hgoto
        exact ⟨i, Nat.le_pred_of_lt hi, heq⟩) htarget
      rw [List.length_map]
      omega

end FunctionContext

end VisualScript
