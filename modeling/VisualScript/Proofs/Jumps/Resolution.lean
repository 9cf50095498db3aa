import VisualScript.Compile.Lower
import VisualScript.Proofs.Jumps.Redundant

/-!
# Resolved jumps

The plain program of a function keeps every jump: the code of the nodes in turn,
then the tail, where a jump looks up the node that its pin leads to.  Dropping
redundant jumps moves the code and the labels, but the resolved program runs like
the plain one from every node.
-/

namespace VisualScript.FunctionContext

open Machine

variable {ε : Type}

/-! ## The plain program -/

/-- Where a jump of the plain program goes.  A pin leads to the code of its first linked node;
the code of a node that is not listed begins at the tail, and so does that of no node. -/
def plainIndex (c : FunctionContext) (list : List NodeId) : GotoTarget → Nat
  | .resolved index => index
  | .pin p => ((c.gotoNode? p).map (c.startOf list)).getD (c.flatten list).length

def plainMachine (c : FunctionContext) (o : Observer ε) (list : List NodeId) :
    Machine Nat ε (Option Statement) :=
  Code.machine o (c.plainIndex list) (c.codeOf list)

/-- Runs statements whose jumps are resolved. -/
def resolvedMachine (c : FunctionContext) (o : Observer ε) : Machine Nat ε (Option Statement) :=
  Code.machine o (lowerTarget (c.statements.length - 1)) c.statements

theorem plainIndex_pin (c : FunctionContext) (list : List NodeId) (p : PinId) :
    (c.codeOf list).drop (c.plainIndex list (.pin p)) = c.codeOf (c.targetNodes list p) := by
  simp only [plainIndex, targetNodes]
  cases c.gotoNode? p with
  | none => exact c.drop_flatten_length list
  | some n => exact c.drop_startOf list n

theorem startOf_lt (c : FunctionContext) (list : List NodeId) (n : NodeId) :
    c.startOf list n < (c.codeOf list).length := by
  have hdrop : (c.codeOf list).drop (c.startOf list n) ≠ [] := by
    rw [drop_startOf, codeOf, tail]
    split <;> simp
  simpa using hdrop

theorem plainIndex_pin_lt (c : FunctionContext) (list : List NodeId) (p : PinId) :
    c.plainIndex list (.pin p) < (c.codeOf list).length := by
  have hdrop : (c.codeOf list).drop (c.plainIndex list (.pin p)) ≠ [] := by
    rw [plainIndex_pin, codeOf, tail]
    split <;> simp
  simpa using hdrop

/-- Resolving the jumps is dropping the redundant ones and looking the others up beforehand. -/
theorem resolvedMachine_resolveJumps (c : FunctionContext) (o : Observer ε)
    (hnodup : c.executionList.Nodup) :
    c.resolveJumps.resolvedMachine o =
      c.dropAllRedundant.plainMachine o c.executionList := by
  generalize hd : c.dropAllRedundant = d
  have hindex : (lowerTarget (c.resolveJumps.statements.length - 1)) ∘
      d.resolveTarget (Assoc.setAll [] (d.labelsFrom 0 c.executionList))
        (d.flatten c.executionList).length = d.plainIndex c.executionList := by
    funext target
    cases target with
    | resolved index => rfl
    | pin p =>
      simp only [Function.comp, resolveTarget, lowerTarget, plainIndex]
      cases d.gotoNode? p with
      | none => rfl
      | some n =>
        simp only [Option.bind_some, Option.map_some, Option.getD_some, lookup_labels d hnodup]
        split
        · rfl
        · next hn => exact (startOf_of_notMem hn).symm
  have hcode : c.resolveJumps.statements = (d.codeOf c.executionList).map (·.mapTarget
      (d.resolveTarget (Assoc.setAll [] (d.labelsFrom 0 c.executionList))
        (d.flatten c.executionList).length)) := by
    rw [← hd]
    rfl
  rw [plainMachine, ← hindex, ← Code.machine_map, ← hcode, resolvedMachine]

theorem lookup_nodeLabels_resolveJumps (c : FunctionContext) (hnodup : c.executionList.Nodup)
    {n : NodeId} (hn : n ∈ c.executionList) :
    c.resolveJumps.nodeLabels.lookup n = some
      (c.dropAllRedundant.startOf c.executionList n) :=
  (lookup_labels _ hnodup n).trans (if_pos hn)

/-! ## Dropped jumps are not missed -/

/-- What is left to run of the plain program and of that without redundant jumps: the same
statements, but at the end of a node the first may have a jump to what follows. -/
inductive Aligned (c d : FunctionContext) : List Statement → List Statement → Prop
  | last : Aligned c d [.ret] [.ret]
  | keep {s : Statement} {code kept : List Statement} : s.JumpsToPins → Aligned c d code kept →
      Aligned c d (s :: code) (s :: kept)
  | drop {jump : Statement} {rest : List NodeId} : rest <:+ c.executionList →
      c.GoesOn d rest jump → Aligned c d (jump :: c.codeOf rest) (d.codeOf rest)

theorem jumpsToPins_of_mem_tail {c : FunctionContext} {s : Statement} (h : s ∈ c.tail) :
    s.JumpsToPins := by
  have hs : s = .endOfThread ∨ s = .ret := by
    unfold tail at h
    split at h <;> simp_all
  rcases hs with rfl | rfl <;> exact fun _ ↦ by simp [Statement.target?]

namespace Aligned

variable {c d : FunctionContext}

theorem append {ss code kept : List Statement} (hss : ∀ s ∈ ss, s.JumpsToPins)
    (h : Aligned c d code kept) : Aligned c d (ss ++ code) (ss ++ kept) := by
  induction ss with
  | nil => exact h
  | cons s ss ih =>
    exact .keep (hss s List.mem_cons_self) (ih fun t ht ↦ hss t (List.mem_cons_of_mem _ ht))

theorem tail (h : d.tail = c.tail) : Aligned c d c.tail d.tail := by
  have hthread : Statement.endOfThread.JumpsToPins := fun _ ↦ by simp [Statement.target?]
  rw [h, FunctionContext.tail]
  split
  · exact .keep hthread .last
  · exact .last

end Aligned

section Dropping

variable {c : FunctionContext} (o : Observer ε)

/-- Every jump in the code of the listed nodes is to a pin. -/
def JumpsToPins (c : FunctionContext) : Prop :=
  ∀ n ∈ c.executionList, ∀ s ∈ c.statementsOf n, s.JumpsToPins

theorem aligned_codeOf (hnodup : c.executionList.Nodup) (hpins : c.JumpsToPins)
    {rest : List NodeId} (hlist : rest <:+ c.executionList) :
    Aligned c c.dropAllRedundant (c.codeOf rest)
      (c.dropAllRedundant.codeOf rest) := by
  induction rest with
  | nil => exact .tail (tail_dropRedundantJumps ..)
  | cons n rest ih =>
    have hrest : rest <:+ c.executionList := (List.suffix_cons n rest).trans hlist
    have hn := hpins n (hlist.subset List.mem_cons_self)
    rw [codeOf_cons, codeOf_cons]
    rcases statementsOf_dropped c hnodup hlist with hsame | ⟨jump, hjump, hgoes⟩
    · rw [hsame]
      exact .append hn (ih hrest)
    · rw [hjump] at hn ⊢
      rw [List.append_assoc]
      exact .append (fun s hs ↦ hn s (List.mem_append_left _ hs)) (.drop hrest hgoes)

theorem aligned_targetNodes (hnodup : c.executionList.Nodup) (hpins : c.JumpsToPins) (p : PinId) :
    Aligned c c.dropAllRedundant
      ((c.codeOf c.executionList).drop (c.plainIndex c.executionList (.pin p)))
      ((c.dropAllRedundant.codeOf c.executionList).drop
        (c.dropAllRedundant.plainIndex c.executionList
          (.pin p))) := by
  have htarget : c.dropAllRedundant.targetNodes
      c.executionList p = c.targetNodes c.executionList p := by
    simp only [targetNodes, gotoNode?_dropRedundantJumps]
  rw [plainIndex_pin, plainIndex_pin, htarget]
  exact aligned_codeOf hnodup hpins (c.targetNodes_suffix c.executionList p)

/-- The plain program is followed step by step; only dropped jumps are silent, and what they
lead to is shorter. -/
theorem simulation_dropAllRedundant (hnodup : c.executionList.Nodup) (hpins : c.JumpsToPins) :
    Simulation (c.plainMachine o c.executionList)
      (c.dropAllRedundant.plainMachine o c.executionList)
      (fun i j ↦ Aligned c c.dropAllRedundant
        ((c.codeOf c.executionList).drop i)
        ((c.dropAllRedundant.codeOf c.executionList).drop j))
      (fun i ↦ ((c.codeOf c.executionList).drop i).length) where
  stop {i j events new final} h hmove := by
    generalize hcode : (c.codeOf c.executionList).drop i = code at h
    generalize hkept : (c.dropAllRedundant.codeOf c.executionList).drop j = kept at h
    cases h with
    | last =>
      rw [plainMachine, Code.move_final events hcode rfl] at hmove
      cases hmove
      exact ⟨1, step_stop (Code.move_final events hkept rfl)⟩
    | keep hs h =>
      rcases Code.moves_alike events o (c.plainIndex c.executionList) _ hcode hkept with
        ⟨new', final', hm, hm'⟩ | ⟨new', i', j', hm, -, -⟩
      · cases hm.symm.trans hmove
        exact ⟨1, step_stop hm'⟩
      · cases hm.symm.trans hmove
    | drop hrest hgoes =>
      cases hgoes with
      | goto p => cases (Code.move_goto events hcode).symm.trans hmove
      | gotoReturn => cases (Code.move_gotoReturn events hcode).symm.trans hmove
  go {i i' j events new} h hmove := by
    generalize hcode : (c.codeOf c.executionList).drop i = code at h
    generalize hkept : (c.dropAllRedundant.codeOf c.executionList).drop j = kept at h
    cases h with
    | last => cases (Code.move_final events hcode rfl).symm.trans hmove
    | @keep s code kept hs h =>
      rcases Code.moves_alike events o (c.plainIndex c.executionList) _ hcode hkept with
        ⟨new', final', hm, -⟩ | ⟨new', k, j', hm, hm', halike⟩
      · cases hm.symm.trans hmove
      · cases hm.symm.trans hmove
        refine .inr ⟨0, j', step_go hm', ?_⟩
        cases halike with
        | next => rwa [Code.drop_succ hcode, Code.drop_succ hkept]
        | @jump target htarget =>
          cases target with
          | resolved index => exact absurd htarget (hs index)
          | pin p => exact aligned_targetNodes hnodup hpins p
        | last => rw [drop_last, drop_last]; exact .last
    | @drop jump rest hrest hgoes =>
      left
      cases hgoes with
      | goto p hsuffix hflatten =>
        cases (Code.move_goto events hcode).symm.trans hmove
        have htarget := aligned_codeOf hnodup hpins (c.targetNodes_suffix c.executionList p)
        have hlength : (c.codeOf (c.targetNodes c.executionList p)).length ≤
            (c.codeOf rest).length := by
          obtain ⟨before, hbefore⟩ := hsuffix
          rw [← hbefore, codeOf, codeOf, flatten_append]
          simp
        have hsame : c.dropAllRedundant.codeOf (c.targetNodes c.executionList p) =
            c.dropAllRedundant.codeOf rest := congrArg (· ++ c.dropAllRedundant.tail) hflatten
        rw [hsame] at htarget
        rw [plainIndex_pin]
        exact ⟨rfl, htarget, Nat.lt_succ_of_le hlength⟩
      | gotoReturn hflatten htail =>
        cases (Code.move_gotoReturn events hcode).symm.trans hmove
        have hkept' : c.dropAllRedundant.codeOf rest =
            [.ret] := by
          rw [codeOf, hflatten, tail_dropRedundantJumps, htail, List.nil_append]
        rw [drop_last, hkept']
        refine ⟨rfl, .last, ?_⟩
        rw [List.length_cons, codeOf, htail]
        simp

end Dropping

/-! ## The resolved program -/

section Resolving

variable {c : FunctionContext} {n : NodeId}

/-- However a run is watched, the resolved program runs like the plain one. -/
theorem sameRuns_plainMachine (o : Observer ε) (hnodup : c.executionList.Nodup)
    (hpins : c.JumpsToPins) (n : NodeId) :
    SameRuns (c.plainMachine o c.executionList) (c.startOf c.executionList n)
      (c.resolveJumps.resolvedMachine o) (c.dropAllRedundant.startOf c.executionList n) := by
  rw [resolvedMachine_resolveJumps c o hnodup]
  refine (simulation_dropAllRedundant o hnodup hpins).sameRuns ?_
  rw [drop_startOf, drop_startOf]
  exact aligned_codeOf hnodup hpins (nodesFrom_suffix c.executionList n)

/-- The plain program stops at a final statement, if at all. -/
theorem exists_isFinal_of_plainMachine (o : Observer ε) (hpins : c.JumpsToPins) {events : List ε}
    {final : Option Statement}
    (h : (c.plainMachine o c.executionList).StopsWith (c.startOf c.executionList n) events final) :
    ∃ s, final = some s ∧ s.isFinal = true := by
  obtain ⟨before, hbefore⟩ := c.codeOf_eq_append_ret c.executionList
  refine Code.exists_isFinal_of_stopsWith hbefore (fun {s target} hs htarget ↦ ?_)
    (c.startOf_lt c.executionList n) h
  cases target with
  | pin p => exact c.plainIndex_pin_lt c.executionList p
  | resolved index =>
    rcases List.mem_append.1 hs with hs | hs
    · obtain ⟨m, hm, hs⟩ := List.mem_flatMap.1 hs
      exact absurd htarget (hpins m hm s hs index)
    · exact absurd htarget (jumpsToPins_of_mem_tail hs index)

/-- Sees every statement but plain jumps, without the targets.  An oracle decides conditions. -/
def statementObserver (oracle : List Statement → TermId → Bool) : Observer Statement where
  sees
    | .unconditionalGoto _ | .gotoReturn => []
    | s => [s.mapTarget fun _ ↦ .resolved 0]
  holds := oracle

/-- From the label of a listed node the resolved program executes the statements that the plain
program does from there, and stops at the same final statement or not at all. -/
theorem sameRuns_resolveJumps (c : FunctionContext) (hnodup : c.executionList.Nodup)
    (hpins : c.JumpsToPins) (oracle : List Statement → TermId → Bool)
    (hn : n ∈ c.executionList) :
    ∃ label, c.resolveJumps.nodeLabels.lookup n = some label ∧
      SameRuns (c.plainMachine (statementObserver oracle) c.executionList)
        (c.startOf c.executionList n) (c.resolveJumps.resolvedMachine (statementObserver oracle))
        label ∧
      ∀ events final,
        (c.resolveJumps.resolvedMachine (statementObserver oracle)).StopsWith label events final →
          ∃ s, final = some s ∧ s.isFinal = true := by
  have hsame := sameRuns_plainMachine (statementObserver oracle) hnodup hpins n
  refine ⟨_, lookup_nodeLabels_resolveJumps c hnodup hn, hsame, fun events final hstop ↦ ?_⟩
  exact exists_isFinal_of_plainMachine _ hpins ((hsame.stops events final).2 hstop)

/-- Two nodes that run each other for as long as a condition holds. -/
def turns : FunctionContext where
  functionName := "Turns"
  graph :=
    let wire (id owner other : Nat) : Pin :=
      { id := ⟨id⟩, owner := ⟨owner⟩, name := "", direction := .output, ty := .exec,
        links := [⟨other⟩] }
    { name := "Turns", pins := ⟨#[some (wire 0 0 1), some (wire 1 1 0), some (wire 2 1 3),
        some (wire 3 0 2)]⟩ }
  executionList := [⟨0⟩, ⟨1⟩]
  nodeStatements := [
    (⟨0⟩, [.gotoIfNot ⟨0⟩ (.pin ⟨4⟩), .unconditionalGoto (.pin ⟨0⟩)]),
    (⟨1⟩, [.assignment ⟨1⟩ ⟨2⟩, .unconditionalGoto (.pin ⟨2⟩)])]

theorem sameRuns_resolveJumps_turns :
    turns.executionList.Nodup ∧ turns.JumpsToPins ∧ (⟨1⟩ : NodeId) ∈ turns.executionList ∧
      ∃ label, turns.resolveJumps.nodeLabels.lookup ⟨1⟩ = some label ∧
        SameRuns (turns.plainMachine (statementObserver fun _ _ ↦ true) turns.executionList)
          (turns.startOf turns.executionList ⟨1⟩)
          (turns.resolveJumps.resolvedMachine (statementObserver fun _ _ ↦ true)) label := by
  have hnodup : turns.executionList.Nodup := by decide
  have hmem : (⟨1⟩ : NodeId) ∈ turns.executionList := by decide
  have hpins : turns.JumpsToPins := by unfold FunctionContext.JumpsToPins; decide
  obtain ⟨label, hlabel, hsame, -⟩ :=
    sameRuns_resolveJumps turns hnodup hpins (fun _ _ ↦ true) hmem
  exact ⟨hnodup, hpins, hmem, label, hlabel, hsame⟩

end Resolving

/-!
## Blocks of code

The resolved program is the code of the nodes in turn and a tail.  The label of a node
is how much code stands before that of the node.
-/

/-- The code of a node as it stands in the resolved program. -/
def block (c : FunctionContext) (n : NodeId) : List Statement :=
  (c.statementsOf n).map
    (·.mapTarget (c.resolveTarget c.nodeLabels (c.flatten c.executionList).length))

theorem mem_block_of_isStraight {c : FunctionContext} {n : NodeId} {s : Statement}
    (h : s ∈ c.statementsOf n) (hstraight : s.isStraight = true) : s ∈ c.block n := by
  refine List.mem_map.2 ⟨s, h, ?_⟩
  cases s with
  | unconditionalGoto | gotoIfNot => cases hstraight
  | _ => rfl

theorem executionList_dropAllRedundant (c : FunctionContext) :
    c.dropAllRedundant.executionList = c.executionList := by
  obtain ⟨table, htable⟩ := dropRedundantJumps_eq c.executionList c.executionList c
  rw [dropAllRedundant, htable]

/-- The block of a node stands at its label. -/
theorem exists_block (c : FunctionContext) (hnodup : c.executionList.Nodup) {n : NodeId}
    (hn : n ∈ c.executionList) : ∃ before rest,
      c.resolveJumps.statements = before ++ (c.resolveJumps.block n ++ rest) ∧
      before.length = c.dropAllRedundant.startOf c.executionList n ∧
      c.resolveJumps.nodeLabels.lookup n = some before.length := by
  generalize hd : c.dropAllRedundant = d
  have hlist : d.executionList = c.executionList := by
    rw [← hd]
    exact c.executionList_dropAllRedundant
  let resolve := d.resolveTarget (Assoc.setAll [] (d.labelsFrom 0 c.executionList))
    (d.flatten c.executionList).length
  obtain ⟨after, hafter⟩ := nodesFrom_of_mem hn
  have hcode : d.codeOf c.executionList =
      (d.codeOf c.executionList).take (d.startOf c.executionList n) ++
        (d.statementsOf n ++ d.codeOf after) := by
    rw [← codeOf_cons, ← hafter, ← drop_startOf, List.take_append_drop]
  have hlength : ((d.codeOf c.executionList).take (d.startOf c.executionList n)).length =
      d.startOf c.executionList n :=
    List.length_take_of_le (Nat.le_of_lt (d.startOf_lt c.executionList n))
  have hresolved : c.resolveJumps = { d with
      statements := (d.codeOf c.executionList).map (·.mapTarget resolve)
      nodeLabels := Assoc.setAll [] (d.labelsFrom 0 c.executionList) } := by
    subst hd
    rfl
  have hblock : c.resolveJumps.block n = (d.statementsOf n).map (·.mapTarget resolve) := by
    rw [hresolved, block]
    exact congrArg (fun list ↦ (d.statementsOf n).map (·.mapTarget (d.resolveTarget
      (Assoc.setAll [] (d.labelsFrom 0 c.executionList)) (d.flatten list).length))) hlist
  refine ⟨((d.codeOf c.executionList).take (d.startOf c.executionList n)).map
    (·.mapTarget resolve), (d.codeOf after).map (·.mapTarget resolve), ?_, ?_, ?_⟩
  · rw [hblock, hresolved, ← List.map_append, ← List.map_append, ← hcode]
  · rw [List.length_map, hlength]
  · rw [List.length_map, hlength, ← hd]
    exact lookup_nodeLabels_resolveJumps c hnodup hn

/-! ### What is not dropped -/

/-- A statement that goes on with what follows is a jump. -/
theorem GoesOn.isStraight {c d : FunctionContext} {rest : List NodeId} {jump : Statement}
    (h : c.GoesOn d rest jump) : jump.isStraight = false := by
  cases h <;> rfl

theorem mem_statementsOf_dropped (c : FunctionContext) (hnodup : c.executionList.Nodup)
    {n : NodeId} (hn : n ∈ c.executionList) {s : Statement} (hs : s ∈ c.statementsOf n)
    (hstraight : s.isStraight = true) : s ∈ c.dropAllRedundant.statementsOf n := by
  obtain ⟨before, after, hlist⟩ := List.append_of_mem hn
  rcases statementsOf_dropped c hnodup ⟨before, hlist.symm⟩ with hsame | ⟨jump, hjump, hgoes⟩
  · rwa [hsame]
  · rw [hjump, List.mem_append, List.mem_singleton] at hs
    refine hs.resolve_right ?_
    rintro rfl
    rw [hgoes.isStraight] at hstraight
    cases hstraight

/-- A computed jump is never redundant. -/
theorem statementsOf_dropped_of_computedGoto (c : FunctionContext)
    (hnodup : c.executionList.Nodup) {n : NodeId} (hn : n ∈ c.executionList) {t : TermId}
    (hcode : c.statementsOf n = [.computedGoto t]) :
    c.dropAllRedundant.statementsOf n = [.computedGoto t] := by
  obtain ⟨before, after, hlist⟩ := List.append_of_mem hn
  rcases statementsOf_dropped c hnodup ⟨before, hlist.symm⟩ with hsame | ⟨jump, hjump, hgoes⟩
  · rw [hsame, hcode]
  · rw [hcode, ← List.nil_append [Statement.computedGoto t]] at hjump
    obtain ⟨-, hlast⟩ := List.append_inj' hjump rfl
    obtain rfl := (List.singleton_inj.1 hlast).symm
    cases hgoes

end VisualScript.FunctionContext
