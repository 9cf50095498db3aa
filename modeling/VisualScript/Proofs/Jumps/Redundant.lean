import Mathlib.Data.List.Nodup
import Mathlib.Data.List.TakeWhile
import VisualScript.Proofs.Run.Code
import VisualScript.Compile.Jumps

/-!
# Jumps that are dropped

The code of the nodes of a list stands in a row before the tail.  The labels say
where the code of each node begins, and what stands from there on is the code of
the node and of all nodes after it.

A node loses its last statement only when that is a jump to what comes next
anyway.  What comes next is decided from the end of the list, where the nodes
behind have lost their jumps already, so the code behind a dropped jump is the
code that the jump leads to.
-/

namespace VisualScript.FunctionContext

/-! ## Where the code of a node begins -/

section Layout

variable {c : FunctionContext} {list rest : List NodeId} {n : NodeId}

/-- The nodes of a list from `n` on. -/
def nodesFrom (list : List NodeId) (n : NodeId) : List NodeId := list.dropWhile (· ≠ n)

/-- How much code stands before that of a node, or how much there is if the node is not listed. -/
def startOf (c : FunctionContext) (list : List NodeId) (n : NodeId) : Nat :=
  (c.flatten (list.takeWhile (· ≠ n))).length

/-- The code of a part of the list and what follows the list. -/
def codeOf (c : FunctionContext) (rest : List NodeId) : List Statement := c.flatten rest ++ c.tail

@[simp]
theorem flatten_nil : c.flatten [] = [] := rfl

@[simp]
theorem flatten_cons : c.flatten (n :: rest) = c.statementsOf n ++ c.flatten rest := rfl

theorem flatten_append (before : List NodeId) :
    c.flatten (before ++ rest) = c.flatten before ++ c.flatten rest :=
  List.flatMap_append

@[simp]
theorem codeOf_nil : c.codeOf [] = c.tail := rfl

@[simp]
theorem codeOf_cons : c.codeOf (n :: rest) = c.statementsOf n ++ c.codeOf rest :=
  List.append_assoc ..

theorem nodesFrom_suffix (list : List NodeId) (n : NodeId) : nodesFrom list n <:+ list :=
  List.dropWhile_suffix _

theorem nodesFrom_of_mem (h : n ∈ list) : ∃ rest, nodesFrom list n = n :: rest := by
  obtain ⟨before, after, rfl, hn⟩ := List.eq_append_cons_of_mem h
  refine ⟨after, ?_⟩
  have hbefore : ∀ m ∈ before, decide (m ≠ n) = true :=
    fun m hm ↦ decide_eq_true fun heq ↦ hn (heq ▸ hm)
  rw [nodesFrom, List.dropWhile_append_of_pos hbefore]
  simp

/-- The code from the beginning of a node on. -/
theorem drop_startOf (c : FunctionContext) (list : List NodeId) (n : NodeId) :
    (c.codeOf list).drop (c.startOf list n) = c.codeOf (nodesFrom list n) := by
  have hsplit : c.codeOf list =
      c.flatten (list.takeWhile (· ≠ n)) ++ c.codeOf (nodesFrom list n) := by
    rw [codeOf, codeOf, ← List.append_assoc, ← flatten_append, nodesFrom,
      List.takeWhile_append_dropWhile]
  rw [hsplit, startOf, List.drop_left]

theorem drop_flatten_length (c : FunctionContext) (list : List NodeId) :
    (c.codeOf list).drop (c.flatten list).length = c.tail := by
  rw [codeOf, List.drop_left]

/-- The last statement of the code is the final return. -/
theorem codeOf_eq_append_ret (c : FunctionContext) (list : List NodeId) :
    ∃ before, c.codeOf list = before ++ [.ret] := by
  unfold codeOf tail
  split
  · exact ⟨c.flatten list ++ [.endOfThread], by simp⟩
  · exact ⟨c.flatten list, rfl⟩

theorem drop_last (c : FunctionContext) (list : List NodeId) :
    (c.codeOf list).drop ((c.codeOf list).length - 1) = [.ret] := by
  obtain ⟨before, hbefore⟩ := c.codeOf_eq_append_ret list
  rw [hbefore, List.length_append, List.length_singleton, Nat.add_sub_cancel, List.drop_left]

/-! ## Labels -/

theorem map_fst_labelsFrom (c : FunctionContext) (k : Nat) (list : List NodeId) :
    (c.labelsFrom k list).map (·.1) = list := by
  induction list generalizing k with
  | nil => rfl
  | cons n rest ih => simp [labelsFrom, ih]

theorem lookup_labelsFrom (k : Nat) (h : n ∈ list) :
    (c.labelsFrom k list).lookup n = some (k + c.startOf list n) := by
  induction list generalizing k with
  | nil => cases h
  | cons m rest ih =>
    rw [labelsFrom, Assoc.lookup_cons_ite]
    by_cases hm : n = m
    · simp [hm, startOf]
    · have hrest := ih (k + (c.statementsOf m).length) ((List.mem_cons.1 h).resolve_left hm)
      simp [hm, hrest, startOf, Ne.symm hm, Nat.add_assoc]

theorem lookup_labelsFrom_of_notMem (k : Nat) (h : n ∉ list) :
    (c.labelsFrom k list).lookup n = none := by
  rw [List.lookup_eq_none_iff]
  rintro ⟨m, i⟩ hm
  have hmem : m ∈ list := by
    rw [← map_fst_labelsFrom c k list]
    exact List.mem_map.2 ⟨(m, i), hm, rfl⟩
  simpa using fun heq : n = m ↦ h (heq ▸ hmem)

/-- The label of a listed node is where its code begins; other nodes have none. -/
theorem lookup_labels (c : FunctionContext) (h : list.Nodup) (n : NodeId) :
    (Assoc.setAll [] (c.labelsFrom 0 list)).lookup n =
      if n ∈ list then some (c.startOf list n) else none := by
  rw [Assoc.lookup_setAll (by rwa [map_fst_labelsFrom])]
  split
  · next hn => simp [lookup_labelsFrom 0 hn]
  · next hn => simp [lookup_labelsFrom_of_notMem 0 hn]

theorem startOf_of_notMem (h : n ∉ list) : c.startOf list n = (c.flatten list).length := by
  have hlist : ∀ m ∈ list, decide (m ≠ n) = true :=
    fun m hm ↦ decide_eq_true fun heq ↦ h (heq ▸ hm)
  rw [startOf, List.takeWhile_eq_self_iff.2 hlist]

end Layout

/-! ## Jumps that are redundant -/

/-- The function without redundant jumps. -/
abbrev dropAllRedundant (c : FunctionContext) : FunctionContext :=
  dropRedundantJumps c.executionList c.executionList c

/-! ## What dropping leaves alone -/

theorem statementsOf_dropLastOf (c : FunctionContext) (n m : NodeId) :
    (c.dropLastOf n).statementsOf m =
      if m = n then (c.statementsOf n).dropLast else c.statementsOf m := by
  simp only [dropLastOf, statementsOf, Assoc.lookup_update]
  split <;> rfl

/-- Only statements of nodes change. -/
theorem dropRedundantJumps_eq (list rest : List NodeId) (c : FunctionContext) :
    ∃ table, dropRedundantJumps list rest c = { c with nodeStatements := table } := by
  induction rest with
  | nil => exact ⟨_, rfl⟩
  | cons n rest ih =>
    obtain ⟨table, htable⟩ := ih
    simp only [dropRedundantJumps]
    split
    · exact ⟨_, by rw [htable]; rfl⟩
    · exact ⟨table, htable⟩

section Frame

variable (list rest : List NodeId) (c : FunctionContext)

@[simp]
theorem graph_dropRedundantJumps : (dropRedundantJumps list rest c).graph = c.graph := by
  obtain ⟨table, htable⟩ := dropRedundantJumps_eq list rest c
  rw [htable]

@[simp]
theorem tail_dropRedundantJumps : (dropRedundantJumps list rest c).tail = c.tail := by
  obtain ⟨table, htable⟩ := dropRedundantJumps_eq list rest c
  rw [htable]
  rfl

@[simp]
theorem gotoNode?_dropRedundantJumps (p : PinId) :
    (dropRedundantJumps list rest c).gotoNode? p = c.gotoNode? p := by
  simp [gotoNode?]

variable {list rest c}

theorem statementsOf_dropRedundantJumps_of_notMem {m : NodeId} (h : m ∉ rest) :
    (dropRedundantJumps list rest c).statementsOf m = c.statementsOf m := by
  induction rest with
  | nil => rfl
  | cons n rest ih =>
    obtain ⟨hne, hrest⟩ := List.ne_and_not_mem_of_not_mem_cons h
    simp only [dropRedundantJumps]
    split
    · rw [statementsOf_dropLastOf, if_neg hne, ih hrest]
    · exact ih hrest

/-- A node keeps what is left of it while the nodes before it are treated. -/
theorem statementsOf_dropRedundantJumps_append {before : List NodeId} {m : NodeId}
    (h : (before ++ rest).Nodup) (hm : m ∈ rest) :
    (dropRedundantJumps list (before ++ rest) c).statementsOf m =
      (dropRedundantJumps list rest c).statementsOf m := by
  induction before with
  | nil => rfl
  | cons n before ih =>
    obtain ⟨hn, htail⟩ := List.nodup_cons.1 h
    have hne : m ≠ n := fun heq ↦ hn (heq ▸ List.mem_append_right before hm)
    simp only [List.cons_append, dropRedundantJumps]
    split
    · rw [statementsOf_dropLastOf, if_neg hne, ih htail]
    · exact ih htail

end Frame

/-! ## What a dropped jump leads to -/

/-- The nodes whose code a jump to a pin goes on with; none if it goes to the tail. -/
def targetNodes (c : FunctionContext) (list : List NodeId) (p : PinId) : List NodeId :=
  match c.gotoNode? p with
  | some n => nodesFrom list n
  | none => []

theorem targetNodes_suffix (c : FunctionContext) (list : List NodeId) (p : PinId) :
    c.targetNodes list p <:+ list := by
  unfold targetNodes
  split
  · exact nodesFrom_suffix list _
  · exact List.nil_suffix

theorem effectiveTarget?_eq (c : FunctionContext) (list : List NodeId) (p : PinId) :
    c.effectiveTarget? list p = (c.targetNodes list p).find? c.hasCode := by
  unfold effectiveTarget? targetNodes
  cases c.gotoNode? p <;> rfl

/-- A statement that goes on with the code of `rest`, where the code is that of `d`. -/
inductive GoesOn (c d : FunctionContext) (rest : List NodeId) : Statement → Prop
  | goto (p : PinId) : c.targetNodes c.executionList p <:+ rest →
      d.flatten (c.targetNodes c.executionList p) = d.flatten rest →
      GoesOn c d rest (.unconditionalGoto (.pin p))
  | gotoReturn : d.flatten rest = [] → c.tail = [.ret] → GoesOn c d rest .gotoReturn

theorem flatten_eq_nil_of_find? {c : FunctionContext} {rest : List NodeId}
    (h : rest.find? c.hasCode = none) : c.flatten rest = [] := by
  rw [flatten, List.flatMap_eq_nil_iff]
  intro n hn
  simpa [hasCode] using List.find?_eq_none.1 h n hn

theorem flatten_congr {c d : FunctionContext} {rest : List NodeId}
    (h : ∀ n ∈ rest, c.statementsOf n = d.statementsOf n) : c.flatten rest = d.flatten rest := by
  rw [flatten, flatten, List.flatMap_congr h]

/-- If the first node with code is the same, then so is the code. -/
theorem flatten_eq_of_find?_eq {c : FunctionContext} {rest nodes : List NodeId}
    (hnodup : rest.Nodup) (hsuffix : nodes <:+ rest)
    (h : nodes.find? c.hasCode = rest.find? c.hasCode) : c.flatten nodes = c.flatten rest := by
  obtain ⟨before, rfl⟩ := hsuffix
  suffices hbefore : c.flatten before = [] by rw [flatten_append, hbefore, List.nil_append]
  cases hfirst : before.find? c.hasCode with
  | none => exact flatten_eq_nil_of_find? hfirst
  | some n =>
    rw [List.find?_append, hfirst, Option.some_or] at h
    exact absurd (List.mem_of_find?_eq_some h)
      (List.disjoint_of_nodup_append hnodup (List.mem_of_find?_eq_some hfirst))

/-- Two suffixes of a list, of which one begins with a node that the other does not have. -/
theorem suffix_of_find?_eq {c : FunctionContext} {list rest nodes : List NodeId} {n : NodeId}
    (hnodup : list.Nodup) (hlist : n :: rest <:+ list) (hnodes : nodes <:+ list)
    (hn : c.hasCode n = true) (h : nodes.find? c.hasCode = rest.find? c.hasCode) :
    nodes <:+ rest := by
  rcases List.suffix_cons_iff.1 (List.suffix_of_suffix_length_le hnodes hlist <| by
    by_contra hlong
    -- Otherwise the node itself stands among `nodes`, so code is found before `rest`.
    obtain ⟨before, hbefore⟩ :=
      List.suffix_of_suffix_length_le hlist hnodes (Nat.le_of_lt (Nat.lt_of_not_le hlong))
    have hsplit : nodes = (before ++ [n]) ++ rest := by simp [← hbefore]
    obtain ⟨m, hm⟩ : ∃ m, (before ++ [n]).find? c.hasCode = some m :=
      Option.isSome_iff_exists.1 (List.find?_isSome.2 ⟨n, by simp, hn⟩)
    have hdisjoint := List.disjoint_of_nodup_append (hsplit ▸ hnodup.sublist hnodes.sublist)
    rw [hsplit, List.find?_append, hm, Option.some_or] at h
    exact hdisjoint (List.mem_of_find?_eq_some hm) (List.mem_of_find?_eq_some h.symm)) with
    heq | hsuffix
  · -- `nodes` begins with the node itself, which has code.
    rw [heq, List.find?_cons_of_pos hn] at h
    have hmem := List.mem_of_find?_eq_some h.symm
    exact absurd hmem (List.nodup_cons.1 (hnodup.sublist hlist.sublist)).1
  · exact hsuffix

/-- A redundant last statement goes on with what follows, whatever the nodes before it lose. -/
theorem goesOn_of_endsRedundantly {c d : FunctionContext} (hnodup : c.executionList.Nodup)
    {n : NodeId} {rest : List NodeId} (hlist : n :: rest <:+ c.executionList)
    (hd : ∀ m ∈ rest, (dropRedundantJumps c.executionList rest c).statementsOf m = d.statementsOf m)
    (hn : (dropRedundantJumps c.executionList rest c).statementsOf n = c.statementsOf n)
    (h : (dropRedundantJumps c.executionList rest c).endsRedundantly c.executionList rest n) :
    ∃ jump, (c.statementsOf n).getLast? = some jump ∧ c.GoesOn d rest jump := by
  generalize he : dropRedundantJumps c.executionList rest c = e at hd hn h
  have hgoto (p : PinId) : e.targetNodes c.executionList p = c.targetNodes c.executionList p := by
    simp only [targetNodes, ← he, gotoNode?_dropRedundantJumps]
  have hrest : rest.Nodup :=
    (hnodup.sublist hlist.sublist).sublist (List.sublist_cons_self n rest)
  rw [endsRedundantly, hn] at h
  cases hlast : (c.statementsOf n).getLast? with
  | none => simp [hlast] at h
  | some jump =>
    have hcode : e.hasCode n = true := by
      rw [hasCode, hn]
      cases hs : c.statementsOf n with
      | nil => simp [hs] at hlast
      | cons s ss => rfl
    refine ⟨jump, rfl, ?_⟩
    rw [hlast] at h
    cases jump with
    | unconditionalGoto target =>
      cases target with
      | resolved index => cases h
      | pin p =>
        have hfind : (c.targetNodes c.executionList p).find? e.hasCode = rest.find? e.hasCode := by
          rw [← hgoto, ← effectiveTarget?_eq]
          exact of_decide_eq_true h
        have hsuffix := suffix_of_find?_eq hnodup hlist (c.targetNodes_suffix _ p) hcode hfind
        refine .goto p hsuffix ?_
        rw [← flatten_congr fun m hm ↦ hd m (hsuffix.subset hm), ← flatten_congr hd]
        exact flatten_eq_of_find?_eq hrest hsuffix hfind
    | gotoReturn =>
      obtain ⟨hnext, hkind⟩ : rest.find? e.hasCode = none ∧ e.isEventGraph = false := by
        simpa using h
      refine .gotoReturn ?_ ?_
      · rw [← flatten_congr hd]
        exact flatten_eq_nil_of_find? hnext
      · rw [← tail_dropRedundantJumps c.executionList rest c, he, tail, hkind]
        rfl
    | _ => cases h

/-- What is left of a node: everything, or all but a jump that goes on with what follows. -/
theorem statementsOf_dropped (c : FunctionContext) (hnodup : c.executionList.Nodup) {n : NodeId}
    {rest : List NodeId} (hlist : n :: rest <:+ c.executionList) :
    c.dropAllRedundant.statementsOf n = c.statementsOf n ∨
      ∃ jump, c.statementsOf n = c.dropAllRedundant.statementsOf n ++ [jump] ∧
        c.GoesOn c.dropAllRedundant rest jump := by
  generalize hd : c.dropAllRedundant = d
  obtain ⟨before, hbefore⟩ := hlist
  have hrestNodup : (n :: rest).Nodup := (hbefore ▸ hnodup).sublist (List.sublist_append_right ..)
  obtain ⟨hn, hrest⟩ := List.nodup_cons.1 hrestNodup
  let e := dropRedundantJumps c.executionList rest c
  have hdn : d.statementsOf n = if e.endsRedundantly c.executionList rest n then
      (c.statementsOf n).dropLast else c.statementsOf n := by
    have hfull : d = dropRedundantJumps c.executionList (before ++ n :: rest) c := by
      rw [hbefore, ← hd]
    rw [hfull, statementsOf_dropRedundantJumps_append (hbefore ▸ hnodup) List.mem_cons_self]
    simp only [dropRedundantJumps]
    split
    · rw [statementsOf_dropLastOf, if_pos rfl, statementsOf_dropRedundantJumps_of_notMem hn]
    · exact statementsOf_dropRedundantJumps_of_notMem hn
  have hde : ∀ m ∈ rest, e.statementsOf m = d.statementsOf m := fun m hm ↦ by
    have hsplit : (before ++ [n]) ++ rest = c.executionList := by rw [← hbefore]; simp
    have hfull : d = dropRedundantJumps c.executionList ((before ++ [n]) ++ rest) c := by
      rw [hsplit, ← hd]
    rw [hfull, statementsOf_dropRedundantJumps_append (hsplit ▸ hnodup) hm]
  by_cases hends : e.endsRedundantly c.executionList rest n = true
  · rw [if_pos hends] at hdn
    have hen : e.statementsOf n = c.statementsOf n := statementsOf_dropRedundantJumps_of_notMem hn
    obtain ⟨jump, hlast, hgoes⟩ :=
      goesOn_of_endsRedundantly (c := c) hnodup ⟨before, hbefore⟩ hde hen hends
    right
    refine ⟨jump, ?_, hgoes⟩
    rw [hdn, List.dropLast_append_getLast? _ hlast]
  · left
    rw [hdn, if_neg hends]

end VisualScript.FunctionContext
