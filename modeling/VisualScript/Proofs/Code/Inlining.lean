import Mathlib.Logic.Function.Iterate
import VisualScript.Compile.Inline
import VisualScript.Proofs.Code.Schedule
import VisualScript.Proofs.Reach

/-!
# Inlined code

Inlining copies code in front of that of other nodes.  What it copies is read off a
table of what each node needs, in which a pure node enters itself and its own needs
for each of its readers.
-/

namespace VisualScript

namespace Graph

/-- The nodes that a data output of the node is linked to. -/
def readers (g : Graph) (n : NodeId) : List NodeId :=
  (g.filteredPins n .output false).flatMap g.linkedNodes

/-- The pure nodes that a node reads, directly or through pure nodes. -/
def sources (g : Graph) (n : NodeId) : List NodeId :=
  reach g.dataDependencies (g.order.filter g.isPure) (g.dataDependencies n)

/-- Reading from a pure node is recorded at both ends. -/
def ReadsPaired (g : Graph) : Prop :=
  ∀ n m, g.isPure m = true → (n ∈ g.readers m ↔ m ∈ g.dataDependencies n)

variable {g : Graph} {k m n : NodeId}

theorem isPure_of_mem_sources (h : m ∈ g.sources n) : g.isPure m = true :=
  (List.mem_filter.1 (mem_reach.1 h).mem_vertices).2

theorem mem_sources_of_dependency (h : m ∈ g.dataDependencies n) (horder : m ∈ g.order)
    (hpure : g.isPure m = true) : m ∈ g.sources n :=
  mem_reach.2 (.start h (List.mem_filter.2 ⟨horder, hpure⟩))

/-- What a source reads through pure nodes is a source too. -/
theorem mem_sources_trans (h : k ∈ g.sources m) (hm : m ∈ g.sources n) : k ∈ g.sources n := by
  refine mem_reach.2 ((mem_reach.1 h).of_starts fun a ha hpure ↦ ?_)
  exact (mem_reach.1 hm).step ha hpure

end Graph

/-! ## What a function keeps -/

namespace FunctionContext

def withCode (c : FunctionContext) (table : List (NodeId × List Statement)) : FunctionContext :=
  { c with nodeStatements := table }

theorem prependStatements_eq (c : FunctionContext) (dest source : NodeId) :
    ∃ table, c.prependStatements dest source = c.withCode table := by
  unfold prependStatements
  split
  · exact ⟨c.nodeStatements, rfl⟩
  · exact ⟨_, rfl⟩

theorem statementsOf_prependStatements (c : FunctionContext) (dest source n : NodeId) :
    (c.prependStatements dest source).statementsOf n =
      if n = dest then c.statementsOf source ++ c.statementsOf dest else c.statementsOf n := by
  unfold prependStatements
  cases hsource : c.nodeStatements.lookup source with
  | none =>
    have hnone : c.statementsOf source = [] := by rw [statementsOf, hsource, Option.getD_none]
    dsimp only
    rw [hnone, List.nil_append]
    split
    · next heq => rw [heq]
    · rfl
  | some code =>
    have hcode : c.statementsOf source = code := by rw [statementsOf, hsource, Option.getD_some]
    simp only [statementsOf, Assoc.lookup_update]
    rw [← hcode]
    split <;> rfl

theorem foldl_prependStatements_eq (c : FunctionContext) (dest : NodeId) (sources : List NodeId) :
    ∃ table, sources.foldl (fun c p ↦ c.prependStatements dest p) c = c.withCode table := by
  induction sources generalizing c with
  | nil => exact ⟨c.nodeStatements, rfl⟩
  | cons p sources ih =>
    obtain ⟨table, htable⟩ := prependStatements_eq c dest p
    rw [List.foldl_cons, htable]
    exact ih (c.withCode table)

end FunctionContext

/-! ## Lists in the order of the schedule -/

namespace Inline

variable {schedule list ps : List NodeId} {m n : NodeId} {i : Nat}

theorem placeIn_eq (hnodup : schedule.Nodup) (h : schedule[i]? = some n) :
    placeIn schedule n = i := by
  rw [placeIn, lastIndex_eq_some hnodup h, Option.getD_some]

theorem mem_insertInOrder : m ∈ insertInOrder schedule n list ↔ m = n ∨ m ∈ list := by
  unfold insertInOrder
  split
  · next hn => exact ⟨.inr, fun h ↦ h.elim (fun heq ↦ heq ▸ hn) id⟩
  · dsimp only
    generalize (fun m ↦ decide (placeIn schedule m ≤ placeIn schedule n)) = before
    have hlist : m ∈ list ↔ m ∈ list.takeWhile before ∨ m ∈ list.dropWhile before := by
      rw [← List.mem_append, List.takeWhile_append_dropWhile]
    rw [List.mem_append, List.mem_cons, hlist]
    tauto

/-- A node goes between the nodes of the list that are scheduled before it and the others. -/
theorem insertInOrder_sublist (hnodup : schedule.Nodup) (hn : n ∈ schedule)
    (h : list.Sublist schedule) : (insertInOrder schedule n list).Sublist schedule := by
  unfold insertInOrder
  split
  · exact h
  · next hnew =>
    obtain ⟨before, after, rfl⟩ := List.append_of_mem hn
    obtain ⟨first, second, rfl, hfirst, hsecond⟩ := List.sublist_append_iff.1 h
    replace hsecond : second.Sublist after := by
      rcases List.sublist_cons_iff.1 hsecond with hsecond | ⟨rest, rfl, -⟩
      · exact hsecond
      · exact absurd (by simp) hnew
    have hplace : placeIn (before ++ n :: after) n = before.length := placeIn_eq hnodup (by simp)
    have hbefore (m : NodeId) (hm : m ∈ first) :
        placeIn (before ++ n :: after) m ≤ placeIn (before ++ n :: after) n := by
      obtain ⟨i, hi⟩ := List.getElem?_of_mem (hfirst.subset hm)
      have hlt : i < before.length := (List.getElem?_eq_some_iff.1 hi).1
      rw [hplace, placeIn_eq hnodup ((List.getElem?_append_left hlt).trans hi)]
      exact Nat.le_of_lt hlt
    have hafter (m : NodeId) (hm : m ∈ second) :
        ¬placeIn (before ++ n :: after) m ≤ placeIn (before ++ n :: after) n := by
      obtain ⟨i, hi⟩ := List.getElem?_of_mem (hsecond.subset hm)
      have hindex : (before ++ n :: after)[before.length + (i + 1)]? = some m := by
        rw [List.getElem?_append_right (Nat.le_add_right _ _), Nat.add_sub_cancel_left]
        exact hi
      rw [hplace, placeIn_eq hnodup hindex]
      omega
    dsimp only
    rw [List.takeWhile_append_of_pos fun m hm ↦ decide_eq_true (hbefore m hm),
      List.dropWhile_append_of_pos fun m hm ↦ decide_eq_true (hbefore m hm)]
    have hsplit : second.takeWhile (fun m ↦ decide (placeIn (before ++ n :: after) m ≤
          placeIn (before ++ n :: after) n)) = [] ∧
        second.dropWhile (fun m ↦ decide (placeIn (before ++ n :: after) m ≤
          placeIn (before ++ n :: after) n)) = second := by
      cases second with
      | nil => exact ⟨rfl, rfl⟩
      | cons m rest =>
        have hm := hafter m List.mem_cons_self
        exact ⟨List.takeWhile_cons_of_neg (by simpa using hm),
          List.dropWhile_cons_of_neg (by simpa using hm)⟩
    rw [hsplit.1, hsplit.2, List.append_nil]
    exact hfirst.append (hsecond.cons_cons n)

/-- Puts several nodes into a list. -/
abbrev insertAll (schedule ps list : List NodeId) : List NodeId :=
  ps.foldl (fun list p ↦ insertInOrder schedule p list) list

theorem mem_insertAll : m ∈ insertAll schedule ps list ↔ m ∈ ps ∨ m ∈ list := by
  induction ps generalizing list with
  | nil => simp
  | cons p ps ih =>
    rw [insertAll, List.foldl_cons, ih, mem_insertInOrder, List.mem_cons]
    tauto

theorem insertAll_sublist (hnodup : schedule.Nodup) (hps : ∀ p ∈ ps, p ∈ schedule)
    (h : list.Sublist schedule) : (insertAll schedule ps list).Sublist schedule := by
  induction ps generalizing list with
  | nil => exact h
  | cons p ps ih =>
    refine ih (fun q hq ↦ hps q (List.mem_cons_of_mem p hq)) ?_
    exact insertInOrder_sublist hnodup (hps p List.mem_cons_self) h

/-! ## What the nodes need -/

/-- The pure nodes that a node is known to need. -/
def State.needs (s : State) (n : NodeId) : List NodeId := (s.needed.lookup n).getD []

/-- Updating the entries of several keys updates each as often as it is named. -/
theorem lookup_foldl_update (f : List NodeId → List NodeId) (keys : List NodeId)
    (table : List (NodeId × List NodeId)) :
    ((keys.foldl (fun table key ↦ Assoc.update key [] f table) table).lookup m).getD [] =
      f^[keys.count m] ((table.lookup m).getD []) := by
  induction keys generalizing table with
  | nil => rfl
  | cons key keys ih =>
    rw [List.foldl_cons, ih, Assoc.lookup_update, List.count_cons]
    by_cases hm : m = key
    · simp [hm]
    · simp [hm, Ne.symm hm]

section Propagate

variable {s : State}

theorem needs_propagate (schedule : List NodeId) (s : State) (n m : NodeId) :
    (propagate schedule s n).needs m =
      if (s.needed.lookup n).isSome || s.ctx.generatedCode n then
        (insertAll schedule (n :: s.needs n))^[(s.ctx.graph.readers n).count m] (s.needs m)
      else s.needs m := by
  unfold propagate
  dsimp only
  split
  · exact lookup_foldl_update _ _ _
  · rfl

theorem needs_propagate_of_notMem (h : m ∉ s.ctx.graph.readers n) :
    (propagate schedule s n).needs m = s.needs m := by
  rw [needs_propagate, List.count_eq_zero_of_not_mem h]
  split <;> rfl

theorem mem_iterate_insertAll {k : NodeId} {times : Nat} :
    k ∈ (insertAll schedule ps)^[times] list ↔ 0 < times ∧ k ∈ ps ∨ k ∈ list := by
  induction times with
  | zero => simp
  | succ times ih =>
    rw [Function.iterate_succ_apply', mem_insertAll, ih]
    simp only [Nat.zero_lt_succ, true_and]
    tauto

/-- The readers of a node come to need it, if it has code, and what it needs. -/
theorem mem_needs_propagate {k : NodeId} : k ∈ (propagate schedule s n).needs m ↔
    k ∈ s.needs m ∨ m ∈ s.ctx.graph.readers n ∧
      ((s.needed.lookup n).isSome || s.ctx.generatedCode n) = true ∧ (k = n ∨ k ∈ s.needs n) := by
  rw [needs_propagate]
  split
  · next hactive =>
    rw [mem_iterate_insertAll, List.count_pos_iff, List.mem_cons]
    tauto
  · next hactive =>
    tauto

theorem isSome_of_mem_needs {k : NodeId} (h : k ∈ s.needs n) :
    (s.needed.lookup n).isSome = true := by
  rw [State.needs] at h
  cases hlookup : s.needed.lookup n with
  | none =>
    rw [hlookup] at h
    cases h
  | some list => rfl

theorem needs_propagate_sublist (hnodup : schedule.Nodup) (hn : n ∈ schedule)
    (h : ∀ m, (s.needs m).Sublist schedule) :
    ((propagate schedule s n).needs m).Sublist schedule := by
  rw [needs_propagate]
  split
  · generalize List.count m _ = times
    induction times with
    | zero => exact h m
    | succ times ih =>
      rw [Function.iterate_succ_apply']
      refine insertAll_sublist hnodup (fun p hp ↦ ?_) ih
      rcases List.mem_cons.1 hp with rfl | hp
      · exact hn
      · exact (h n).subset hp
  · exact h m

end Propagate

/-! ## The walk along the execution list -/

theorem frame_step {c : FunctionContext} {s : State} (h : ∃ table, s.ctx = c.withCode table) :
    ∃ table, (step schedule s n).ctx = c.withCode table := by
  unfold step
  split
  · unfold propagate
    dsimp only
    split <;> exact h
  · obtain ⟨table, htable⟩ := h
    obtain ⟨table', htable'⟩ := s.ctx.foldl_prependStatements_eq n (s.needs n).reverse
    exact ⟨table', htable'.trans (by rw [htable]; rfl)⟩

theorem statementsOf_foldl_prepend {c : FunctionContext} {sources : List NodeId} (h : n ∉ sources)
    (m : NodeId) :
    (sources.reverse.foldl (fun c p ↦ c.prependStatements n p) c).statementsOf m =
      if m = n then sources.flatMap c.statementsOf ++ c.statementsOf n else c.statementsOf m := by
  induction sources generalizing m with
  | nil =>
    split
    · next heq => rw [heq]; rfl
    · rfl
  | cons p sources ih =>
    obtain ⟨hne, hrest⟩ := List.ne_and_not_mem_of_not_mem_cons h
    rw [List.reverse_cons, List.foldl_append, List.foldl_cons, List.foldl_nil,
      FunctionContext.statementsOf_prependStatements, ih hrest, ih hrest, ih hrest, if_pos rfl,
      if_neg hne.symm]
    split
    · rw [List.flatMap_cons, List.append_assoc]
    · rfl

section Scheduled

variable {c : FunctionContext} (hschedule : c.graph.schedule = (c.executionList, []))
include hschedule

theorem nodup_executionList (hnodup : c.graph.order.Nodup) : c.executionList.Nodup := by
  have h := Graph.nodup_schedule hnodup
  rwa [hschedule] at h

theorem mem_executionList : n ∈ c.executionList ↔ n ∈ c.graph.order := by
  have hmem := Graph.mem_order_of_mem_schedule (g := c.graph) (n := n)
  have hplace := Graph.mem_schedule (g := c.graph) (n := n)
  rw [hschedule] at hmem hplace
  exact ⟨hmem, hplace rfl⟩

end Scheduled

end Inline

namespace FunctionContext

/-- Inlining moves code between nodes and shortens the execution list. -/
theorem inlinePureNodes_eq (c : FunctionContext) :
    ∃ table list, c.inlinePureNodes = { c.withCode table with executionList := list } := by
  have hfold (schedule list : List NodeId) (s : Inline.State)
      (hs : ∃ table, s.ctx = c.withCode table) :
      ∃ table, (list.foldl (Inline.step schedule) s).ctx = c.withCode table := by
    induction list generalizing s with
    | nil => exact hs
    | cons n list ih => exact ih _ (Inline.frame_step hs)
  obtain ⟨table, htable⟩ := hfold c.executionList c.executionList { ctx := c } ⟨_, rfl⟩
  refine ⟨table, (c.executionList.foldl (Inline.step c.executionList) { ctx := c }).kept, ?_⟩
  simp only [inlinePureNodes, htable]

end FunctionContext

/-!
## What inlining keeps

Whatever the graph looks like, inlining keeps the impure nodes, puts code only in front of
that of a node, and leaves a node alone that reads no pure node.
-/

namespace Inline

variable {c : FunctionContext} {schedule : List NodeId} {s : State} {m n : NodeId}

/-- What inlining keeps of the nodes so far. -/
structure Kept (c : FunctionContext) (done : List NodeId) (s : State) : Prop where
  frame : ∃ table, s.ctx = c.withCode table
  kept : s.kept = done.filter fun n ↦ !c.graph.isPure n
  suffix : ∀ n, c.statementsOf n <:+ s.ctx.statementsOf n

theorem Kept.start (c : FunctionContext) : Kept c [] { ctx := c } :=
  ⟨⟨_, rfl⟩, rfl, fun _ ↦ List.suffix_refl _⟩

theorem Kept.graph {done : List NodeId} (h : Kept c done s) : s.ctx.graph = c.graph := by
  obtain ⟨table, hframe⟩ := h.frame
  rw [hframe]
  rfl

theorem suffix_foldl_prepend (c : FunctionContext) (dest n : NodeId) (sources : List NodeId) :
    c.statementsOf n <:+
      (sources.foldl (fun c p ↦ c.prependStatements dest p) c).statementsOf n := by
  induction sources generalizing c with
  | nil => exact List.suffix_refl _
  | cons p sources ih =>
    refine List.IsSuffix.trans ?_ (ih (c.prependStatements dest p))
    rw [FunctionContext.statementsOf_prependStatements]
    split
    · next heq => exact heq ▸ List.suffix_append _ _
    · exact List.suffix_refl _

theorem statementsOf_foldl_prepend_of_ne (c : FunctionContext) {dest : NodeId} (h : n ≠ dest)
    (sources : List NodeId) :
    (sources.foldl (fun c p ↦ c.prependStatements dest p) c).statementsOf n = c.statementsOf n := by
  induction sources generalizing c with
  | nil => rfl
  | cons p sources ih =>
    rw [List.foldl_cons, ih, FunctionContext.statementsOf_prependStatements, if_neg h]

theorem ctx_propagate (schedule : List NodeId) (s : State) (n : NodeId) :
    (propagate schedule s n).ctx = s.ctx ∧ (propagate schedule s n).kept = s.kept := by
  unfold propagate
  dsimp only
  split <;> exact ⟨rfl, rfl⟩

theorem Kept.step {done : List NodeId} (h : Kept c done s) (schedule : List NodeId) (n : NodeId) :
    Kept c (done ++ [n]) (step schedule s n) := by
  refine ⟨frame_step h.frame, ?_, fun m ↦ ?_⟩
  · unfold Inline.step
    rw [h.graph, List.filter_append, ← h.kept]
    split
    · next hpure => rw [(ctx_propagate _ _ _).2]; simp [hpure]
    · next himpure => rw [finish]; simp [himpure]
  · unfold Inline.step
    split
    · rw [(ctx_propagate _ _ _).1]
      exact h.suffix m
    · exact (h.suffix m).trans (suffix_foldl_prepend _ _ _ _)

theorem Kept.foldl {done : List NodeId} (h : Kept c done s) (schedule rest : List NodeId) :
    Kept c (done ++ rest) (rest.foldl (Inline.step schedule) s) := by
  induction rest generalizing done s with
  | nil => rwa [List.append_nil]
  | cons n rest ih =>
    have hrest := ih (h.step schedule n)
    rwa [List.append_assoc, List.singleton_append] at hrest

/-- A node that reads no pure node comes to need none and keeps its code. -/
theorem untouched_foldl (hreads : ∀ m, c.graph.isPure m = true → n ∉ c.graph.readers m)
    {done : List NodeId} (h : Kept c done s) (hneeds : s.needs n = [])
    (hcode : s.ctx.statementsOf n = c.statementsOf n) (rest : List NodeId) :
    (rest.foldl (Inline.step schedule) s).ctx.statementsOf n = c.statementsOf n := by
  induction rest generalizing done s with
  | nil => exact hcode
  | cons m rest ih =>
    refine ih (h.step schedule m) ?_ ?_
    · unfold Inline.step
      split
      · next hpure =>
        rw [needs_propagate_of_notMem, hneeds]
        rw [h.graph] at hpure ⊢
        exact hreads m hpure
      · exact hneeds
    · unfold Inline.step
      split
      · rw [(ctx_propagate _ _ _).1, hcode]
      · by_cases hn : n = m
        · subst hn
          have hfinish : (finish s n).ctx = ((s.needs n).reverse.foldl
              (fun c p ↦ c.prependStatements n p) s.ctx) := rfl
          rw [hfinish, hneeds]
          exact hcode
        · exact (statementsOf_foldl_prepend_of_ne _ hn _).trans hcode

end Inline

namespace FunctionContext

variable (c : FunctionContext)

/-- Only the impure nodes are kept. -/
theorem executionList_inlinePureNodes :
    c.inlinePureNodes.executionList = c.executionList.filter fun n ↦ !c.graph.isPure n :=
  ((Inline.Kept.start c).foldl c.executionList c.executionList).kept

/-- The code of a node ends as it did. -/
theorem suffix_inlinePureNodes (n : NodeId) :
    c.statementsOf n <:+ c.inlinePureNodes.statementsOf n :=
  ((Inline.Kept.start c).foldl c.executionList c.executionList).suffix n

/-- A node that reads no pure node keeps its code. -/
theorem statementsOf_inlinePureNodes_of_notMem {n : NodeId}
    (h : ∀ m, c.graph.isPure m = true → n ∉ c.graph.readers m) :
    c.inlinePureNodes.statementsOf n = c.statementsOf n :=
  Inline.untouched_foldl h (.start c) rfl rfl c.executionList

end FunctionContext

end VisualScript
