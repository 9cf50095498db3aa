import VisualScript.Proofs.Code.Inlining
import Mathlib.Logic.Relation

/-!
# Supplies

An impure node gets the code of exactly the pure nodes that supply it with values: those from which
data links lead to it through pure nodes, as far as they have code or pass on what code computes.
-/

namespace VisualScript

open Relation (TransGen)

namespace Graph

variable {g : Graph} {k m n : NodeId}

/-- A pure node of the list hands its value to a node that reads it. -/
def HandsTo (g : Graph) (listed : List NodeId) (m n : NodeId) : Prop :=
  m ∈ listed ∧ g.isPure m = true ∧ n ∈ g.readers m

/-- Data links lead from a pure node of the list to a node, through pure nodes of the list. -/
def Supplies (g : Graph) (listed : List NodeId) : NodeId → NodeId → Prop :=
  TransGen (g.HandsTo listed)

theorem HandsTo.mono {listed listed' : List NodeId} (h : g.HandsTo listed m n)
    (hsubset : listed ⊆ listed') : g.HandsTo listed' m n :=
  ⟨hsubset h.1, h.2⟩

theorem Supplies.mono {listed listed' : List NodeId} (h : g.Supplies listed m n)
    (hsubset : listed ⊆ listed') : g.Supplies listed' m n :=
  TransGen.mono (fun _ _ hstep ↦ HandsTo.mono hstep hsubset) _ _ h

theorem Supplies.source {listed : List NodeId} (h : g.Supplies listed m n) :
    m ∈ listed ∧ g.isPure m = true := by
  obtain ⟨k, hstep, -⟩ := TransGen.head'_iff.1 h
  exact ⟨hstep.1, hstep.2.1⟩

end Graph

namespace FunctionContext

/-- No node of the list reads from a pure one that comes after it. -/
def ReadsBackwards (c : FunctionContext) : Prop :=
  c.executionList.Pairwise fun n m ↦ c.graph.isPure m = true → n ∉ c.graph.readers m

instance (c : FunctionContext) : Decidable c.ReadsBackwards :=
  inferInstanceAs (Decidable (List.Pairwise _ _))

/-- A node has code, or is supplied by a node that has. -/
def Carries (c : FunctionContext) (m : NodeId) : Prop :=
  c.generatedCode m = true ∨
    ∃ k, c.graph.Supplies c.executionList k m ∧ c.generatedCode k = true

/-- The pure nodes whose code belongs in front of that of a node. -/
def Needs (c : FunctionContext) (n m : NodeId) : Prop :=
  c.graph.Supplies c.executionList m n ∧ c.Carries m

theorem Carries.of_supplies {c : FunctionContext} {m n : NodeId} (h : c.Carries m)
    (hsupplies : c.graph.Supplies c.executionList m n) : c.Carries n := by
  rcases h with hcode | ⟨k, hk, hcode⟩
  · exact .inr ⟨m, hsupplies, hcode⟩
  · exact .inr ⟨k, hk.trans hsupplies, hcode⟩

end FunctionContext

namespace Inline

open FunctionContext

/-! ## A turn of the walk -/

section Turn

variable {c : FunctionContext} {done rest : List NodeId} {k m n : NodeId}
  (hreads : c.ReadsBackwards) (hlist : c.executionList = done ++ n :: rest)
include hreads hlist

/-- What hands a node its value comes before it. -/
theorem mem_done_of_handsTo (h : c.graph.HandsTo c.executionList k m) (hm : m ∈ done ++ [n])
    (hne : k ≠ m) : k ∈ done := by
  obtain ⟨hk, hpure, hreader⟩ := h
  rw [ReadsBackwards, hlist, List.pairwise_append, List.pairwise_cons] at hreads
  obtain ⟨-, ⟨hturn, -⟩, hdone⟩ := hreads
  rw [hlist] at hk
  refine (List.mem_append.1 hk).resolve_right fun hlater ↦ ?_
  rcases List.mem_append.1 hm with hm | hm
  · exact hdone m hm k hlater hpure hreader
  · obtain rfl := List.mem_singleton.1 hm
    exact hturn k ((List.mem_cons.1 hlater).resolve_left hne) hpure hreader

/-- What supplies the node whose turn it is has had its turn, but for the node itself. -/
theorem supplies_done (h : c.graph.Supplies c.executionList k m) (hm : m ∈ done ++ [n]) :
    k = m ∨ c.graph.Supplies done k m := by
  induction h with
  | single hstep =>
    refine or_iff_not_imp_left.2 fun hne ↦ .single ⟨?_, hstep.2⟩
    exact mem_done_of_handsTo hreads hlist hstep hm hne
  | @tail l m _ hstep ih =>
    by_cases hne : l = m
    · exact hne ▸ ih (hne ▸ hm)
    · have hl := mem_done_of_handsTo hreads hlist hstep hm hne
      have hlast : c.graph.HandsTo done l m := ⟨hl, hstep.2⟩
      rcases ih (List.mem_append_left _ hl) with rfl | hsupplies
      · exact .inr (.single hlast)
      · exact .inr (hsupplies.tail hlast)

/-- After the turn of a pure node its readers are supplied by it and by what supplies it. -/
theorem supplies_turn (hnew : n ∉ done) (hpure : c.graph.isPure n = true) (hm : m ∉ done ++ [n]) :
    c.graph.Supplies (done ++ [n]) k m ↔ c.graph.Supplies done k m ∨
      m ∈ c.graph.readers n ∧ (k = n ∨ c.graph.Supplies done k n) := by
  have hsubset : done ⊆ done ++ [n] := List.subset_append_left done [n]
  have hlisted : done ++ [n] ⊆ c.executionList := by
    rw [hlist, List.append_cons done n rest]
    exact List.subset_append_left _ _
  have hturn : n ∈ done ++ [n] := by simp
  constructor
  · intro h
    cases h with
    | single hstep =>
      rcases List.mem_append.1 hstep.1 with hk | hk
      · exact .inl (.single ⟨hk, hstep.2⟩)
      · obtain rfl := List.mem_singleton.1 hk
        exact .inr ⟨hstep.2.2, .inl rfl⟩
    | @tail l _ hsupplies hstep =>
      have hl := supplies_done hreads hlist (Graph.Supplies.mono hsupplies hlisted) hstep.1
      rcases List.mem_append.1 hstep.1 with hdone | hlast
      · refine .inl ?_
        rcases hl with rfl | hl
        · exact .single ⟨hdone, hstep.2⟩
        · exact hl.tail ⟨hdone, hstep.2⟩
      · obtain rfl := List.mem_singleton.1 hlast
        exact .inr ⟨hstep.2.2, hl⟩
  · rintro (h | ⟨hreader, h⟩)
    · exact h.mono hsubset
    · have hlast : c.graph.HandsTo (done ++ [n]) n m := ⟨hturn, hpure, hreader⟩
      rcases h with rfl | h
      · exact .single hlast
      · exact (h.mono hsubset).tail hlast

end Turn

/-! ## The walk along the list -/

/-- What inlining has done for the nodes so far. -/
structure Supplied (c : FunctionContext) (done : List NodeId) (s : State) : Prop
    extends Kept c done s where
  ordered : ∀ m, (s.needs m).Sublist c.executionList
  /-- An entry in the table of needs is not empty. -/
  listed : ∀ m, s.needed.lookup m ≠ some []
  /-- A node whose turn is to come needs what supplies it so far. -/
  needs : ∀ m, m ∉ done → ∀ k, k ∈ s.needs m ↔ c.graph.Supplies done k m ∧ c.Carries k
  own : ∀ m, (m ∈ done → c.graph.isPure m = true) → s.ctx.statementsOf m = c.statementsOf m
  gathered : ∀ m ∈ done, c.graph.isPure m = false → ∃ needed : List NodeId,
    needed.Sublist c.executionList ∧ (∀ k, k ∈ needed ↔ c.Needs m k) ∧
      s.ctx.statementsOf m = needed.flatMap c.statementsOf ++ c.statementsOf m

theorem Supplied.start (c : FunctionContext) : Supplied c [] { ctx := c } where
  toKept := .start c
  ordered _ := List.nil_sublist _
  listed _ := nofun
  needs m _ k := by
    refine iff_of_false (List.not_mem_nil) fun h ↦ ?_
    exact List.not_mem_nil h.1.source.1
  own _ _ := rfl
  gathered _ hm := by cases hm

theorem lookup_foldl_update_ne_nil {f : List NodeId → List NodeId} (hf : ∀ list, f list ≠ [])
    (keys : List NodeId) {table : List (NodeId × List NodeId)} {m : NodeId}
    (h : table.lookup m ≠ some []) :
    (keys.foldl (fun table key ↦ Assoc.update key [] f table) table).lookup m ≠ some [] := by
  induction keys generalizing table with
  | nil => exact h
  | cons key keys ih =>
    refine ih ?_
    rw [Assoc.lookup_update]
    split
    · exact fun heq ↦ hf _ (Option.some.inj heq)
    · exact h

section Walk

variable {c : FunctionContext} {done rest : List NodeId} {n : NodeId} {s : State}
  (hreads : c.ReadsBackwards)
include hreads

/-- A node passes something on if it carries code. -/
theorem active_iff (h : Supplied c done s) (hlist : c.executionList = done ++ n :: rest)
    (hnew : n ∉ done) :
    ((s.needed.lookup n).isSome || s.ctx.generatedCode n) = true ↔ c.Carries n := by
  have hown : s.ctx.generatedCode n = c.generatedCode n := by
    rw [FunctionContext.generatedCode, h.own n fun hn ↦ absurd hn hnew]
    rfl
  have hlisted : done ⊆ c.executionList := hlist ▸ List.subset_append_left _ _
  rw [Bool.or_eq_true, hown]
  constructor
  · rintro (hsome | hcode)
    · obtain ⟨list, hlookup⟩ := Option.isSome_iff_exists.1 hsome
      obtain ⟨k, hk⟩ : ∃ k, k ∈ list :=
        List.exists_mem_of_ne_nil list fun hnil ↦ h.listed n (hnil ▸ hlookup)
      have hneeds : k ∈ s.needs n := by rwa [State.needs, hlookup]
      obtain ⟨hsupplies, hcarries⟩ := (h.needs n hnew k).1 hneeds
      exact hcarries.of_supplies (hsupplies.mono hlisted)
    · exact .inl hcode
  · rintro (hcode | ⟨k, hsupplies, hcode⟩)
    · exact .inr hcode
    · rcases supplies_done hreads hlist hsupplies (by simp) with rfl | hdone
      · exact .inr hcode
      · exact .inl (isSome_of_mem_needs ((h.needs n hnew k).2 ⟨hdone, .inl hcode⟩))

theorem supplied_propagate (hnodup : c.executionList.Nodup) (h : Supplied c done s)
    (hlist : c.executionList = done ++ n :: rest) (hnew : n ∉ done) (hpure : c.graph.isPure n = true) :
    Supplied c (done ++ [n]) (propagate c.executionList s n) := by
  have hgraph := h.graph
  have hstep : step c.executionList s n = propagate c.executionList s n := by
    rw [step, hgraph, if_pos hpure]
  obtain ⟨hctx, -⟩ := ctx_propagate c.executionList s n
  have hmem : n ∈ c.executionList := by simp [hlist]
  refine ⟨hstep ▸ h.toKept.step c.executionList n, ?_, fun m ↦ ?_, fun m hm k ↦ ?_,
    fun m hm ↦ ?_, fun m hm himpure ↦ ?_⟩
  · exact fun m ↦ needs_propagate_sublist hnodup hmem h.ordered
  · unfold propagate
    dsimp only
    split
    · refine lookup_foldl_update_ne_nil (fun list hnil ↦ ?_) _ (h.listed m)
      have hn : n ∈ insertAll c.executionList (n :: (s.needed.lookup n).getD []) list :=
        mem_insertAll.2 (.inl List.mem_cons_self)
      rw [insertAll, hnil] at hn
      cases hn
    · exact h.listed m
  · have hnotMem : m ∉ done := fun hdone ↦ hm (List.mem_append_left _ hdone)
    rw [mem_needs_propagate, active_iff hreads h hlist hnew, h.needs m hnotMem,
      h.needs n hnew, supplies_turn hreads hlist hnew hpure hm, hgraph]
    have hlisted : done ⊆ c.executionList := hlist ▸ List.subset_append_left _ _
    constructor
    · rintro (⟨hsupplies, hcarries⟩ | ⟨hreader, hactive, rfl | ⟨hsupplies, hcarries⟩⟩)
      · exact ⟨.inl hsupplies, hcarries⟩
      · exact ⟨.inr ⟨hreader, .inl rfl⟩, hactive⟩
      · exact ⟨.inr ⟨hreader, .inr hsupplies⟩, hcarries⟩
    · rintro ⟨hsupplies | ⟨hreader, rfl | hsupplies⟩, hcarries⟩
      · exact .inl ⟨hsupplies, hcarries⟩
      · exact .inr ⟨hreader, hcarries, .inl rfl⟩
      · exact .inr ⟨hreader, hcarries.of_supplies (hsupplies.mono hlisted),
          .inr ⟨hsupplies, hcarries⟩⟩
  · rw [hctx]
    refine h.own m fun hdone ↦ hm (List.mem_append_left _ hdone)
  · rw [hctx]
    refine h.gathered m ((List.mem_append.1 hm).resolve_right fun hlast ↦ ?_) himpure
    rw [List.mem_singleton.1 hlast, hpure] at himpure
    cases himpure

theorem supplied_finish (h : Supplied c done s) (hlist : c.executionList = done ++ n :: rest)
    (hnew : n ∉ done) (himpure : c.graph.isPure n = false) :
    Supplied c (done ++ [n]) (finish s n) := by
  have hgraph := h.graph
  have hstep : step c.executionList s n = finish s n := by
    rw [step, hgraph, if_neg (by simp [himpure])]
  have hlisted : done ⊆ c.executionList := hlist ▸ List.subset_append_left _ _
  -- What supplies an impure node is pure, so that it is another node.
  have hneeds (k : NodeId) : k ∈ s.needs n ↔ c.Needs n k := by
    rw [h.needs n hnew, Needs]
    refine and_congr_left fun _ ↦ ⟨fun hk ↦ hk.mono hlisted, fun hk ↦ ?_⟩
    refine (supplies_done hreads hlist hk (by simp)).resolve_left ?_
    rintro rfl
    rw [hk.source.2] at himpure
    cases himpure
  have hsources (k : NodeId) (hk : k ∈ s.needs n) : s.ctx.statementsOf k = c.statementsOf k :=
    h.own k fun _ ↦ ((hneeds k).1 hk).1.source.2
  have hself : n ∉ s.needs n := by
    intro hn
    rw [((hneeds n).1 hn).1.source.2] at himpure
    cases himpure
  have hcode (m : NodeId) : (finish s n).ctx.statementsOf m = if m = n then
      (s.needs n).flatMap c.statementsOf ++ c.statementsOf n else s.ctx.statementsOf m := by
    refine (statementsOf_foldl_prepend hself m).trans ?_
    rw [h.own n fun hn ↦ absurd hn hnew, List.flatMap_congr hsources]
  have hsubset : done ⊆ done ++ [n] := List.subset_append_left done [n]
  refine ⟨hstep ▸ h.toKept.step c.executionList n, h.ordered, h.listed, fun m hm k ↦ ?_,
    fun m hm ↦ ?_, fun m hm hm' ↦ ?_⟩
  · refine (h.needs m (fun hdone ↦ hm (hsubset hdone)) k).trans ?_
    refine and_congr_left fun _ ↦ ⟨fun hk ↦ hk.mono hsubset, fun hk ↦ ?_⟩
    refine Relation.TransGen.mono (fun a b hab ↦ ⟨?_, hab.2⟩) _ _ hk
    refine (List.mem_append.1 hab.1).resolve_right fun hlast ↦ ?_
    rw [← List.mem_singleton.1 hlast, hab.2.1] at himpure
    cases himpure
  · rw [hcode, if_neg]
    · exact h.own m fun hdone ↦ hm (hsubset hdone)
    · rintro rfl
      rw [hm (by simp)] at himpure
      cases himpure
  · rw [hcode]
    split
    · next heq =>
      subst heq
      exact ⟨s.needs m, h.ordered m, hneeds, rfl⟩
    · next hne =>
      exact h.gathered m ((List.mem_append.1 hm).resolve_right fun hlast ↦
        hne (List.mem_singleton.1 hlast)) hm'

theorem supplied_foldl (hnodup : c.executionList.Nodup) (h : Supplied c done s)
    (hlist : c.executionList = done ++ rest) :
    Supplied c c.executionList (rest.foldl (step c.executionList) s) := by
  induction rest generalizing done s with
  | nil =>
    rw [List.append_nil] at hlist
    rwa [hlist]
  | cons n rest ih =>
    have hnew : n ∉ done := by
      have hdistinct := hnodup
      rw [hlist, List.nodup_append] at hdistinct
      exact fun hn ↦ hdistinct.2.2 n hn n List.mem_cons_self rfl
    refine ih ?_ (hlist.trans (List.append_cons done n rest))
    unfold step
    rw [h.graph]
    split
    · next hpure => exact supplied_propagate hreads hnodup h hlist hnew hpure
    · next himpure =>
      exact supplied_finish hreads h hlist hnew (Bool.eq_false_iff.2 himpure)

end Walk

end Inline

namespace FunctionContext

variable {c : FunctionContext}

/-! ## Scheduled functions -/

section Scheduled

variable (hschedule : c.graph.schedule = (c.executionList, [])) (hpaired : c.graph.ReadsPaired)
include hschedule hpaired

/-- In a schedule a node comes after the pure nodes that it reads. -/
theorem readsBackwards (hnodup : c.graph.order.Nodup) : c.ReadsBackwards := by
  have hdistinct := Inline.nodup_executionList hschedule hnodup
  refine List.pairwise_iff_forall_sublist.2 fun {n m} hsublist hpure hreader ↦ ?_
  obtain ⟨before, after, hlist, hn, hm⟩ := List.cons_sublist_iff.1 hsublist
  obtain ⟨before, between, rfl⟩ := List.append_of_mem hn
  have hsplit : c.graph.schedule.1 = before ++ n :: (between ++ after) := by
    rw [hschedule, hlist, List.append_assoc, List.cons_append]
  have hmem : m ∈ after := List.singleton_sublist.1 hm
  have hbefore := Graph.mem_before_of_schedule hnodup hsplit ((hpaired n m hpure).1 hreader)
    ((Inline.mem_executionList hschedule).1 (by simp [hlist, hmem]))
  rw [hlist, List.nodup_append] at hdistinct
  exact hdistinct.2.2 m (List.mem_append_left _ hbefore) m hmem rfl

/-- A node is supplied by the pure nodes that it reads, directly or through pure nodes. -/
theorem supplies_iff {m n : NodeId} :
    c.graph.Supplies c.executionList m n ↔ m ∈ c.graph.sources n := by
  have hmem {k : NodeId} := Inline.mem_executionList (n := k) hschedule
  constructor
  · intro h
    induction h with
    | single hstep =>
      exact Graph.mem_sources_of_dependency ((hpaired _ _ hstep.2.1).1 hstep.2.2)
        (hmem.1 hstep.1) hstep.2.1
    | tail _ hstep ih =>
      exact Graph.mem_sources_trans ih (Graph.mem_sources_of_dependency
        ((hpaired _ _ hstep.2.1).1 hstep.2.2) (hmem.1 hstep.1) hstep.2.1)
  · intro h
    induction mem_reach.1 h with
    | start hread hvertex =>
      obtain ⟨horder, hpure⟩ := List.mem_filter.1 hvertex
      exact .single ⟨hmem.2 horder, hpure, (hpaired _ _ hpure).2 hread⟩
    | step hreaches hread hvertex ih =>
      obtain ⟨horder, hpure⟩ := List.mem_filter.1 hvertex
      exact (ih (mem_reach.2 hreaches)).head ⟨hmem.2 horder, hpure, (hpaired _ _ hpure).2 hread⟩

/-- After inlining the code of an impure node begins with that of nodes that it reads through pure
nodes, in the order of the schedule, and none that has code is missing. -/
theorem inlinePureNodes_spec (hnodup : c.graph.order.Nodup) :
    c.inlinePureNodes.executionList = c.executionList.filter (fun n ↦ !c.graph.isPure n) ∧
      ∀ n ∈ c.executionList, c.graph.isPure n = false → ∃ needed : List NodeId,
        needed.Sublist c.executionList ∧ needed ⊆ c.graph.sources n ∧
        (∀ m ∈ c.graph.sources n, c.generatedCode m = true → m ∈ needed) ∧
        c.inlinePureNodes.statementsOf n = needed.flatMap c.statementsOf ++ c.statementsOf n := by
  have hsupplies {m n : NodeId} := supplies_iff (m := m) (n := n) hschedule hpaired
  have hend := Inline.supplied_foldl (readsBackwards hschedule hpaired hnodup)
    (Inline.nodup_executionList hschedule hnodup) (.start c) (List.nil_append _).symm
  refine ⟨hend.kept, fun n hn himpure ↦ ?_⟩
  obtain ⟨needed, hsublist, hneeded, hcode⟩ := hend.gathered n hn himpure
  refine ⟨needed, hsublist, fun m hm ↦ hsupplies.1 ((hneeded m).1 hm).1, fun m hm hgen ↦ ?_, hcode⟩
  exact (hneeded m).2 ⟨hsupplies.2 hm, .inl hgen⟩

end Scheduled

/-! ## Any function -/

/-- Inlining leaves the impure nodes in their order.  In front of the code of each comes that of
the pure nodes that it needs, each once and in the order of the list, and no other code changes. -/
theorem supplied_inlinePureNodes (hnodup : c.executionList.Nodup)
    (hreads : c.ReadsBackwards) :
    c.inlinePureNodes.executionList = c.executionList.filter (fun n ↦ !c.graph.isPure n) ∧
    (∀ n ∈ c.executionList, c.graph.isPure n = false → ∃ needed : List NodeId,
      needed.Sublist c.executionList ∧ (∀ m, m ∈ needed ↔ c.Needs n m) ∧
      c.inlinePureNodes.statementsOf n = needed.flatMap c.statementsOf ++ c.statementsOf n) ∧
    ∀ n, (n ∈ c.executionList → c.graph.isPure n = true) →
      c.inlinePureNodes.statementsOf n = c.statementsOf n := by
  have hend := Inline.supplied_foldl hreads hnodup (.start c) (List.nil_append _).symm
  exact ⟨hend.kept, hend.gathered, hend.own⟩

/-- A call that reads one value directly and along two ways, and a value that nothing computes. -/
def diamond : FunctionContext where
  functionName := "Diamond"
  graph :=
    let call (id : Nat) (pure : Bool) (pins : List PinId) : Node :=
      { id := ⟨id⟩, kind := .callFunction (.library "Combine" "Lib" pure), pins }
    let pin (id owner : Nat) (direction : Direction) (links : List PinId) : Pin :=
      { id := ⟨id⟩, owner := ⟨owner⟩, name := "", direction, ty := .int, links }
    { name := "Diamond"
      nodes := ⟨#[some (call 0 true [⟨0⟩]), some (call 1 true [⟨1⟩, ⟨2⟩]),
        some (call 2 true [⟨3⟩, ⟨4⟩]), some (call 3 true [⟨5⟩]),
        some (call 4 false [⟨6⟩, ⟨7⟩, ⟨8⟩, ⟨9⟩])]⟩
      pins := ⟨#[some (pin 0 0 .output [⟨1⟩, ⟨3⟩, ⟨6⟩]), some (pin 1 1 .input [⟨0⟩]),
        some (pin 2 1 .output [⟨7⟩]), some (pin 3 2 .input [⟨0⟩]), some (pin 4 2 .output [⟨8⟩]),
        some (pin 5 3 .output [⟨9⟩]), some (pin 6 4 .input [⟨0⟩]), some (pin 7 4 .input [⟨2⟩]),
        some (pin 8 4 .input [⟨4⟩]), some (pin 9 4 .input [⟨5⟩])]⟩
      order := [⟨0⟩, ⟨1⟩, ⟨2⟩, ⟨3⟩, ⟨4⟩] }
  executionList := [⟨0⟩, ⟨2⟩, ⟨1⟩, ⟨3⟩, ⟨4⟩]
  nodeStatements := [
    (⟨0⟩, [.debugSite ⟨0⟩, .assignment ⟨0⟩ ⟨1⟩]),
    (⟨1⟩, [.debugSite ⟨1⟩]),
    (⟨2⟩, [.assignment ⟨2⟩ ⟨0⟩]),
    (⟨3⟩, [.debugSite ⟨3⟩]),
    (⟨4⟩, [.assignment ⟨3⟩ ⟨2⟩])]

theorem supplied_inlinePureNodes_diamond :
    diamond.executionList.Nodup ∧ diamond.ReadsBackwards ∧
      diamond.inlinePureNodes.executionList = [⟨4⟩] ∧
      ∃ needed : List NodeId, needed.Sublist diamond.executionList ∧
        (∀ m, m ∈ needed ↔ diamond.Needs ⟨4⟩ m) ∧
        diamond.inlinePureNodes.statementsOf ⟨4⟩ =
          needed.flatMap diamond.statementsOf ++ diamond.statementsOf ⟨4⟩ := by
  have hnodup : diamond.executionList.Nodup := by decide
  have hreads : diamond.ReadsBackwards := by decide
  obtain ⟨hlist, hcode, -⟩ := supplied_inlinePureNodes hnodup hreads
  have himpure : diamond.executionList.filter (fun n ↦ !diamond.graph.isPure n) = [⟨4⟩] := by decide
  exact ⟨hnodup, hreads, hlist.trans himpure, hcode ⟨4⟩ (by decide) (by decide)⟩

/-- The value that two nodes combine is computed first and once, and the one that nothing computes
not at all. -/
example : diamond.inlinePureNodes.statementsOf ⟨4⟩ =
    [.debugSite ⟨0⟩, .assignment ⟨0⟩ ⟨1⟩, .assignment ⟨2⟩ ⟨0⟩, .debugSite ⟨1⟩,
      .assignment ⟨3⟩ ⟨2⟩] := by
  decide

end FunctionContext

end VisualScript
