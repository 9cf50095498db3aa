import VisualScript.Compile.Schedule
import VisualScript.Proofs.Reach
import Mathlib.Data.List.Nodup
import Mathlib.Data.List.Basic
import Mathlib.Data.List.Perm.Subperm
import Mathlib.Data.Fintype.Card
import Mathlib.Data.Set.Finite.List
import Mathlib.Order.WellFounded

/-!
# Schedules

A schedule names every node once and puts it after the nodes that it reads from.  It is greedy:
whenever several nodes could come next, the first of the order does.

A node has no place exactly if a walk along the nodes that are read comes to a cycle.  The nodes
without a place are reported in the order, those on a cycle and those behind one in different words.
-/

namespace VisualScript

/-- In a list without repeats the last place of a member is the only one. -/
theorem lastIndex_eq_some {α : Type} [DecidableEq α] {l : List α} {a : α} {i : Nat}
    (hnodup : l.Nodup) (h : l[i]? = some a) :
    (l.zipIdx.filter fun e ↦ e.1 = a).getLast?.map (·.2) = some i := by
  have hmem : (a, i) ∈ l.zipIdx.filter fun e ↦ e.1 = a :=
    List.mem_filter.2 ⟨List.mem_zipIdx_iff_getElem?.2 h, by simp⟩
  cases hlast : (l.zipIdx.filter fun e ↦ e.1 = a).getLast? with
  | none =>
    rw [List.getLast?_eq_none_iff.1 hlast] at hmem
    cases hmem
  | some e =>
    obtain ⟨hentry, ha⟩ := List.mem_filter.1 (List.mem_of_getLast? hlast)
    have he : l[e.2]? = some a := by
      rw [← of_decide_eq_true ha]
      exact List.mem_zipIdx_iff_getElem?.1 hentry
    obtain ⟨hlt, -⟩ := List.getElem?_eq_some_iff.1 he
    exact congrArg some ((List.getElem?_inj hlt hnodup).1 (he.trans h.symm))

/-! ## Positions -/

namespace Schedule

variable {table : List (List Nat)} {done : List Nat} {i : Nat}

/-- What a schedule of positions keeps while it grows. -/
structure Sound (table : List (List Nat)) (done : List Nat) : Prop where
  nodup : done.Nodup
  lt : ∀ i ∈ done, i < table.length
  after : ∀ before i rest, done = before ++ i :: rest → ∀ j ∈ table[i]?.getD [], j ∈ before

theorem ready?_eq_some (h : ready? table done = some i) :
    i < table.length ∧ i ∉ done ∧ ∀ j ∈ table[i]?.getD [], j ∈ done := by
  obtain ⟨⟨dependencies, i⟩, hfind, rfl⟩ := Option.map_eq_some_iff.1 h
  have hentry : table[i]? = some dependencies :=
    List.mem_zipIdx_iff_getElem?.1 (List.mem_of_find?_eq_some hfind)
  have hready := List.find?_some hfind
  simp only [Bool.and_eq_true, decide_eq_true_eq, List.all_eq_true] at hready
  refine ⟨(List.getElem?_eq_some_iff.1 hentry).1, hready.1, fun j hj ↦ ?_⟩
  rw [hentry] at hj
  exact hready.2 j hj

/-- A position before the first that is ready waits for one that is not done. -/
theorem waits_of_lt (h : ready? table done = some i) {j : Nat} (hlt : j < i) (hnew : j ∉ done) :
    ∃ k ∈ table[j]?.getD [], k ∉ done := by
  obtain ⟨e, hfind, rfl⟩ := Option.map_eq_some_iff.1 h
  obtain ⟨-, i, hi, rfl, hbefore⟩ := List.find?_eq_some_iff_getElem.1 hfind
  have hbound : i < table.length := by simpa using hi
  replace hlt : j < i := by simpa using hlt
  have hwaits := hbefore j hlt
  rw [List.getElem_zipIdx, Nat.zero_add] at hwaits
  rw [List.getElem?_eq_getElem (Nat.lt_trans hlt hbound), Option.getD_some]
  simpa [hnew] using hwaits

/-- If no position is ready, every position that is left waits for one that is not done. -/
theorem waits_of_ready?_none (h : ready? table done = none) (hlt : i < table.length)
    (hnew : i ∉ done) : ∃ k ∈ table[i]?.getD [], k ∉ done := by
  have hmem : (table[i], i) ∈ table.zipIdx :=
    List.mem_zipIdx_iff_getElem?.2 (List.getElem?_eq_getElem hlt)
  have hwaits := List.find?_eq_none.1 (Option.map_eq_none_iff.1 h) _ hmem
  rw [List.getElem?_eq_getElem hlt, Option.getD_some]
  simpa [hnew] using hwaits

theorem Sound.length_le (h : Sound table done) : done.length ≤ table.length := by
  have hsubset : done ⊆ List.range table.length := fun i hi ↦ List.mem_range.2 (h.lt i hi)
  simpa using (List.subperm_of_subset h.nodup hsubset).length_le

theorem Sound.append (h : Sound table done) (hready : ready? table done = some i) :
    Sound table (done ++ [i]) := by
  obtain ⟨hlt, hnew, hdependencies⟩ := ready?_eq_some hready
  refine ⟨?_, ?_, ?_⟩
  · rw [← List.concat_eq_append]
    exact h.nodup.concat hnew
  · intro j hj
    rcases List.mem_append.1 hj with hj | hj
    · exact h.lt j hj
    · rwa [List.mem_singleton.1 hj]
  · intro before j rest heq k hk
    rcases List.eq_nil_or_concat rest with rfl | ⟨rest, last, rfl⟩
    · obtain ⟨rfl, hsame⟩ := List.append_inj' heq rfl
      cases hsame
      exact hdependencies k hk
    · have hlast : done ++ [i] = (before ++ j :: rest) ++ [last] := by
        rw [heq, List.concat_eq_append, List.append_assoc, List.cons_append]
      obtain ⟨hinit, -⟩ := List.append_inj' hlast rfl
      exact h.after before j rest hinit k hk

theorem sound_extend (fuel : Nat) (h : Sound table done) : Sound table (extend table fuel done) := by
  induction fuel generalizing done with
  | zero => exact h
  | succ fuel ih =>
    unfold extend
    split
    · exact h
    · next hready => exact ih (h.append hready)

theorem prefix_extend (table : List (List Nat)) (fuel : Nat) (done : List Nat) :
    done <+: extend table fuel done := by
  induction fuel generalizing done with
  | zero => exact List.prefix_rfl
  | succ fuel ih =>
    unfold extend
    split
    · exact List.prefix_rfl
    · exact (List.prefix_append done _).trans (ih _)

/-- Each position that is added was the first that was ready. -/
theorem ready?_of_extend (fuel : Nat) {before rest : List Nat}
    (h : extend table fuel done = before ++ i :: rest) (hlength : done.length ≤ before.length) :
    ready? table before = some i := by
  induction fuel generalizing done with
  | zero =>
    have hall := congrArg List.length h
    rw [extend, List.length_append, List.length_cons] at hall
    omega
  | succ fuel ih =>
    unfold extend at h
    split at h
    · rw [h, List.length_append, List.length_cons] at hlength
      omega
    · next k hready =>
      rcases Nat.lt_or_eq_of_le hlength with hlt | heq
      · exact ih h (by rwa [List.length_append, List.length_singleton])
      · have hprefix := prefix_extend table fuel (done ++ [k])
        rw [h, List.append_cons before i rest] at hprefix
        have hsame : done ++ [k] = before ++ [i] :=
          (List.prefix_of_prefix_length_le hprefix (List.prefix_append _ rest)
            (by simp [heq])).eq_of_length (by simp [heq])
        obtain ⟨rfl, hlast⟩ := List.append_inj' hsame rfl
        rwa [← List.singleton_inj.1 hlast]

/-- With fuel for every position nothing that is ready is left. -/
theorem ready?_extend_none (fuel : Nat) (h : Sound table done)
    (hfuel : table.length ≤ done.length + fuel) : ready? table (extend table fuel done) = none := by
  induction fuel generalizing done with
  | zero =>
    by_contra hne
    obtain ⟨i, hready⟩ := Option.ne_none_iff_exists'.1 hne
    have hlength := (h.append hready).length_le
    rw [List.length_append, List.length_singleton] at hlength
    omega
  | succ fuel ih =>
    unfold extend
    split
    · assumption
    · next i hready =>
      refine ih (h.append hready) ?_
      rw [List.length_append, List.length_singleton]
      omega

theorem sound_positions (table : List (List Nat)) : Sound table (positions table) :=
  sound_extend table.length ⟨List.nodup_nil, by simp, by simp⟩

end Schedule

/-! ## Nodes -/

namespace Graph

variable {g : Graph} {n m : NodeId} {i : Nat}

theorem mem_order_of_mem_schedule (h : n ∈ g.schedule.1) : n ∈ g.order := by
  obtain ⟨i, -, hi⟩ := List.mem_filterMap.1 h
  exact List.mem_of_getElem? hi

/-- Without a fault every node has a place. -/
theorem mem_schedule (h : g.schedule.2 = []) (hn : n ∈ g.order) : n ∈ g.schedule.1 := by
  obtain ⟨i, hi⟩ := List.getElem?_of_mem hn
  have hleft := List.filter_eq_nil_iff.1 (List.map_eq_nil_iff.1 h) (n, i)
    (List.mem_zipIdx_iff_getElem?.2 hi)
  exact of_not_not fun hnew ↦ hleft (decide_eq_true hnew)

/-- Where a node stands in the schedule its position stands among the positions. -/
theorem positions_of_schedule {before rest : List NodeId} (h : g.schedule.1 = before ++ n :: rest) :
    ∃ done i after, Schedule.positions g.dependencyTable = done ++ i :: after ∧
      done.filterMap (fun i ↦ g.order[i]?) = before ∧ g.order[i]? = some n := by
  obtain ⟨done, after, hpositions, rfl, hafter⟩ := List.filterMap_eq_append_iff.1 h
  obtain ⟨skipped, i, rest', rfl, hnone, hi, -⟩ := List.filterMap_eq_cons_iff.1 hafter
  refine ⟨done ++ skipped, i, rest', ?_, ?_, hi⟩
  · rw [hpositions, List.append_assoc]
  · rw [List.filterMap_append, List.filterMap_eq_nil_iff.2 hnone, List.append_nil]

section Nodup

variable (hnodup : g.order.Nodup)
include hnodup

theorem lastPosition?_eq_some (h : g.order[i]? = some n) : g.lastPosition? n = some i :=
  lastIndex_eq_some hnodup h

theorem nodup_schedule : g.schedule.1.Nodup := by
  refine (Schedule.sound_positions g.dependencyTable).nodup.filterMap fun i j n hi hj ↦ ?_
  obtain ⟨hlt, -⟩ := List.getElem?_eq_some_iff.1 hi
  exact (List.getElem?_inj hlt hnodup).1 (hi.trans hj.symm)

theorem dependencyTable_getElem? (hi : g.order[i]? = some n) :
    g.dependencyTable[i]?.getD [] = (g.dataDependencies n).filterMap g.lastPosition? := by
  rw [dependencyTable, List.getElem?_map, List.getElem?_zipIdx, hi]
  simp [lastPosition?_eq_some hnodup hi]

/-- A node comes after the nodes that it reads from. -/
theorem mem_before_of_schedule {before rest : List NodeId} (h : g.schedule.1 = before ++ n :: rest)
    (hm : m ∈ g.dataDependencies n) (horder : m ∈ g.order) : m ∈ before := by
  obtain ⟨done, i, after, hsplit, rfl, hi⟩ := positions_of_schedule h
  obtain ⟨j, hj⟩ := List.getElem?_of_mem horder
  refine List.mem_filterMap.2 ⟨j, ?_, hj⟩
  refine (Schedule.sound_positions g.dependencyTable).after _ _ _ hsplit j ?_
  rw [dependencyTable_getElem? hnodup hi]
  exact List.mem_filterMap.2 ⟨m, hm, lastPosition?_eq_some hnodup hj⟩

end Nodup

end Graph

/-! ## Cycles -/

open Relation

/-- In a finite list in which every member has a successor all walks come to a cycle. -/
theorem exists_transGen_self {α : Type} {r : α → α → Prop} {l : List α} {a : α}
    (hnext : ∀ b ∈ l, ∃ c ∈ l, r b c) (ha : a ∈ l) :
    ∃ b, ReflTransGen r a b ∧ TransGen r b b := by
  by_contra hnone
  push Not at hnone
  let Reached := { b // b ∈ l ∧ ReflTransGen r a b }
  let behind (b c : Reached) : Prop := TransGen r c.1 b.1
  have : Finite Reached := (l.finite_toSet.subset fun _ h ↦ h.1).to_subtype
  have : IsTrans Reached behind := ⟨fun _ _ _ hb hc ↦ hc.trans hb⟩
  have : Std.Irrefl behind := ⟨fun b ↦ hnone b.1 b.2.2⟩
  -- A member behind which nothing is reached has no successor.
  obtain ⟨b, -, hlast⟩ := (Finite.wellFounded_of_trans_of_irrefl behind).has_min Set.univ
    ⟨⟨a, ha, .refl⟩, trivial⟩
  obtain ⟨c, hc, hstep⟩ := hnext b.1 b.2.1
  exact hlast ⟨c, hc, b.2.2.tail hstep⟩ trivial (.single hstep)

namespace Graph

variable {g : Graph} {k m n : NodeId} {before rest : List NodeId}

/-! ## Reading -/

/-- The node reads data from another node of the order. -/
def Reads (g : Graph) (n m : NodeId) : Prop := m ∈ g.dataDependencies n ∧ m ∈ g.order

instance (g : Graph) (n m : NodeId) : Decidable (g.Reads n m) :=
  inferInstanceAs (Decidable (_ ∧ _))

/-- The node is on a cycle of two or more nodes each of which reads from the next. -/
def OnCycle (g : Graph) (n : NodeId) : Prop :=
  ∃ m, m ≠ n ∧ TransGen g.Reads n m ∧ TransGen g.Reads m n

/-- The node is not among those that come before but everything that it reads from is. -/
def Ready (g : Graph) (before : List NodeId) (n : NodeId) : Prop :=
  n ∉ before ∧ ∀ m, g.Reads n m → m ∈ before

theorem not_reads_self : ¬g.Reads n n := by
  simp [Reads, dataDependencies]

/-- No node reads from itself, so that there are no other cycles. -/
theorem onCycle_iff : g.OnCycle n ↔ TransGen g.Reads n n := by
  constructor
  · rintro ⟨m, -, hm, hn⟩
    exact hm.trans hn
  · intro h
    obtain ⟨m, hread, hback⟩ := TransGen.head'_iff.1 h
    have hne : m ≠ n := fun heq ↦ not_reads_self (heq ▸ hread)
    exact ⟨m, hne, .single hread, (reflTransGen_iff_eq_or_transGen.1 hback).resolve_left hne.symm⟩

instance (g : Graph) (n : NodeId) : Decidable (g.OnCycle n) :=
  decidable_of_iff (n ∈ reach g.dataDependencies g.order (g.dataDependencies n)) <| by
    rw [onCycle_iff, mem_reach, reaches_iff_transGen]
    rfl

/-! ## Positions of nodes -/

/-- A node is found at its last position. -/
theorem getElem?_of_lastPosition? {i : Nat} (h : g.lastPosition? n = some i) :
    g.order[i]? = some n := by
  obtain ⟨e, hlast, rfl⟩ := Option.map_eq_some_iff.1 h
  obtain ⟨hentry, hn⟩ := List.mem_filter.1 (List.mem_of_getLast? hlast)
  rw [← of_decide_eq_true hn]
  exact List.mem_zipIdx_iff_getElem?.1 hentry

section Nodup

variable (hnodup : g.order.Nodup)
include hnodup

theorem mem_dependencyTable {i j : Nat} (hi : g.order[i]? = some n) :
    j ∈ g.dependencyTable[i]?.getD [] ↔ ∃ m, g.Reads n m ∧ g.order[j]? = some m := by
  rw [dependencyTable_getElem? hnodup hi, List.mem_filterMap]
  constructor
  · rintro ⟨m, hm, hj⟩
    have hj := getElem?_of_lastPosition? hj
    exact ⟨m, ⟨hm, List.mem_of_getElem? hj⟩, hj⟩
  · rintro ⟨m, hm, hj⟩
    exact ⟨m, hm.1, lastPosition?_eq_some hnodup hj⟩

theorem mem_positions_iff {done : List Nat} {i : Nat} (hi : g.order[i]? = some n) :
    n ∈ done.filterMap (fun i ↦ g.order[i]?) ↔ i ∈ done := by
  refine List.mem_filterMap.trans ⟨?_, fun h ↦ ⟨i, h, hi⟩⟩
  rintro ⟨j, hj, hn⟩
  obtain ⟨hlt, -⟩ := List.getElem?_eq_some_iff.1 hn
  rwa [← (List.getElem?_inj hlt hnodup).1 (hn.trans hi.symm)]

/-- A node without a place reads from another node without a place. -/
theorem waits_of_notMem_schedule (hn : n ∈ g.order) (hnew : n ∉ g.schedule.1) :
    ∃ m ∈ g.order, m ∉ g.schedule.1 ∧ g.Reads n m := by
  obtain ⟨i, hi⟩ := List.getElem?_of_mem hn
  have hlength : g.dependencyTable.length = g.order.length := by simp [dependencyTable]
  have hnone : Schedule.ready? g.dependencyTable (Schedule.positions g.dependencyTable) = none :=
    Schedule.ready?_extend_none _ ⟨List.nodup_nil, by simp, by simp⟩ (by simp)
  have hbound : i < g.dependencyTable.length :=
    hlength ▸ (List.getElem?_eq_some_iff.1 hi).1
  obtain ⟨j, hj, hleft⟩ := Schedule.waits_of_ready?_none hnone hbound
    fun h ↦ hnew ((mem_positions_iff hnodup hi).2 h)
  obtain ⟨m, hm, hj⟩ := (mem_dependencyTable hnodup hi).1 hj
  exact ⟨m, hm.2, fun h ↦ hleft ((mem_positions_iff hnodup hj).1 h), hm⟩

/-- A node is ready when it gets its place, and none that is declared before it is. -/
theorem ready_of_schedule (h : g.schedule.1 = before ++ n :: rest) :
    ∃ earlier later, g.order = earlier ++ n :: later ∧ g.Ready before n ∧
      ∀ m ∈ earlier, ¬g.Ready before m := by
  obtain ⟨done, i, after, hsplit, rfl, hi⟩ := positions_of_schedule h
  have hready : Schedule.ready? g.dependencyTable done = some i :=
    Schedule.ready?_of_extend _ hsplit (Nat.zero_le _)
  obtain ⟨-, hnew, hdone⟩ := Schedule.ready?_eq_some hready
  obtain ⟨hlt, hn⟩ := List.getElem?_eq_some_iff.1 hi
  refine ⟨g.order.take i, g.order.drop (i + 1), ?_, ⟨?_, fun m hm ↦ ?_⟩, fun m hm hwait ↦ ?_⟩
  · rw [← hn, List.getElem_cons_drop, List.take_append_drop]
  · rwa [mem_positions_iff hnodup hi]
  · obtain ⟨j, hj⟩ := List.getElem?_of_mem hm.2
    exact (mem_positions_iff hnodup hj).2 (hdone j ((mem_dependencyTable hnodup hi).2 ⟨m, hm, hj⟩))
  · obtain ⟨j, hj⟩ := List.getElem?_of_mem hm
    have hbefore : j < i := by
      have hlength := (List.getElem?_eq_some_iff.1 hj).1
      rw [List.length_take] at hlength
      omega
    rw [List.getElem?_take_of_lt hbefore] at hj
    obtain ⟨k, hk, hleft⟩ := Schedule.waits_of_lt hready hbefore
      fun h ↦ hwait.1 ((mem_positions_iff hnodup hj).2 h)
    obtain ⟨l, hl, hk⟩ := (mem_dependencyTable hnodup hj).1 hk
    exact hleft ((mem_positions_iff hnodup hk).1 (hwait.2 l hl))

/-! ## Nodes without a place -/

/-- The nodes that a scheduled node reads from come before it. -/
theorem idxOf_lt_of_reads (hn : n ∈ g.schedule.1) (hread : g.Reads n m) :
    m ∈ g.schedule.1 ∧ g.schedule.1.idxOf m < g.schedule.1.idxOf n := by
  obtain ⟨before, rest, hsplit⟩ := List.append_of_mem hn
  have hm := mem_before_of_schedule hnodup hsplit hread.1 hread.2
  have hnew : n ∉ before := fun h ↦
    (List.nodup_append.1 (hsplit ▸ nodup_schedule hnodup)).2.2 n h n List.mem_cons_self rfl
  rw [hsplit, List.idxOf_append_of_mem hm, List.idxOf_append_of_notMem hnew]
  exact ⟨List.mem_append_left _ hm, Nat.lt_of_lt_of_le (List.idxOf_lt_length_of_mem hm) (by simp)⟩

theorem idxOf_lt_of_transGen (hn : n ∈ g.schedule.1) (h : TransGen g.Reads n m) :
    m ∈ g.schedule.1 ∧ g.schedule.1.idxOf m < g.schedule.1.idxOf n := by
  induction h with
  | single hread => exact idxOf_lt_of_reads hnodup hn hread
  | tail _ hread ih =>
    obtain ⟨hm, hlt⟩ := idxOf_lt_of_reads hnodup ih.1 hread
    exact ⟨hm, hlt.trans ih.2⟩

/-- The nodes with a place are those that do not lead to a cycle. -/
theorem mem_schedule_iff :
    n ∈ g.schedule.1 ↔ n ∈ g.order ∧ ∀ m, ReflTransGen g.Reads n m → ¬g.OnCycle m := by
  constructor
  · intro hn
    refine ⟨mem_order_of_mem_schedule hn, fun m hreach hcycle ↦ ?_⟩
    have hm : m ∈ g.schedule.1 := by
      rcases reflTransGen_iff_eq_or_transGen.1 hreach with rfl | h
      · exact hn
      · exact (idxOf_lt_of_transGen hnodup hn h).1
    exact Nat.lt_irrefl _ (idxOf_lt_of_transGen hnodup hm (onCycle_iff.1 hcycle)).2
  · rintro ⟨hn, hacyclic⟩
    by_contra hnew
    have hleft : n ∈ g.order.filter (· ∉ g.schedule.1) := by simp [hn, hnew]
    obtain ⟨m, hreach, hcycle⟩ := exists_transGen_self (r := g.Reads) (fun k hk ↦ by
      obtain ⟨hk, hk'⟩ := List.mem_filter.1 hk
      obtain ⟨l, hl, hl', hread⟩ := waits_of_notMem_schedule hnodup hk (of_decide_eq_true hk')
      exact ⟨l, by simp [hl, hl'], hread⟩) hleft
    exact hacyclic m hreach (onCycle_iff.2 hcycle)

/-- A walk along positions is a walk along their nodes. -/
theorem exists_transGen_positions {i j : Nat} (hi : g.order[i]? = some n) :
    TransGen (fun k l ↦ l ∈ g.dependencyTable[k]?.getD [] ∧
        l ∈ List.range g.dependencyTable.length) i j ↔
      ∃ m, g.order[j]? = some m ∧ TransGen g.Reads n m := by
  have hlength : g.dependencyTable.length = g.order.length := by simp [dependencyTable]
  constructor
  · intro h
    induction h with
    | single hstep =>
      obtain ⟨m, hread, hj⟩ := (mem_dependencyTable hnodup hi).1 hstep.1
      exact ⟨m, hj, .single hread⟩
    | tail _ hstep ih =>
      obtain ⟨k, hk, hwalk⟩ := ih
      obtain ⟨m, hread, hj⟩ := (mem_dependencyTable hnodup hk).1 hstep.1
      exact ⟨m, hj, hwalk.tail hread⟩
  · rintro ⟨m, hj, hwalk⟩
    have hrange {l : Nat} {k : NodeId} (hl : g.order[l]? = some k) :
        l ∈ List.range g.dependencyTable.length :=
      List.mem_range.2 (hlength ▸ (List.getElem?_eq_some_iff.1 hl).1)
    induction hwalk generalizing j with
    | single hread => exact .single ⟨(mem_dependencyTable hnodup hi).2 ⟨_, hread, hj⟩, hrange hj⟩
    | tail hwalk hread ih =>
      obtain ⟨_, _, hlast⟩ := TransGen.tail'_iff.1 hwalk
      obtain ⟨l, hl⟩ := List.getElem?_of_mem hlast.2
      exact (ih hl).tail ⟨(mem_dependencyTable hnodup hl).2 ⟨_, hread, hj⟩, hrange hj⟩

theorem onCycle_dependencyTable {i : Nat} (hi : g.order[i]? = some n) :
    Schedule.onCycle g.dependencyTable i = true ↔ g.OnCycle n := by
  rw [Schedule.onCycle, decide_eq_true_iff, mem_reach, reaches_iff_transGen,
    exists_transGen_positions hnodup hi, onCycle_iff]
  constructor
  · rintro ⟨m, hm, hwalk⟩
    obtain rfl := Option.some.inj (hi.symm.trans hm)
    exact hwalk
  · exact fun hwalk ↦ ⟨n, hi, hwalk⟩

theorem schedule_faults : g.schedule.2 = (g.order.filter (· ∉ g.schedule.1)).map fun n ↦
    if g.OnCycle n then
      .error "Dependency cycle detected, preventing node @@ from being scheduled" [g.nodeToken n]
    else .error "Node @@ reads from a dependency cycle and cannot be scheduled" [g.nodeToken n] := by
  have hsplit : g.order.filter (· ∉ g.schedule.1) =
      (g.order.zipIdx.filter fun e ↦ e.1 ∉ g.schedule.1).map Prod.fst := by
    conv_lhs => rw [← List.zipIdx_map_fst 0 g.order, List.filter_map]
    rfl
  rw [hsplit, List.map_map]
  refine List.map_congr_left fun e he ↦ ?_
  have hentry : g.order[e.2]? = some e.1 :=
    List.mem_zipIdx_iff_getElem?.1 (List.mem_filter.1 he).1
  simp only [scheduleFault, onCycle_dependencyTable hnodup hentry, Function.comp_apply]

/-- A schedule names the nodes that do not lead to a cycle of reading nodes, each once.  At every
turn the first node of the order that is ready comes next.  The others are reported one by one in
the order, in different words if they are on a cycle themselves. -/
theorem schedule_spec :
    g.schedule.1.Nodup ∧
    (∀ n, n ∈ g.schedule.1 ↔ n ∈ g.order ∧ ∀ m, ReflTransGen g.Reads n m → ¬g.OnCycle m) ∧
    (∀ before n rest, g.schedule.1 = before ++ n :: rest →
      ∃ earlier later, g.order = earlier ++ n :: later ∧ g.Ready before n ∧
        ∀ m ∈ earlier, ¬g.Ready before m) ∧
    g.schedule.2 = (g.order.filter (· ∉ g.schedule.1)).map fun n ↦
      if g.OnCycle n then
        .error "Dependency cycle detected, preventing node @@ from being scheduled" [g.nodeToken n]
      else .error "Node @@ reads from a dependency cycle and cannot be scheduled" [g.nodeToken n] :=
  ⟨nodup_schedule hnodup, fun _ ↦ mem_schedule_iff hnodup,
    fun _ _ _ h ↦ ready_of_schedule hnodup h, schedule_faults hnodup⟩

end Nodup

/-- A sum reads a value twice, two assignments read from one another and a third from one of them.
The call of the value and the last call run in a loop. -/
def ring : Graph :=
  let call (id : Nat) (pins : List PinId) : Node :=
    { id := ⟨id⟩, kind := .callFunction (.library "Add" "Lib" false), pins }
  let pin (id owner : Nat) (direction : Direction) (ty : PinType) (links : List PinId) : Pin :=
    { id := ⟨id⟩, owner := ⟨owner⟩, name := "", direction, ty, links }
  { name := "Ring"
    nodes := ⟨#[some (call 0 [⟨0⟩, ⟨1⟩]), some (call 1 [⟨2⟩, ⟨8⟩, ⟨11⟩]), some (call 2 [⟨3⟩, ⟨4⟩]),
      some (call 3 [⟨5⟩, ⟨6⟩]), some (call 4 [⟨7⟩]), some (call 5 [⟨9⟩, ⟨10⟩])]⟩
    pins := ⟨#[some (pin 0 0 .input .int [⟨2⟩]), some (pin 1 0 .input .int [⟨2⟩]),
      some (pin 2 1 .output .int [⟨0⟩, ⟨1⟩]), some (pin 3 2 .input .int [⟨6⟩]),
      some (pin 4 2 .output .int [⟨5⟩]), some (pin 5 3 .input .int [⟨4⟩]),
      some (pin 6 3 .output .int [⟨3⟩, ⟨7⟩]), some (pin 7 4 .input .int [⟨6⟩]),
      some (pin 8 1 .output .exec [⟨9⟩]), some (pin 9 5 .input .exec [⟨8⟩]),
      some (pin 10 5 .output .exec [⟨11⟩]), some (pin 11 1 .input .exec [⟨10⟩])]⟩
    order := [⟨0⟩, ⟨1⟩, ⟨2⟩, ⟨3⟩, ⟨4⟩, ⟨5⟩] }

theorem schedule_spec_ring :
    ring.order.Nodup ∧ ring.schedule.1 = [⟨1⟩] ++ ⟨0⟩ :: [⟨5⟩] ∧ ring.Ready [⟨1⟩] ⟨0⟩ ∧
      (∃ m, ReflTransGen ring.Reads ⟨4⟩ m ∧ ring.OnCycle m) ∧
      ring.schedule.2 = [
        .error "Dependency cycle detected, preventing node @@ from being scheduled"
          [ring.nodeToken ⟨2⟩],
        .error "Dependency cycle detected, preventing node @@ from being scheduled"
          [ring.nodeToken ⟨3⟩],
        .error "Node @@ reads from a dependency cycle and cannot be scheduled"
          [ring.nodeToken ⟨4⟩]] := by
  have hnodup : ring.order.Nodup := by decide
  have hschedule : ring.schedule.1 = [⟨1⟩] ++ ⟨0⟩ :: [⟨5⟩] := by decide +kernel
  obtain ⟨-, hmem, hturns, hfaults⟩ := schedule_spec hnodup
  obtain ⟨-, -, -, hready, -⟩ := hturns _ _ _ hschedule
  have hleft : ¬∀ m, ReflTransGen ring.Reads ⟨4⟩ m → ¬ring.OnCycle m := fun h ↦ by
    have hplace := (hmem ⟨4⟩).2 ⟨by decide, h⟩
    simp [hschedule] at hplace
  push Not at hleft
  refine ⟨hnodup, hschedule, hready, hleft, hfaults.trans ?_⟩
  have hunscheduled : ring.order.filter (· ∉ ring.schedule.1) = [⟨2⟩, ⟨3⟩, ⟨4⟩] := by
    rw [hschedule]
    decide
  have hcycles : ring.OnCycle ⟨2⟩ ∧ ring.OnCycle ⟨3⟩ ∧ ¬ring.OnCycle ⟨4⟩ := by decide +kernel
  rw [hunscheduled]
  simp [hcycles]

end Graph

end VisualScript
