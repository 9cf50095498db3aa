import VisualScript.Reach
import Mathlib.Data.List.Nodup
import Mathlib.Data.List.TakeWhile
import Mathlib.Logic.Relation

/-!
# What a walk reaches

A walk visits every vertex once, begins with the first start, and comes to
exactly the vertices that lead from a start through vertices only.
-/

namespace VisualScript

variable {α : Type}

/-- A walk along `next` that stays on the vertices comes to `a`. -/
inductive Reaches (next : α → List α) (vertices starts : List α) : α → Prop
  | start {a : α} : a ∈ starts → a ∈ vertices → Reaches next vertices starts a
  | step {a b : α} : Reaches next vertices starts a → b ∈ next a → b ∈ vertices →
      Reaches next vertices starts b

namespace Reaches

variable {next : α → List α} {vertices starts : List α} {a b : α}

theorem mem_vertices (h : Reaches next vertices starts a) : a ∈ vertices := by
  cases h with
  | start _ hvertex => exact hvertex
  | step _ _ hvertex => exact hvertex

/-- What is reached from other starts is reached from these if the other starts are. -/
theorem of_starts {starts' : List α} (h : Reaches next vertices starts' b)
    (hstarts : ∀ a ∈ starts', a ∈ vertices → Reaches next vertices starts a) :
    Reaches next vertices starts b := by
  induction h with
  | start hmem hvertex => exact hstarts _ hmem hvertex
  | step _ hnext hvertex ih => exact ih.step hnext hvertex

end Reaches

/-- A walk is a chain of steps from one of the starts. -/
theorem reaches_iff {next : α → List α} {vertices starts : List α} {b : α} :
    Reaches next vertices starts b ↔ ∃ a ∈ starts, a ∈ vertices ∧
      Relation.ReflTransGen (fun c d ↦ d ∈ next c ∧ d ∈ vertices) a b := by
  constructor
  · intro h
    induction h with
    | start hmem hvertex => exact ⟨_, hmem, hvertex, .refl⟩
    | step _ hnext hvertex ih =>
      obtain ⟨a, hmem, hstart, hwalk⟩ := ih
      exact ⟨a, hmem, hstart, hwalk.tail ⟨hnext, hvertex⟩⟩
  · rintro ⟨a, hmem, hstart, hwalk⟩
    induction hwalk with
    | refl => exact .start hmem hstart
    | tail _ hstep ih => exact ih.step hstep.1 hstep.2

/-- A walk from what follows a vertex is a chain of at least one step from it. -/
theorem reaches_iff_transGen {next : α → List α} {vertices : List α} {a b : α} :
    Reaches next vertices (next a) b ↔
      Relation.TransGen (fun c d ↦ d ∈ next c ∧ d ∈ vertices) a b := by
  rw [reaches_iff, Relation.TransGen.head'_iff]
  exact exists_congr fun c ↦ and_assoc.symm

variable [DecidableEq α] (next : α → List α) (vertices : List α)

/-! ## One visit -/

theorem visit_nil {seen stack : List α} (h : ∀ a ∈ stack, a ∈ vertices → a ∈ seen) :
    visit next vertices seen stack = seen := by
  have hdrop : stack.dropWhile (!isNew vertices seen ·) = [] := by
    rw [List.dropWhile_eq_nil_iff]
    intro a ha
    simpa [isNew, imp_iff_not_or] using h a ha
  unfold visit
  split
  · rfl
  · next hcons =>
    rw [hdrop] at hcons
    cases hcons

theorem visit_cons {seen old rest : List α} {a : α} (hold : ∀ b ∈ old, b ∈ vertices → b ∈ seen)
    (ha : a ∈ vertices) (hnew : a ∉ seen) :
    visit next vertices seen (old ++ a :: rest) =
      visit next vertices (a :: seen) (next a ++ rest) := by
  have hdrop : (old ++ a :: rest).dropWhile (!isNew vertices seen ·) = a :: rest := by
    rw [List.dropWhile_append_of_pos fun b hb ↦ by
        simpa [isNew, imp_iff_not_or] using hold b hb,
      List.dropWhile_cons_of_neg (by simp [isNew, ha, hnew])]
  rw [visit]
  split
  · next hnil =>
    rw [hdrop] at hnil
    cases hnil
  · next hcons =>
    rw [hdrop] at hcons
    cases hcons
    rfl

/-- A stack holds a new vertex behind old ones, or none. -/
theorem stack_cases (seen stack : List α) :
    (∀ a ∈ stack, a ∈ vertices → a ∈ seen) ∨
      ∃ old a rest, stack = old ++ a :: rest ∧ (∀ b ∈ old, b ∈ vertices → b ∈ seen) ∧
        a ∈ vertices ∧ a ∉ seen := by
  induction stack with
  | nil => exact .inl fun a ha ↦ by cases ha
  | cons b stack ih =>
    by_cases hb : b ∈ vertices ∧ b ∉ seen
    · exact .inr ⟨[], b, stack, rfl, fun c hc ↦ (List.not_mem_nil hc).elim, hb.1, hb.2⟩
    · have hold : b ∈ vertices → b ∈ seen := fun hvertex ↦ by_contra fun hnew ↦ hb ⟨hvertex, hnew⟩
      rcases ih with hnone | ⟨old, a, rest, rfl, hbefore, ha, hnew⟩
      · left
        intro c hc
        rcases List.mem_cons.1 hc with rfl | hc
        · exact hold
        · exact hnone c hc
      · refine .inr ⟨b :: old, a, rest, rfl, ?_, ha, hnew⟩
        intro c hc
        rcases List.mem_cons.1 hc with rfl | hc
        · exact hold
        · exact hbefore c hc

/-- What holds when there is nothing new, and of a visit if it holds of the visit that follows,
holds of every visit. -/
theorem visit_induction {P : List α → List α → Prop}
    (hdone : ∀ seen stack, (∀ a ∈ stack, a ∈ vertices → a ∈ seen) → P seen stack)
    (hvisit : ∀ seen old a rest, (∀ b ∈ old, b ∈ vertices → b ∈ seen) → a ∈ vertices → a ∉ seen →
      P (a :: seen) (next a ++ rest) → P seen (old ++ a :: rest))
    (seen stack : List α) : P seen stack := by
  induction hn : (vertices.filter (· ∉ seen)).length using Nat.strongRecOn generalizing seen stack with
  | ind n ih =>
    rcases stack_cases vertices seen stack with hnone | ⟨old, a, rest, rfl, hold, ha, hnew⟩
    · exact hdone seen stack hnone
    · refine hvisit seen old a rest hold ha hnew (ih _ ?_ _ _ rfl)
      rw [← hn]
      have hmem : a ∈ vertices.filter (· ∉ seen) := by simp [ha, hnew]
      have hsub : vertices.filter (· ∉ a :: seen) =
          (vertices.filter (· ∉ seen)).filter (· ≠ a) := by
        rw [List.filter_filter]
        refine List.filter_congr fun b _ ↦ ?_
        by_cases hb : b = a <;> simp [hb]
      rw [hsub]
      exact List.length_filter_lt_length_iff_exists.2 ⟨a, hmem, by simp⟩

/-! ## Whole walks -/

theorem suffix_visit (seen stack : List α) : seen <:+ visit next vertices seen stack := by
  induction seen, stack using visit_induction next vertices with
  | hdone seen stack hnone =>
    exact (visit_nil next vertices hnone).symm ▸ List.suffix_rfl
  | hvisit seen old a rest hold ha hnew ih =>
    rw [visit_cons next vertices hold ha hnew]
    exact (List.suffix_cons a seen).trans ih

section Visit

variable {next vertices}

theorem nodup_visit {seen : List α} (h : seen.Nodup) (stack : List α) :
    (visit next vertices seen stack).Nodup := by
  induction seen, stack using visit_induction next vertices with
  | hdone seen stack hnone => rwa [visit_nil next vertices hnone]
  | hvisit seen old a rest hold ha hnew ih =>
    rw [visit_cons next vertices hold ha hnew]
    exact ih (List.nodup_cons.2 ⟨hnew, h⟩)

/-- Everything that is visited was seen before or is reached from the stack. -/
theorem reaches_of_mem_visit {seen stack : List α} {b : α}
    (h : b ∈ visit next vertices seen stack) : b ∈ seen ∨ Reaches next vertices stack b := by
  induction seen, stack using visit_induction next vertices with
  | hdone seen stack hnone =>
    rw [visit_nil next vertices hnone] at h
    exact .inl h
  | hvisit seen old a rest hold ha hnew ih =>
    rw [visit_cons next vertices hold ha hnew] at h
    have hstart : Reaches next vertices (old ++ a :: rest) a := .start (by simp) ha
    rcases ih h with hseen | hreaches
    · rcases List.mem_cons.1 hseen with rfl | hseen
      · exact .inr hstart
      · exact .inl hseen
    · refine .inr (hreaches.of_starts fun c hc hvertex ↦ ?_)
      rcases List.mem_append.1 hc with hc | hc
      · exact hstart.step hc hvertex
      · exact .start (List.mem_append_right _ (List.mem_cons_of_mem _ hc)) hvertex

theorem mem_visit_of_mem_stack {seen stack : List α} {b : α} (hb : b ∈ stack)
    (hvertex : b ∈ vertices) : b ∈ visit next vertices seen stack := by
  induction seen, stack using visit_induction next vertices with
  | hdone seen stack hnone =>
    rw [visit_nil next vertices hnone]
    exact hnone b hb hvertex
  | hvisit seen old a rest hold ha hnew ih =>
    rw [visit_cons next vertices hold ha hnew]
    have hsuffix := suffix_visit next vertices (a :: seen) (next a ++ rest)
    rcases List.mem_append.1 hb with hb | hb
    · exact hsuffix.mem (List.mem_cons_of_mem a (hold b hb hvertex))
    · rcases List.mem_cons.1 hb with rfl | hb
      · exact hsuffix.mem List.mem_cons_self
      · exact ih (List.mem_append_right _ hb)

/-- If all that follows what was seen was seen or waits on the stack, nothing is left out. -/
theorem closed_visit {seen stack : List α}
    (h : ∀ a ∈ seen, ∀ b ∈ next a, b ∈ vertices → b ∈ seen ∨ b ∈ stack) :
    ∀ a ∈ visit next vertices seen stack, ∀ b ∈ next a, b ∈ vertices →
      b ∈ visit next vertices seen stack := by
  induction seen, stack using visit_induction next vertices with
  | hdone seen stack hnone =>
    rw [visit_nil next vertices hnone]
    intro a ha b hb hvertex
    exact (h a ha b hb hvertex).elim id fun hstack ↦ hnone b hstack hvertex
  | hvisit seen old a rest hold ha hnew ih =>
    rw [visit_cons next vertices hold ha hnew]
    refine ih fun c hc b hb hvertex ↦ ?_
    rcases List.mem_cons.1 hc with rfl | hc
    · exact .inr (List.mem_append_left _ hb)
    · rcases h c hc b hb hvertex with hseen | hstack
      · exact .inl (List.mem_cons_of_mem a hseen)
      · rcases List.mem_append.1 hstack with hstack | hstack
        · exact .inl (List.mem_cons_of_mem a (hold b hstack hvertex))
        · rcases List.mem_cons.1 hstack with rfl | hstack
          · exact .inl List.mem_cons_self
          · exact .inr (List.mem_append_right _ hstack)

variable {starts : List α}

theorem mem_reach {b : α} : b ∈ reach next vertices starts ↔ Reaches next vertices starts b := by
  constructor
  · intro h
    exact (reaches_of_mem_visit h).resolve_left (by simp)
  · intro h
    induction h with
    | start hmem hvertex => exact mem_visit_of_mem_stack hmem hvertex
    | step _ hnext hvertex ih => exact closed_visit (by simp) _ ih _ hnext hvertex

theorem nodup_reach : (reach next vertices starts).Nodup := nodup_visit List.nodup_nil starts

/-- In a list of visited vertices, the latest first, each is followed at once by the first new vertex
that it leads to, if there is one.  For the latest, that is what lies ahead. -/
def Continues (next : α → List α) (vertices visited : List α) (ahead : Option α) : Prop :=
  ∀ later a earlier b, visited = later ++ a :: earlier →
    (next a).find? (isNew vertices (a :: earlier)) = some b →
      (ahead.toList ++ later).getLast? = some b

/-- If what lies ahead of those that were seen is the first new vertex on the stack, then each visit
puts it there, and leaves what it leads to on top. -/
theorem continues_visit {seen stack : List α}
    (h : Continues next vertices seen (stack.find? (isNew vertices seen))) :
    Continues next vertices (visit next vertices seen stack) none := by
  induction seen, stack using visit_induction next vertices with
  | hdone seen stack hnone =>
    have hold : stack.find? (isNew vertices seen) = none :=
      List.find?_eq_none.2 fun a ha ↦ by simpa [isNew] using hnone a ha
    rw [visit_nil next vertices hnone, ← hold]
    exact h
  | hvisit seen old a rest hold ha hnew ih =>
    rw [visit_cons next vertices hold ha hnew]
    have hfirst : (old ++ a :: rest).find? (isNew vertices seen) = some a := by
      rw [List.find?_append, List.find?_eq_none.2 fun b hb ↦ by simpa [isNew] using hold b hb,
        Option.none_or, List.find?_cons_of_pos (by simp [isNew, ha, hnew])]
    rw [hfirst] at h
    refine ih fun later b earlier c heq hc ↦ ?_
    cases later with
    | nil =>
      -- what is visited next is the first new vertex behind `a`, which is on top of the stack
      obtain ⟨rfl, rfl⟩ := List.cons.inj heq
      rw [List.find?_append, hc]
      rfl
    | cons d later =>
      obtain ⟨rfl, rfl⟩ := List.cons.inj heq
      have hlast : (a :: later).getLast? = some c := h later b earlier c rfl hc
      rw [List.getLast?_append, hlast]
      rfl

/-- A walk begins with the first start. -/
theorem reverse_reach_cons {a : α} (ha : a ∈ vertices) :
    ∃ rest, (reach next vertices (a :: starts)).reverse = a :: rest := by
  have hvisit : visit next vertices [] (a :: starts) =
      visit next vertices [a] (next a ++ starts) :=
    visit_cons next vertices (fun _ h ↦ (List.not_mem_nil h).elim) ha List.not_mem_nil
  obtain ⟨before, hbefore⟩ := suffix_visit next vertices [a] (next a ++ starts)
  refine ⟨before.reverse, ?_⟩
  rw [reach, hvisit, ← hbefore, List.reverse_append]
  rfl

end Visit

end VisualScript
