/-!
# Reachability

The vertices of a finite graph that a walk from some starts can reach.
-/

namespace VisualScript

variable {α : Type} [DecidableEq α]

private theorem length_filter_notMem_lt {vertices seen : List α} {a : α} (ha : a ∈ vertices)
    (hs : a ∉ seen) :
    (vertices.filter (· ∉ a :: seen)).length < (vertices.filter (· ∉ seen)).length := by
  have hsub : vertices.filter (· ∉ a :: seen) = (vertices.filter (· ∉ seen)).filter (· ≠ a) := by
    rw [List.filter_filter]
    congr 1
    funext b
    by_cases hb : b = a <;> simp [hb]
  rw [hsub]
  refine List.length_filter_lt_length_iff_exists.2 ⟨a, ?_, by simp⟩
  simp [ha, hs]

/-- Whether a walk can go on to `a`: it is a vertex and not seen. -/
def isNew (vertices seen : List α) (a : α) : Bool := a ∈ vertices ∧ a ∉ seen

theorem isNew_of_dropWhile {vertices seen stack rest : List α} {a : α}
    (h : stack.dropWhile (!isNew vertices seen ·) = a :: rest) : a ∈ vertices ∧ a ∉ seen := by
  have hnew := List.head?_dropWhile_not (!isNew vertices seen ·) stack
  rw [h] at hnew
  simpa [isNew] using hnew

/-- Visits the first new vertex on the stack, and then what follows it before the rest. -/
def visit (next : α → List α) (vertices seen stack : List α) : List α :=
  match _h : stack.dropWhile (!isNew vertices seen ·) with
  | [] => seen
  | a :: rest => visit next vertices (a :: seen) (next a ++ rest)
termination_by (vertices.filter (· ∉ seen)).length
decreasing_by
  obtain ⟨hvertex, hseen⟩ := isNew_of_dropWhile _h
  exact length_filter_notMem_lt hvertex hseen

/-- The vertices that a walk along `next` from some of the starts comes to. -/
def reach (next : α → List α) (vertices starts : List α) : List α :=
  visit next vertices [] starts

end VisualScript
