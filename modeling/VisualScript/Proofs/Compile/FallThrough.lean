import VisualScript.Proofs.Compile.Walking

/-!
# Falling through

The nodes of a function are put in an order in which most jumps lead to what comes next
anyway.  However the exec links run, no node is lost or doubled, the entry stays in front,
and a node is followed by the first of the nodes that it runs next, unless each of them
stands before it.
-/

namespace VisualScript.FunctionContext

variable {c : FunctionContext}

/-- The first node behind an exec output of a node that is on the execution list and is neither the
node itself nor among those before it. -/
def nextAhead? (c : FunctionContext) (before : List NodeId) (n : NodeId) : Option NodeId :=
  (c.graph.execSuccessors n).find? fun m ↦ m ∈ c.executionList ∧ m ∉ before ∧ m ≠ n

theorem perm_sortForFallThrough (h : c.executionList.Nodup) :
    c.sortForFallThrough.executionList.Perm c.executionList :=
  (List.perm_ext_iff_of_nodup c.nodup_sortForFallThrough h).2 fun _ ↦ mem_sortForFallThrough

/-- In the order of the visit, those before a node are those that were seen when it was visited. -/
theorem nextAhead?_eq (before : List NodeId) (n : NodeId) :
    c.nextAhead? before n =
      (c.graph.execSuccessors n).find? (isNew c.executionList (n :: before.reverse)) := by
  unfold nextAhead?
  congr 1
  funext m
  simp only [isNew, List.mem_cons, List.mem_reverse, not_or, and_comm (a := m ≠ n)]

/-- A node runs on into the first of the nodes behind it that stands nowhere before. -/
theorem head?_of_nextAhead? {before after : List NodeId} {n m : NodeId}
    (hlist : c.sortForFallThrough.executionList = before ++ n :: after)
    (hm : c.nextAhead? before n = some m) : after.head? = some m := by
  have hcontinues : Continues c.graph.execSuccessors c.executionList
      c.sortForFallThrough.executionList.reverse none := by
    rw [sortForFallThrough, List.reverse_reverse]
    exact continues_visit fun later a earlier b heq ↦ by simp at heq
  rw [nextAhead?_eq] at hm
  have hlast := hcontinues after.reverse n before.reverse m (by rw [hlist]; simp) hm
  rwa [Option.toList_none, List.nil_append, List.getLast?_reverse] at hlast

/-- The execution list is only put in another order: with the entry first, if it is listed, and each
node right before the first node behind its exec outputs that is listed and stands neither
before it nor in its own place, if there is one. -/
theorem sorted_sortForFallThrough (h : c.executionList.Nodup) :
    c.sortForFallThrough.executionList.Perm c.executionList ∧
      (∀ entry, c.entryPoint = some entry → entry ∈ c.executionList →
        c.sortForFallThrough.executionList.head? = some entry) ∧
      ∀ before n after, c.sortForFallThrough.executionList = before ++ n :: after →
        ∀ m, c.nextAhead? before n = some m → after.head? = some m := by
  refine ⟨perm_sortForFallThrough h, ?_, ?_⟩
  · intro entry hentry hmem
    obtain ⟨rest, hlist⟩ := exists_sortForFallThrough_eq_cons hentry hmem
    rw [hlist]
    rfl
  · intro before n after hlist m hm
    exact head?_of_nextAhead? hlist hm

/-- The entry leads to a branch, both ways of which lead to a door and one also to a bell; the door
leads back to the branch, and a window is on the list that nothing leads to. -/
def porch : FunctionContext :=
  let node (id : Nat) (pins : List PinId) : Option Node := some { id := ⟨id⟩, kind := .branch, pins }
  let pin (id owner : Nat) (direction : Direction) (links : List PinId) : Option Pin :=
    some { id := ⟨id⟩, owner := ⟨owner⟩, name := "exec", direction, ty := .exec, links }
  { functionName := "Porch"
    graph := {
      name := "Porch"
      nodes := ⟨#[node 0 [⟨0⟩], node 1 [⟨1⟩, ⟨2⟩, ⟨3⟩], node 2 [⟨4⟩, ⟨5⟩], node 3 [⟨6⟩], node 4 []]⟩
      pins := ⟨#[pin 0 0 .output [⟨1⟩], pin 1 1 .input [⟨0⟩, ⟨5⟩], pin 2 1 .output [⟨4⟩, ⟨6⟩],
        pin 3 1 .output [⟨4⟩], pin 4 2 .input [⟨2⟩, ⟨3⟩], pin 5 2 .output [⟨1⟩],
        pin 6 3 .input [⟨2⟩]]⟩
      order := [⟨0⟩, ⟨1⟩, ⟨2⟩, ⟨3⟩, ⟨4⟩] }
    entryPoint := some ⟨0⟩
    executionList := [⟨4⟩, ⟨3⟩, ⟨2⟩, ⟨1⟩, ⟨0⟩] }

theorem sorted_sortForFallThrough_porch :
    let sorted : List NodeId := [⟨0⟩, ⟨1⟩, ⟨2⟩, ⟨3⟩, ⟨4⟩]
    porch.executionList.Nodup ∧ porch.sortForFallThrough.executionList = sorted ∧
      sorted.Perm porch.executionList ∧ sorted.head? = some ⟨0⟩ ∧
      porch.graph.execSuccessors ⟨1⟩ = [⟨2⟩, ⟨3⟩, ⟨2⟩] ∧
      porch.nextAhead? [⟨0⟩] ⟨1⟩ = some ⟨2⟩ ∧ porch.nextAhead? [⟨0⟩, ⟨1⟩] ⟨2⟩ = none ∧
      [⟨2⟩, ⟨3⟩, ⟨4⟩].head? = some (⟨2⟩ : NodeId) := by
  intro sorted
  have hnodup : porch.executionList.Nodup := by decide
  have hsorted : porch.sortForFallThrough.executionList = sorted := by decide +kernel
  have hahead : porch.nextAhead? [⟨0⟩] ⟨1⟩ = some ⟨2⟩ := by decide
  obtain ⟨hperm, hentry, hfollows⟩ := sorted_sortForFallThrough hnodup
  rw [hsorted] at hperm hentry hfollows
  exact ⟨hnodup, hsorted, hperm, hentry ⟨0⟩ rfl (by decide), by decide, hahead, by decide,
    hfollows [⟨0⟩] ⟨1⟩ _ rfl ⟨2⟩ hahead⟩

end VisualScript.FunctionContext
