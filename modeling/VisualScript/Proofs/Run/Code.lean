import VisualScript.Compile.Statement
import VisualScript.Proofs.Run.Machine

/-!
# Running statements

Statements in a row are the code of a machine whose state is the index of the
statement to run next.  An observer says which events a statement makes visible
and decides the conditions, so one machine serves every way to watch a run.
-/

namespace VisualScript

namespace Statement

/-- Statements after which the next one runs. -/
def isStraight : Statement → Bool
  | comment _ | debugSite _ | callFunction .. | assignment .. | createArray .. => true
  | _ => false

/-- Statements that end a run. -/
def isFinal : Statement → Bool
  | computedGoto _ | endOfThread | ret => true
  | _ => false

/-- Statements that do something other than to jump or to mark. -/
def isOperation : Statement → Bool
  | callFunction .. | assignment .. | createArray .. => true
  | _ => false

theorem isStraight_of_isOperation {s : Statement} (h : s.isOperation = true) :
    s.isStraight = true := by
  cases s <;> first | rfl | cases h

theorem isStraight_of_isMarker {s : Statement} (h : s.isMarker = true) : s.isStraight = true := by
  cases s <;> first | rfl | cases h

theorem isOperation_of_isMarker {s : Statement} (h : s.isMarker = true) :
    s.isOperation = false := by
  cases s <;> first | rfl | cases h

/-- Every jump of the statement is to a pin. -/
def JumpsToPins (s : Statement) : Prop := ∀ index, s.target? ≠ some (.resolved index)

instance (s : Statement) : Decidable s.JumpsToPins :=
  match h : s.target? with
  | some (.resolved index) => isFalse fun hpins ↦ hpins index h
  | some (.pin _) => isTrue fun index ↦ by simp [h]
  | none => isTrue fun index ↦ by simp [h]

theorem jumpsToPins_of_isStraight {s : Statement} (h : s.isStraight = true) : s.JumpsToPins := by
  intro index
  cases s <;> simp_all [isStraight, target?]

end Statement

/-- Watches a run: sees some of its statements and decides the conditions by what it saw.  What
it sees does not depend on how the target of a jump is written. -/
structure Observer (ε : Type) where
  sees : Statement → List ε
  holds : List ε → TermId → Bool
  sees_mapTarget (f : GotoTarget → GotoTarget) (s : Statement) :
    sees (s.mapTarget f) = sees s := by intro f s; cases s <;> rfl

namespace Code

variable {ε : Type}

/-- Runs code whose jumps go to the indices that `dest` says.  The run stops at a final
statement, or with none when it leaves the code. -/
def machine (o : Observer ε) (dest : GotoTarget → Nat) (code : List Statement) :
    Machine Nat ε (Option Statement) where
  move events pc := match code[pc]? with
    | none => .stop [] none
    | some (.unconditionalGoto target) => .go [] (dest target)
    | some .gotoReturn => .go [] (code.length - 1)
    | some (.gotoIfNot condition target) =>
      .go (o.sees (.gotoIfNot condition target))
        (if o.holds events condition then pc + 1 else dest target)
    | some s => if s.isFinal then .stop (o.sees s) (some s) else .go (o.sees s) (pc + 1)

/-- Where the jumps go may be written into the code or looked up as it runs. -/
theorem machine_map (o : Observer ε) (dest : GotoTarget → Nat) (f : GotoTarget → GotoTarget)
    (code : List Statement) :
    machine o dest (code.map (·.mapTarget f)) = machine o (dest ∘ f) code := by
  rw [machine, machine, Machine.mk.injEq]
  funext events pc
  rw [List.getElem?_map, List.length_map]
  cases code[pc]? with
  | none => rfl
  | some s =>
    cases s with
    | gotoIfNot condition target =>
      have hsees := o.sees_mapTarget f (.gotoIfNot condition target)
      simp only [Statement.mapTarget] at hsees
      simp [Statement.mapTarget, hsees]
    | _ => rfl

section Moves

variable {o : Observer ε} {dest : GotoTarget → Nat} {code rest : List Statement} {pc : Nat}
  (events : List ε)

theorem getElem?_of_drop {s : Statement} (h : code.drop pc = s :: rest) : code[pc]? = some s := by
  rw [← List.head?_drop, h, List.head?_cons]

theorem drop_succ {s : Statement} (h : code.drop pc = s :: rest) : code.drop (pc + 1) = rest := by
  rw [← List.tail_drop, h, List.tail_cons]

theorem move_straight {s : Statement} (h : code.drop pc = s :: rest)
    (hs : s.isStraight = true) : (machine o dest code).move events pc = .go (o.sees s) (pc + 1) := by
  cases s <;> simp_all [machine, getElem?_of_drop h, Statement.isStraight, Statement.isFinal]

theorem move_final {s : Statement} (h : code.drop pc = s :: rest) (hs : s.isFinal = true) :
    (machine o dest code).move events pc = .stop (o.sees s) (some s) := by
  cases s <;> simp_all [machine, getElem?_of_drop h, Statement.isFinal]

theorem move_goto {target : GotoTarget} (h : code.drop pc = .unconditionalGoto target :: rest) :
    (machine o dest code).move events pc = .go [] (dest target) := by
  simp [machine, getElem?_of_drop h]

theorem move_gotoReturn (h : code.drop pc = .gotoReturn :: rest) :
    (machine o dest code).move events pc = .go [] (code.length - 1) := by
  simp [machine, getElem?_of_drop h]

theorem move_gotoIfNot {condition : TermId} {target : GotoTarget}
    (h : code.drop pc = .gotoIfNot condition target :: rest) :
    (machine o dest code).move events pc =
      .go (o.sees (.gotoIfNot condition target))
        (if o.holds events condition then pc + 1 else dest target) := by
  simp [machine, getElem?_of_drop h]

/-- Where two machines go that run the same statement. -/
inductive GoAlike (dest dest' : GotoTarget → Nat) (code code' : List Statement) (i j : Nat)
    (s : Statement) : Nat → Nat → Prop
  | next : GoAlike dest dest' code code' i j s (i + 1) (j + 1)
  | jump {target : GotoTarget} : s.target? = some target →
      GoAlike dest dest' code code' i j s (dest target) (dest' target)
  | last : GoAlike dest dest' code code' i j s (code.length - 1) (code'.length - 1)

/-- Two machines that run the same statement stop alike or go on with the same events. -/
theorem moves_alike (o : Observer ε) (dest dest' : GotoTarget → Nat) {code' rest' : List Statement}
    {pc' : Nat} {s : Statement} (h : code.drop pc = s :: rest) (h' : code'.drop pc' = s :: rest') :
    (∃ new final, (machine o dest code).move events pc = .stop new final ∧
        (machine o dest' code').move events pc' = .stop new final) ∨
      ∃ new i j, (machine o dest code).move events pc = .go new i ∧
        (machine o dest' code').move events pc' = .go new j ∧
        GoAlike dest dest' code code' pc pc' s i j := by
  cases s with
  | unconditionalGoto target =>
    exact .inr ⟨_, _, _, move_goto events h, move_goto events h', .jump rfl⟩
  | gotoReturn => exact .inr ⟨_, _, _, move_gotoReturn events h, move_gotoReturn events h', .last⟩
  | gotoIfNot condition target =>
    refine .inr ⟨_, _, _, move_gotoIfNot events h, move_gotoIfNot events h', ?_⟩
    split
    · exact .next
    · exact .jump rfl
  | computedGoto term | endOfThread | ret =>
    exact .inl ⟨_, _, move_final events h rfl, move_final events h' rfl⟩
  | _ => exact .inr ⟨_, _, _, move_straight events h rfl, move_straight events h' rfl, .next⟩

/-- Straight statements run one after another. -/
theorem after_straight (dest : GotoTarget → Nat) {ss : List Statement}
    (h : code.drop pc = ss ++ rest) (hs : ∀ s ∈ ss, s.isStraight = true) :
    (machine o dest code).after ss.length (events, .inl pc) =
      (events ++ ss.flatMap o.sees, .inl (pc + ss.length)) := by
  induction ss generalizing pc events with
  | nil => simp
  | cons s ss ih =>
    have hmove : (machine o dest code).move events pc = .go (o.sees s) (pc + 1) :=
      move_straight events h (hs s List.mem_cons_self)
    rw [List.length_cons, Machine.after_succ, Machine.step_go hmove,
      ih _ (drop_succ h) fun s' hs' ↦ hs s' (List.mem_cons_of_mem _ hs')]
    simp [Nat.add_assoc, Nat.add_comm 1]

/-- A run stops at a final statement, unless it leaves the code. -/
theorem isFinal_of_stop {new : List ε} {s : Statement}
    (h : (machine o dest code).move events pc = .stop new (some s)) : s.isFinal = true := by
  simp only [machine] at h
  split at h
  all_goals try cases h
  split at h
  · next hfinal => cases h; exact hfinal
  · cases h

/-- Code that ends with a return is not left. -/
theorem exists_isFinal_of_stopsWith {before : List Statement} (hcode : code = before ++ [.ret])
    (hdest : ∀ {s target}, s ∈ code → s.target? = some target → dest target < code.length)
    (hpc : pc < code.length) {events : List ε} {final : Option Statement}
    (h : (machine o dest code).StopsWith pc events final) :
    ∃ s, final = some s ∧ s.isFinal = true := by
  have hgo {events new : List ε} {i j : Nat} (hi : i < code.length)
      (hmove : (machine o dest code).move events i = .go new j) : j < code.length := by
    have hmem : code[i] ∈ code := List.getElem_mem hi
    have hsucc (hret : code[i] ≠ .ret) : i + 1 < code.length := by
      by_contra hlast
      have hlength : code.length = before.length + 1 := by simp [hcode]
      have hi' : i = before.length := by omega
      subst hi'
      simp [hcode] at hret
    simp only [machine, List.getElem?_eq_getElem hi] at hmove
    cases hs : code[i] with
    | unconditionalGoto target =>
      simp only [hs, Move.go.injEq] at hmove
      exact hmove.2 ▸ hdest hmem (by rw [hs]; rfl)
    | gotoReturn =>
      simp only [hs, Move.go.injEq] at hmove
      omega
    | gotoIfNot condition target =>
      simp only [hs, Move.go.injEq] at hmove
      have hsucc := hsucc (by simp [hs])
      have htarget : dest target < code.length := hdest hmem (by rw [hs]; rfl)
      rw [← hmove.2]
      split <;> assumption
    | computedGoto term | endOfThread | ret => simp [hs, Statement.isFinal] at hmove
    | _ =>
      have hnext : i + 1 = j := by
        simp only [hs, Statement.isFinal, Bool.false_eq_true, if_false, Move.go.injEq] at hmove
        exact hmove.2
      exact hnext ▸ hsucc (by simp [hs])
  have hstop {events new : List ε} {i : Nat} {final : Option Statement} (hi : i < code.length)
      (hmove : (machine o dest code).move events i = .stop new final) :
      ∃ s, final = some s ∧ s.isFinal = true := by
    cases final with
    | some s => exact ⟨s, rfl, isFinal_of_stop events hmove⟩
    | none =>
      cases hs : code[i] <;>
        simp [machine, List.getElem?_eq_getElem hi, hs, Statement.isFinal] at hmove
  exact Machine.StopsWith.of_invariant hgo hstop hpc h

end Moves

end Code

end VisualScript
