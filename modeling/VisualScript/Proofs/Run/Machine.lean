import Mathlib.Logic.Function.Iterate
import Mathlib.Data.List.Basic

/-!
# Runs of machines

A machine goes from state to state, makes events visible on the way, and may
stop.  What it does next may depend on the events so far, so that an oracle is
just a function of the events.

Two machines run alike when they show the same events, be it finitely many or
not, and stop alike if they stop at all.  The main result is that a simulation
whose silent moves cannot go on for ever makes two machines run alike.
-/

namespace VisualScript

/-- What a machine does next. -/
inductive Move (σ ε φ : Type)
  | go (events : List ε) (state : σ)
  | stop (events : List ε) (final : φ)

structure Machine (σ ε φ : Type) where
  move : List ε → σ → Move σ ε φ

namespace Machine

variable {σ τ υ ε φ ψ : Type}

/-- The events so far with the state, or with what the machine stopped at. -/
abbrev Config (σ ε φ : Type) := List ε × (σ ⊕ φ)

/-- One move; a machine that has stopped stays as it is. -/
def step (m : Machine σ ε φ) : Config σ ε φ → Config σ ε φ
  | (events, .inr final) => (events, .inr final)
  | (events, .inl s) => match m.move events s with
    | .go new s' => (events ++ new, .inl s')
    | .stop new final => (events ++ new, .inr final)

def after (m : Machine σ ε φ) (n : Nat) (c : Config σ ε φ) : Config σ ε φ := m.step^[n] c

/-- The events are the first that a run from the state makes visible. -/
def Shows (m : Machine σ ε φ) (s : σ) (events : List ε) : Prop :=
  ∃ n, events <+: (m.after n ([], .inl s)).1

/-- A run from the state stops after these events. -/
def StopsWith (m : Machine σ ε φ) (s : σ) (events : List ε) (final : φ) : Prop :=
  ∃ n, m.after n ([], .inl s) = (events, .inr final)

/-- The runs from two states show the same events and stop alike, or both go on for ever. -/
structure SameRuns (m₁ : Machine σ ε φ) (s₁ : σ) (m₂ : Machine τ ε φ) (s₂ : τ) : Prop where
  shows (events : List ε) : m₁.Shows s₁ events ↔ m₂.Shows s₂ events
  stops (events : List ε) (final : φ) :
    m₁.StopsWith s₁ events final ↔ m₂.StopsWith s₂ events final

namespace SameRuns

variable {m₁ : Machine σ ε φ} {m₂ : Machine τ ε φ} {m₃ : Machine υ ε φ} {s₁ : σ} {s₂ : τ} {s₃ : υ}

theorem trans (h : SameRuns m₁ s₁ m₂ s₂) (h' : SameRuns m₂ s₂ m₃ s₃) : SameRuns m₁ s₁ m₃ s₃ :=
  ⟨fun events ↦ (h.shows events).trans (h'.shows events),
    fun events final ↦ (h.stops events final).trans (h'.stops events final)⟩

end SameRuns

/-! ## Steps -/

section Steps

variable (m : Machine σ ε φ)

@[simp] theorem after_zero (c : Config σ ε φ) : m.after 0 c = c := rfl

theorem after_succ (n : Nat) (c : Config σ ε φ) : m.after (n + 1) c = m.after n (m.step c) := rfl

theorem after_add (k n : Nat) (c : Config σ ε φ) : m.after (k + n) c = m.after k (m.after n c) :=
  Function.iterate_add_apply m.step k n c

@[simp] theorem after_inr (n : Nat) (events : List ε) (final : φ) :
    m.after n (events, .inr final) = (events, .inr final) :=
  Function.iterate_fixed rfl n

variable {m}

theorem step_go {events new : List ε} {s s' : σ} (h : m.move events s = .go new s') :
    m.step (events, .inl s) = (events ++ new, .inl s') := by
  simp only [step, h]

theorem step_stop {events new : List ε} {s : σ} {final : φ}
    (h : m.move events s = .stop new final) :
    m.step (events, .inl s) = (events ++ new, .inr final) := by
  simp only [step, h]

theorem prefix_step (c : Config σ ε φ) : c.1 <+: (m.step c).1 := by
  obtain ⟨events, s | final⟩ := c
  · cases h : m.move events s with
    | go new s' => rw [step_go h]; exact List.prefix_append _ _
    | stop new final => rw [step_stop h]; exact List.prefix_append _ _
  · exact List.prefix_refl _

/-- Events that are visible stay visible. -/
theorem prefix_after (n : Nat) (c : Config σ ε φ) : c.1 <+: (m.after n c).1 := by
  induction n generalizing c with
  | zero => exact List.prefix_refl _
  | succ n ih => exact (prefix_step c).trans (ih (m.step c))

/-- A run stops in one way. -/
theorem StopsWith.unique {s : σ} {events events' : List ε} {final final' : φ}
    (h : m.StopsWith s events final) (h' : m.StopsWith s events' final') :
    events = events' ∧ final = final' := by
  obtain ⟨n, hn⟩ := h
  obtain ⟨k, hk⟩ := h'
  have hend : m.after (k + n) ([], .inl s) = m.after (n + k) ([], .inl s) := by rw [Nat.add_comm]
  rw [after_add, hn, after_inr, after_add, hk, after_inr, Prod.mk.injEq, Sum.inr.injEq] at hend
  exact hend

/-- What every move keeps holds at the end of a run. -/
theorem StopsWith.of_invariant {Inv : σ → Prop} {Q : φ → Prop}
    (hgo : ∀ {events new s s'}, Inv s → m.move events s = .go new s' → Inv s')
    (hstop : ∀ {events new s final}, Inv s → m.move events s = .stop new final → Q final)
    {s : σ} {events : List ε} {final : φ} (hs : Inv s) (h : m.StopsWith s events final) :
    Q final := by
  have hafter (n : Nat) (c : Config σ ε φ) (hc : c.2.elim Inv Q) :
      (m.after n c).2.elim Inv Q := by
    induction n generalizing c with
    | zero => exact hc
    | succ n ih =>
      refine ih (m.step c) ?_
      obtain ⟨events, s | final⟩ := c
      · cases hmove : m.move events s with
        | go new s' => rw [step_go hmove]; exact hgo hc hmove
        | stop new final => rw [step_stop hmove]; exact hstop hc hmove
      · exact hc
  obtain ⟨n, hn⟩ := h
  have hend := hafter n ([], .inl s) hs
  rwa [hn] at hend

end Steps

/-! ## Simulations -/

/-- Every move of the first machine is matched by the second: by some moves with the same
events, or, when the move is silent, by none.  Moves that are matched by none lower the rank. -/
structure Simulation (m₁ : Machine σ ε φ) (m₂ : Machine τ ε φ) (R : σ → τ → Prop)
    (rank : σ → Nat) : Prop where
  stop {s : σ} {t : τ} {events new : List ε} {final : φ} : R s t →
    m₁.move events s = .stop new final →
      ∃ n, m₂.after n (events, .inl t) = (events ++ new, .inr final)
  go {s s' : σ} {t : τ} {events new : List ε} : R s t → m₁.move events s = .go new s' →
    (new = [] ∧ R s' t ∧ rank s' < rank s) ∨
      ∃ n t', m₂.after (n + 1) (events, .inl t) = (events ++ new, .inl t') ∧ R s' t'

namespace Simulation

/-- Related states with the same events, or the same end. -/
inductive Matched (R : σ → τ → Prop) : Config σ ε φ → Config τ ε φ → Prop
  | running {s : σ} {t : τ} (events : List ε) : R s t → Matched R (events, .inl s) (events, .inl t)
  | stopped (events : List ε) (final : φ) : Matched R (events, .inr final) (events, .inr final)

variable {m₁ : Machine σ ε φ} {m₂ : Machine τ ε φ} {R : σ → τ → Prop} {rank : σ → Nat}

theorem Matched.events_eq {c : Config σ ε φ} {d : Config τ ε φ} (h : Matched R c d) :
    c.1 = d.1 := by
  cases h <;> rfl

theorem matched_step (sim : Simulation m₁ m₂ R rank) {c : Config σ ε φ} {d : Config τ ε φ}
    (h : Matched R c d) : ∃ n, Matched R (m₁.step c) (m₂.after n d) := by
  cases h with
  | stopped events final => exact ⟨0, .stopped events final⟩
  | @running s t events hR =>
    cases hmove : m₁.move events s with
    | stop new final =>
      obtain ⟨n, hn⟩ := sim.stop hR hmove
      exact ⟨n, by rw [step_stop hmove, hn]; exact .stopped _ _⟩
    | go new s' =>
      rcases sim.go hR hmove with ⟨rfl, hR', -⟩ | ⟨n, t', hn, hR'⟩
      · exact ⟨0, by rw [step_go hmove, List.append_nil]; exact .running _ hR'⟩
      · exact ⟨n + 1, by rw [step_go hmove, hn]; exact .running _ hR'⟩

/-- The second machine keeps up with the first. -/
theorem matched_after (sim : Simulation m₁ m₂ R rank) (n : Nat) {c : Config σ ε φ}
    {d : Config τ ε φ} (h : Matched R c d) : ∃ k, Matched R (m₁.after n c) (m₂.after k d) := by
  induction n generalizing c d with
  | zero => exact ⟨0, h⟩
  | succ n ih =>
    obtain ⟨k, hk⟩ := sim.matched_step h
    obtain ⟨l, hl⟩ := ih hk
    exact ⟨l + k, by rwa [after_succ, after_add]⟩

/-- The first machine makes the second move at least once, or has stopped with it.  The
induction is on the rank, which the silent moves before that lower. -/
theorem progress (sim : Simulation m₁ m₂ R rank) {c : Config σ ε φ} {d : Config τ ε φ}
    (h : Matched R c d) : ∃ n k, Matched R (m₁.after n c) (m₂.after (k + 1) d) := by
  cases h with
  | stopped events final => exact ⟨0, 0, by rw [after_inr]; exact .stopped events final⟩
  | @running s t events hR =>
    induction hrank : rank s using Nat.strongRecOn generalizing s with
    | ind r ih =>
      cases hmove : m₁.move events s with
      | stop new final =>
        obtain ⟨n, hn⟩ := sim.stop hR hmove
        refine ⟨1, n, ?_⟩
        rw [after_succ, step_stop hmove, after_zero, Nat.add_comm n 1, after_add, hn, after_inr]
        exact .stopped _ _
      | go new s' =>
        rcases sim.go hR hmove with ⟨rfl, hR', hlt⟩ | ⟨n, t', hn, hR'⟩
        · obtain ⟨n, k, hk⟩ := ih (rank s') (hrank ▸ hlt) hR' rfl
          refine ⟨n + 1, k, ?_⟩
          rwa [after_succ, step_go hmove, List.append_nil]
        · refine ⟨1, n, ?_⟩
          rw [after_succ, step_go hmove, after_zero, hn]
          exact .running _ hR'

/-- The first machine makes the second move as often as one likes, or has stopped with it. -/
theorem catchUp (sim : Simulation m₁ m₂ R rank) (bound : Nat) {c : Config σ ε φ}
    {d : Config τ ε φ} (h : Matched R c d) :
    ∃ n k, bound ≤ k ∧ Matched R (m₁.after n c) (m₂.after k d) := by
  induction bound with
  | zero => exact ⟨0, 0, Nat.le_refl 0, h⟩
  | succ bound ih =>
    obtain ⟨n, k, hk, hm⟩ := ih
    obtain ⟨n', k', hm'⟩ := sim.progress hm
    refine ⟨n' + n, k' + 1 + k, by omega, ?_⟩
    rwa [after_add, after_add]

/-- Machines of which one simulates the other run alike from related states. -/
theorem sameRuns (sim : Simulation m₁ m₂ R rank) {s : σ} {t : τ} (h : R s t) :
    SameRuns m₁ s m₂ t where
  shows events := by
    have hm : Matched (φ := φ) R (([] : List ε), .inl s) ([], .inl t) := .running _ h
    constructor
    · rintro ⟨n, hn⟩
      obtain ⟨k, hk⟩ := sim.matched_after n hm
      exact ⟨k, hk.events_eq ▸ hn⟩
    · rintro ⟨k, hk⟩
      obtain ⟨n, k', hle, hm'⟩ := sim.catchUp k hm
      obtain ⟨i, rfl⟩ := Nat.exists_eq_add_of_le' hle
      refine ⟨n, hm'.events_eq ▸ hk.trans ?_⟩
      rw [after_add]
      exact prefix_after i _
  stops events final := by
    have hm : Matched (φ := φ) R (([] : List ε), .inl s) ([], .inl t) := .running _ h
    constructor
    · rintro ⟨n, hn⟩
      obtain ⟨k, hk⟩ := sim.matched_after n hm
      rw [hn] at hk
      generalize hd : m₂.after k ([], .inl t) = d at hk
      cases hk
      exact ⟨k, hd⟩
    · rintro ⟨k, hk⟩
      obtain ⟨n, k', hle, hm'⟩ := sim.catchUp k hm
      obtain ⟨i, rfl⟩ := Nat.exists_eq_add_of_le' hle
      rw [after_add, hk, after_inr] at hm'
      generalize hc : m₁.after n ([], .inl s) = c at hm'
      cases hm'
      exact ⟨n, hc⟩

end Simulation

/-! ## Finals -/

section Finals

variable (f : φ → ψ)

/-- The same machine, of whose final only a part counts. -/
def mapFinal (m : Machine σ ε φ) : Machine σ ε ψ where
  move events s := match m.move events s with
    | .go new s' => .go new s'
    | .stop new final => .stop new (f final)

/-- A configuration of which only a part of the final counts. -/
def mapConfig (c : Config σ ε φ) : Config σ ε ψ := (c.1, c.2.map id f)

theorem step_mapFinal (m : Machine σ ε φ) (c : Config σ ε φ) :
    (m.mapFinal f).step (mapConfig f c) = mapConfig f (m.step c) := by
  obtain ⟨events, s | final⟩ := c
  · show (m.mapFinal f).step (events, .inl s) = _
    cases h : m.move events s with
    | go new s' =>
      have h' : (m.mapFinal f).move events s = .go new s' := by simp only [mapFinal, h]
      rw [step_go h, step_go h']
      rfl
    | stop new final =>
      have h' : (m.mapFinal f).move events s = .stop new (f final) := by simp only [mapFinal, h]
      rw [step_stop h, step_stop h']
      rfl
  · rfl

theorem after_mapFinal (m : Machine σ ε φ) (n : Nat) (c : Config σ ε φ) :
    (m.mapFinal f).after n (mapConfig f c) = mapConfig f (m.after n c) := by
  induction n generalizing c with
  | zero => rfl
  | succ n ih => rw [after_succ, step_mapFinal, ih, after_succ]

theorem after_mapFinal_inl (m : Machine σ ε φ) (n : Nat) (events : List ε) (s : σ) :
    (m.mapFinal f).after n (events, .inl s) = mapConfig f (m.after n (events, .inl s)) :=
  m.after_mapFinal f n (events, .inl s)

theorem SameRuns.mapFinal {m₁ : Machine σ ε φ} {m₂ : Machine τ ε φ} {s₁ : σ} {s₂ : τ}
    (h : SameRuns m₁ s₁ m₂ s₂) : SameRuns (m₁.mapFinal f) s₁ (m₂.mapFinal f) s₂ where
  shows events := by
    simp only [Shows, after_mapFinal_inl, mapConfig]
    exact h.shows events
  stops events final := by
    have hstops {υ : Type} (m : Machine υ ε φ) (s : υ) :
        (m.mapFinal f).StopsWith s events final ↔
          ∃ old, f old = final ∧ m.StopsWith s events old := by
      constructor
      · rintro ⟨n, hn⟩
        rw [after_mapFinal_inl] at hn
        generalize hc : m.after n ([], .inl s) = c at hn
        obtain ⟨events', s' | old⟩ := c
        · cases hn
        · cases hn
          exact ⟨old, rfl, n, hc⟩
      · rintro ⟨old, rfl, n, hn⟩
        exact ⟨n, by rw [after_mapFinal_inl, hn]; rfl⟩
    rw [hstops, hstops]
    refine exists_congr fun old ↦ and_congr_right fun _ ↦ h.stops events old

end Finals

end Machine

end VisualScript
