import Mathlib.Data.Finset.Card
import Mathlib.Logic.Relation
import VisualScript.Proofs.Macros.Descent

/-!
# Tracing to the end

A chain of entries that does not return passes each object once, and every object that it
passes has an entry.  So it is no longer than there are objects with an entry, a search
that may take as many steps comes to its end, and what is reported names objects that the
author made.
-/

namespace VisualScript.MessageLog

variable {log : MessageLog} {object source : ObjectRef}

/-- The objects with an entry. -/
def generated (log : MessageLog) : Finset ObjectRef := (log.sources.map (·.1)).toFinset

theorem Traces.mem_generated (h : log.Traces object source) : object ∈ log.generated := by
  obtain ⟨before, after, heq, -⟩ := List.lookup_eq_some_iff.1 h
  simp [generated, heq]

theorem card_generated_le (log : MessageLog) : log.generated.card ≤ log.sources.length :=
  (List.toFinset_card_le _).trans (List.length_map _).le

/-! ## Chains -/

/-- Entry by entry, a chain leads over the objects of the list to the last one. -/
inductive Passes (log : MessageLog) : ObjectRef → List ObjectRef → ObjectRef → Prop
  | stay (object : ObjectRef) : Passes log object [] object
  | go {object next last : ObjectRef} {passed : List ObjectRef} : log.Traces object next →
      Passes log next passed last → Passes log object (object :: passed) last

namespace Passes

variable {last : ObjectRef} {passed : List ObjectRef}

theorem chain (h : log.Passes object passed last) :
    Relation.ReflTransGen log.Traces object last := by
  induction h with
  | stay => exact .refl
  | go hnext _ ih => exact .head hnext ih

/-- A chain leads to each object that it passes. -/
theorem chain_of_mem (h : log.Passes object passed last) {o : ObjectRef} (ho : o ∈ passed) :
    Relation.ReflTransGen log.Traces object o := by
  induction h with
  | stay => cases ho
  | go hnext _ ih =>
    rcases List.mem_cons.1 ho with rfl | ho
    · exact .refl
    · exact .head hnext (ih ho)

theorem subset_generated (h : log.Passes object passed last) :
    ∀ o ∈ passed, o ∈ log.generated := by
  induction h with
  | stay => exact fun _ ho ↦ (List.not_mem_nil ho).elim
  | go hnext _ ih => exact List.forall_mem_cons.2 ⟨hnext.mem_generated, ih⟩

theorem tail (h : log.Passes object passed last) (hnext : log.Traces last source) :
    log.Passes object (passed ++ [last]) source := by
  induction h with
  | stay => exact .go hnext (.stay source)
  | go hfirst _ ih => exact .go hfirst (ih hnext)

theorem nodup (h : log.Passes object passed last) (hlog : log.Acyclic) : passed.Nodup := by
  induction h with
  | stay => exact List.nodup_nil
  | go hnext hrest ih =>
    exact List.nodup_cons.2 ⟨fun hmem ↦ hlog _ (.head' hnext (hrest.chain_of_mem hmem)), ih⟩

/-- A chain passes at most as many objects as have an entry. -/
theorem length_le (h : log.Passes object passed last) (hlog : log.Acyclic) :
    passed.length ≤ log.generated.card := by
  rw [← List.toFinset_card_of_nodup (h.nodup hlog)]
  exact Finset.card_le_card fun o ho ↦ h.subset_generated o (List.mem_toFinset.1 ho)

end Passes

/-- Following a table passes along a chain, to its end or for as many steps as it may take. -/
theorem exists_passes_follow (log : MessageLog) (steps : Nat) (object : ObjectRef) :
    ∃ passed, log.Passes object passed (follow log.sources steps object) ∧
      (log.sources.lookup (follow log.sources steps object) = none ∨ passed.length = steps) := by
  induction steps generalizing object with
  | zero => exact ⟨[], .stay object, .inr rfl⟩
  | succ steps ih =>
    unfold follow
    split
    · next next hnext =>
      obtain ⟨passed, hpasses, hend⟩ := ih next
      exact ⟨object :: passed, .go hnext hpasses, hend.imp id (congrArg Nat.succ)⟩
    · next hnone => exact ⟨[], .stay object, .inl hnone⟩

/-! ## The end of a chain -/

namespace Acyclic

variable (h : log.Acyclic)
include h

/-- As many steps as there are objects with an entry lead to the end of a chain. -/
theorem endsAt_follow {steps : Nat} (hsteps : log.generated.card ≤ steps) (object : ObjectRef) :
    log.EndsAt object (follow log.sources steps object) := by
  obtain ⟨passed, hpasses, hend⟩ := log.exists_passes_follow steps object
  refine ⟨hpasses.chain, ?_⟩
  rw [Option.eq_none_iff_forall_ne_some]
  intro next hnext
  -- one more entry would make the chain too long
  have hlonger := (hpasses.tail hnext).length_le h
  rw [List.length_append, List.length_singleton] at hlonger
  rcases hend with hnone | hlength
  · rw [hnone] at hnext
    cases hnext
  · omega

theorem endsAt_sourceOf (object : ObjectRef) : log.EndsAt object (log.sourceOf object) :=
  h.endsAt_follow (log.card_generated_le.trans (Nat.le_succ _)) object

theorem follow_eq_sourceOf {steps : Nat} (hsteps : log.generated.card ≤ steps)
    (object : ObjectRef) : follow log.sources steps object = log.sourceOf object :=
  (h.endsAt_follow hsteps object).unique (h.endsAt_sourceOf object)

end Acyclic

theorem sourceOf_of_lookup (h : log.sources.lookup object = none) : log.sourceOf object = object := by
  rw [sourceOf, follow, h]

/-! ## Messages -/

/-- A log keeps one message more, with each of the tokens moved to the end of its chain. -/
structure Stores (tokens : List SourceToken) (log log' : MessageLog) : Prop where
  sources : log'.sources = log.sources
  message : ∃ message, log'.messages = log.messages ++ [message] ∧
    List.Forall₂ (fun token stored ↦ stored.label = token.label ∧
      log.EndsAt token.object stored.object) tokens message.tokens

theorem Acyclic.stores_push (h : log.Acyclic) (severity : Severity) (text : String)
    (tokens : List SourceToken) : log.Stores tokens (log.push severity text tokens) := by
  refine ⟨rfl, _, rfl, ?_⟩
  exact List.forall₂_map_right_iff.2
    (List.forall₂_same.2 fun token _ ↦ ⟨rfl, h.endsAt_sourceOf token.object⟩)

/-- Where no chain of entries returns, every object is traced to the last one of its chain, which
has no entry and is traced to itself.  No chain has more entries than there are objects with an
entry, and more steps than these change nothing.  So whatever is reported, its tokens name
objects without an entry. -/
theorem traced_of_acyclic (h : log.Acyclic) :
    (∀ object, (∃ passed, log.Passes object passed (log.sourceOf object)) ∧
      log.sources.lookup (log.sourceOf object) = none ∧
      log.sourceOf (log.sourceOf object) = log.sourceOf object ∧
      (∀ passed last, log.Passes object passed last → passed.length < log.sources.length + 1) ∧
      ∀ steps, log.generated.card ≤ steps →
        follow log.sources steps object = log.sourceOf object) ∧
    ∀ text tokens, log.Stores tokens (log.error text tokens) ∧
      log.Stores tokens (log.warning text tokens) ∧ log.Stores tokens (log.note text tokens) := by
  refine ⟨fun object ↦ ?_, fun text tokens ↦ ?_⟩
  · have hend := h.endsAt_sourceOf object
    obtain ⟨passed, hpasses, -⟩ := log.exists_passes_follow (log.sources.length + 1) object
    refine ⟨⟨passed, hpasses⟩, hend.last, sourceOf_of_lookup hend.last, fun passed' last hother ↦ ?_,
      fun steps hsteps ↦ h.follow_eq_sourceOf hsteps object⟩
    exact Nat.lt_succ_of_le ((hother.length_le h).trans log.card_generated_le)
  · exact ⟨h.stores_push .error text tokens, h.stores_push .warning text tokens,
      h.stores_push .note text tokens⟩

/-- The stub of an event comes from the consolidated graph, of whose node it is said twice where
it comes from. -/
def retold : MessageLog :=
  let log := empty.addSource (.node "Stub" ⟨1⟩) (.node "Uber" ⟨7⟩)
  let log := log.addSource (.node "Uber" ⟨7⟩) (.node "Draft" ⟨2⟩)
  log.addSource (.node "Uber" ⟨7⟩) (.node "Page" ⟨2⟩)

/-- How far an object of these graphs is from what the author made. -/
def distance : ObjectRef → Nat
  | .node "Stub" _ => 2
  | .node "Uber" _ => 1
  | _ => 0

theorem traced_of_acyclic_retold :
    retold.Acyclic ∧ retold.generated.card = 2 ∧
      retold.sourceOf (.node "Stub" ⟨1⟩) = .node "Page" ⟨2⟩ ∧
      retold.sources.lookup (.node "Page" ⟨2⟩) = none ∧
      (∀ steps, 2 ≤ steps → follow retold.sources steps (.node "Stub" ⟨1⟩) = .node "Page" ⟨2⟩) ∧
      ((retold.warning "Odd @@" [⟨.node "Stub" ⟨1⟩, "Call X"⟩]).messages.map (·.tokens) =
        [[⟨.node "Page" ⟨2⟩, "Call X"⟩]]) ∧
      retold.Stores [⟨.node "Stub" ⟨1⟩, "Call X"⟩]
        (retold.warning "Odd @@" [⟨.node "Stub" ⟨1⟩, "Call X"⟩]) := by
  have hdescends : retold.Descends distance :=
    ((Descends.empty.addSource (by decide)).addSource (by decide)).addSource (by decide)
  have hcard : retold.generated.card = 2 := by decide
  have hsource : retold.sourceOf (.node "Stub" ⟨1⟩) = .node "Page" ⟨2⟩ := by decide
  obtain ⟨htraced, hreports⟩ := traced_of_acyclic hdescends.acyclic
  obtain ⟨-, hlast, -, -, hsteps⟩ := htraced (.node "Stub" ⟨1⟩)
  rw [hsource] at hlast hsteps
  exact ⟨hdescends.acyclic, hcard, hsource, hlast, fun steps hle ↦ hsteps steps (hcard ▸ hle),
    by decide, (hreports _ _).2.1⟩

end VisualScript.MessageLog
