import VisualScript.Log
import VisualScript.Handler.State

/-!
# Counting errors and warnings

Only errors count as errors, and none is ever taken back, so a log without
errors never had one.  Two logs with the same sources keep a message alike.
-/

namespace VisualScript.MessageLog

variable (log : MessageLog) (text : String) (tokens : List SourceToken)

@[simp]
theorem numErrors_error : (log.error text tokens).numErrors = log.numErrors + 1 := rfl

@[simp]
theorem numErrors_warning : (log.warning text tokens).numErrors = log.numErrors := rfl

@[simp]
theorem numErrors_note : (log.note text tokens).numErrors = log.numErrors := rfl

@[simp]
theorem numErrors_addSource (new source : ObjectRef) :
    (log.addSource new source).numErrors = log.numErrors := by
  unfold addSource
  split <;> rfl

theorem numErrors_push (m : Message) :
    (log.push m.severity m.text m.tokens).numErrors =
      log.numErrors + if m.severity = .error then 1 else 0 := rfl

theorem numErrors_pushAll (messages : List Message) :
    (log.pushAll messages).numErrors =
      log.numErrors + messages.countP (·.severity = .error) := by
  induction messages generalizing log with
  | nil => rfl
  | cons m rest ih =>
    have hstep : log.pushAll (m :: rest) =
        (log.push m.severity m.text m.tokens).pushAll rest := rfl
    rw [hstep, ih, numErrors_push, List.countP_cons]
    simp only [decide_eq_true_eq]
    omega

theorem numWarnings_pushAll (messages : List Message) :
    (log.pushAll messages).numWarnings =
      log.numWarnings + messages.countP (·.severity = .warning) := by
  induction messages generalizing log with
  | nil => rfl
  | cons m rest ih =>
    have hfirst : (log.push m.severity m.text m.tokens).numWarnings =
        log.numWarnings + if m.severity = .warning then 1 else 0 := rfl
    have hstep : log.pushAll (m :: rest) =
        (log.push m.severity m.text m.tokens).pushAll rest := rfl
    rw [hstep, ih, hfirst, List.countP_cons]
    simp only [decide_eq_true_eq]
    omega

theorem numErrors_pushAll_eq_iff (messages : List Message) :
    (log.pushAll messages).numErrors = log.numErrors ↔ ∀ m ∈ messages, m.severity ≠ .error := by
  rw [numErrors_pushAll, Nat.add_eq_left, List.countP_eq_zero]
  simp only [decide_eq_true_eq, ne_eq]

theorem numWarnings_pushAll_eq_iff (messages : List Message) :
    (log.pushAll messages).numWarnings = log.numWarnings ↔
      ∀ m ∈ messages, m.severity ≠ .warning := by
  rw [numWarnings_pushAll, Nat.add_eq_left, List.countP_eq_zero]
  simp only [decide_eq_true_eq, ne_eq]

variable {log}

theorem le_numErrors_pushAll (messages : List Message) :
    log.numErrors ≤ (log.pushAll messages).numErrors := by
  rw [numErrors_pushAll]
  omega

/-- If nothing was counted, then there was no error among the messages. -/
theorem severity_ne_error_of_pushAll {messages : List Message}
    (h : (log.pushAll messages).numErrors ≤ log.numErrors) :
    ∀ m ∈ messages, m.severity ≠ .error := by
  rw [numErrors_pushAll] at h
  have hcount : messages.countP (·.severity = .error) = 0 := by omega
  simpa using List.countP_eq_zero.1 hcount

/-! ## The errors -/

theorem sources_pushAll (log : MessageLog) (messages : List Message) :
    (log.pushAll messages).sources = log.sources :=
  List.foldlRecOn (motive := fun log' : MessageLog ↦ log'.sources = log.sources) messages _ rfl
    fun _ h _ _ ↦ h

/-- What is traced and filled in depends on the sources only. -/
theorem errors_push_congr {log log' : MessageLog} (hsources : log'.sources = log.sources)
    (herrors : log'.errors = log.errors) (severity : Severity) (text : String)
    (tokens : List SourceToken) :
    (log'.push severity text tokens).errors = (log.push severity text tokens).errors := by
  have htrace (object : ObjectRef) : log'.sourceOf object = log.sourceOf object := by
    rw [sourceOf, sourceOf, hsources]
  unfold MessageLog.errors ofSeverity at herrors ⊢
  simp only [push, List.filter_append, herrors, htrace]

theorem errors_pushAll_congr {log log' : MessageLog} (hsources : log'.sources = log.sources)
    (herrors : log'.errors = log.errors) (messages : List Message) :
    (log'.pushAll messages).errors = (log.pushAll messages).errors := by
  induction messages generalizing log log' with
  | nil => exact herrors
  | cons m rest ih =>
    exact ih hsources (errors_push_congr hsources herrors m.severity m.text m.tokens)

/-- The log gains these messages, and around them nothing but warnings and notes. -/
structure Reports (messages : List Message) (log log' : MessageLog) : Prop where
  sources : log'.sources = log.sources
  errors : log'.errors = (log.pushAll messages).errors

namespace Reports

theorem refl (log : MessageLog) : Reports [] log log := ⟨rfl, rfl⟩

theorem trans {messages messages' : List Message} {log log' log'' : MessageLog}
    (h : Reports messages log log') (h' : Reports messages' log' log'') :
    Reports (messages ++ messages') log log'' where
  sources := h'.sources.trans h.sources
  errors := by
    have hsources : log'.sources = (log.pushAll messages).sources :=
      h.sources.trans (sources_pushAll log messages).symm
    rw [h'.errors, errors_pushAll_congr hsources h.errors, pushAll, pushAll, pushAll,
      List.foldl_append]

theorem error (log : MessageLog) (text : String) (tokens : List SourceToken) :
    Reports [.error text tokens] log (log.error text tokens) := ⟨rfl, rfl⟩

theorem warning (log : MessageLog) (text : String) (tokens : List SourceToken) :
    Reports [] log (log.warning text tokens) := by
  refine ⟨rfl, ?_⟩
  unfold MessageLog.errors ofSeverity
  simp [MessageLog.warning, push, pushAll]

theorem foldl {σ α : Type} (logOf : σ → MessageLog) {f : σ → α → σ}
    (hf : ∀ s a, Reports [] (logOf s) (logOf (f s a))) (l : List α) (s : σ) :
    Reports [] (logOf s) (logOf (l.foldl f s)) := by
  induction l generalizing s with
  | nil => exact .refl _
  | cons a l ih => exact (hf s a).trans (ih (f s a))

end Reports

end VisualScript.MessageLog

/-!
## Steps and what they report

Steps report to a log and read nothing of it.  What comes out of a step is up to the
rest of the state, so a step takes states that are alike but for their logs to states
that are alike again.
-/

namespace VisualScript

/-- States with a log.  Two of them are alike if they differ in what was reported at most. -/
class Logged (σ : Type) where
  Alike : σ → σ → Prop

open Logged (Alike)

instance : Logged MessageLog := ⟨fun _ _ ↦ True⟩

instance {α σ : Type} [Logged σ] : Logged (α × σ) := ⟨fun r r' ↦ r'.1 = r.1 ∧ Alike r.2 r'.2⟩

instance : Logged FunctionState := ⟨fun s s' ↦ ∃ log, s' = { s with log }⟩

/-- What the step makes of a state is not up to what was reported before. -/
def IgnoresLog {σ τ : Type} [Logged σ] [Logged τ] (f : σ → τ) : Prop :=
  ∀ ⦃s t : σ⦄, Alike s t → Alike (f s) (f t)

namespace IgnoresLog

variable {σ τ υ : Type} [Logged σ] [Logged τ] [Logged υ]

theorem id : IgnoresLog fun s : σ ↦ s := fun _ _ h ↦ h

theorem comp {f : σ → τ} {g : τ → υ} (hf : IgnoresLog f) (hg : IgnoresLog g) :
    IgnoresLog fun s ↦ g (f s) :=
  fun _ _ h ↦ hg (hf h)

theorem foldl {α : Type} {f : σ → α → σ} (hf : ∀ a, IgnoresLog (f · a)) (l : List α) :
    IgnoresLog (l.foldl f) := by
  induction l with
  | nil => exact .id
  | cons a l ih => exact (hf a).comp ih

/-- What the step finds is the same, whatever was reported. -/
theorem outcome {α : Type} {f : σ → α × τ} (hf : IgnoresLog f) {s t : σ} (h : Alike s t) :
    ∃ a s' t', f s = (a, s') ∧ f t = (a, t') ∧ Alike s' t' := by
  obtain ⟨hfound, hrest⟩ := hf h
  exact ⟨(f s).1, (f s).2, (f t).2, rfl, Prod.ext hfound rfl, hrest⟩

end IgnoresLog

end VisualScript
