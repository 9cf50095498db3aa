import Mathlib.Logic.Relation
import VisualScript.Compile.Lower
import VisualScript.Proofs.Jumps.Resolution

/-!
# Running scripts

A script runs from an index and makes the operations visible that it performs.
Marks are skipped, and a run ends well when it comes to a return.  A script that
was lowered from statements runs like these.

A script whose last operation is a return and whose jumps are all to operations of its own is
never left: wherever a run begins in it, it goes on in it.
-/

namespace VisualScript

open Machine

namespace Script

/-- Runs a script; an oracle decides the conditions by the operations so far.  The final says
whether the run ended at a return. -/
def machine (oracle : List ScriptOp → Operand → Bool) (script : Script) :
    Machine Nat ScriptOp Bool where
  move events pc := match script[pc]? with
    | some (.comment _) | some (.tracepoint _) => .go [] (pc + 1)
    | some (.callFunction function target args result) =>
      .go [.callFunction function target args result] (pc + 1)
    | some (.assign dest src) => .go [.assign dest src] (pc + 1)
    | some (.setArray array elements) => .go [.setArray array elements] (pc + 1)
    | some (.jump target) => .go [] target
    | some (.jumpIfNot condition target) =>
      .go [] (if oracle events condition then pc + 1 else target)
    | some .ret => .stop [] true
    | some .endOfThread | some (.computedJump _) | none => .stop [] false

end Script

namespace FunctionContext

variable (c : FunctionContext) (oracle : List ScriptOp → Operand → Bool)

/-- Sees the operations that statements are lowered to. -/
def operationObserver : Observer ScriptOp where
  sees s := if s.isOperation then [c.lower 0 s] else []
  holds events t := oracle events (c.operand t)

theorem sees_operationObserver {s : Statement} (h : s.isOperation = false) :
    (c.operationObserver oracle).sees s = [] := by
  simp only [operationObserver, h, Bool.false_eq_true, if_false]

/-- Whether a run of statements ended at a return. -/
def endedWell (final : Option Statement) : Bool := final = some .ret

/-- The script of a function runs like its statements. -/
theorem machine_lower (statements : List Statement) :
    Script.machine oracle (statements.map (c.lower (statements.length - 1))) =
      (Code.machine (c.operationObserver oracle) (lowerTarget (statements.length - 1))
        statements).mapFinal endedWell := by
  rw [Script.machine, mapFinal, Machine.mk.injEq]
  funext events pc
  rw [List.getElem?_map]
  simp only [Code.machine]
  cases statements[pc]? with
  | none => rfl
  | some s => cases s <;> rfl

end FunctionContext

/-! ## Scripts that are not left -/

namespace ScriptOp

/-- Operations after which the next one may run. -/
def goesOn : ScriptOp → Bool
  | comment _ | tracepoint _ | callFunction .. | assign .. | setArray .. | jumpIfNot .. => true
  | _ => false

/-- The index that is written into a jump. -/
def target? : ScriptOp → Option Nat
  | jump target | jumpIfNot _ target => some target
  | _ => none

end ScriptOp

namespace Script

/-- The operation that may run after another, where computed jumps go to some of the entries. -/
inductive Goes (entries : List Nat) (script : Script) : Nat → Nat → Prop
  | next {i : Nat} {op : ScriptOp} : script[i]? = some op → op.goesOn = true →
      Goes entries script i (i + 1)
  | jump {i target : Nat} {op : ScriptOp} : script[i]? = some op → op.target? = some target →
      Goes entries script i target
  | enter {i target : Nat} {operand : Operand} : script[i]? = some (.computedJump operand) →
      target ∈ entries → Goes entries script i target

/-- What a script is like that is not left. -/
structure Closed (script : Script) : Prop where
  last : script.getLast? = some .ret
  jumps : ∀ op ∈ script, ∀ target, op.target? = some target → target < script.length

variable {script : Script} {entries : List Nat} {i j : Nat}

theorem lt_length_of_goes (hscript : script.Closed) (hentries : ∀ k ∈ entries, k < script.length)
    (h : Goes entries script i j) : j < script.length := by
  cases h with
  | next hop hgoes =>
    have hi : i < script.length := (List.getElem?_eq_some_iff.1 hop).1
    -- The last operation is a return, after which nothing runs.
    have hlast : i ≠ script.length - 1 := by
      rintro rfl
      rw [← List.getLast?_eq_getElem?, hscript.last] at hop
      cases hop
      cases hgoes
    omega
  | jump hop htarget => exact hscript.jumps _ (List.mem_of_getElem? hop) j htarget
  | enter hop hmem => exact hentries j hmem

/-- A run that begins in a closed script stays in it, if computed jumps do. -/
theorem lt_length_of_run (hscript : script.Closed) (hentries : ∀ k ∈ entries, k < script.length)
    (hi : i < script.length) (h : Relation.ReflTransGen (Goes entries script) i j) :
    j < script.length := by
  induction h with
  | refl => exact hi
  | tail _ hlast _ => exact lt_length_of_goes hscript hentries hlast

theorem closed_ret : Closed [.ret] where
  last := rfl
  jumps op hop target htarget := by
    cases List.mem_singleton.1 hop
    cases htarget

end Script

/-!
## Scripts without their comments

Deleting the comments of a script moves the other operations up, so every index that
names one of them goes down by the number of comments before it.
-/

/-! ### Indices -/

section Renumber

variable {α β : Type} (p : α → Bool) (l : List α)

/-- Where the element at an index stands once some elements are deleted: lower by the number of
these before it. -/
def renumber (k : Nat) : Nat := k - (l.take k).countP p

theorem renumber_map (f : β → α) (l : List β) (k : Nat) :
    renumber p (l.map f) k = renumber (p ∘ f) l k := by
  rw [renumber, ← List.map_take, List.countP_map, renumber]

/-- That many elements before it are left. -/
theorem renumber_append_length (l' : List α) :
    renumber p (l ++ l') l.length = (l.filter (!p ·)).length := by
  have hcount := List.length_eq_countP_add_countP p (l := l)
  rw [renumber, List.take_left, ← List.countP_eq_length_filter]
  simp only [Bool.not_eq_true, Bool.decide_eq_false] at hcount
  omega

end Renumber

/-! ### Operations -/

namespace ScriptOp

def isComment : ScriptOp → Bool
  | comment _ => true
  | _ => false

/-- Changes the index that is written into a jump. -/
def mapTarget (f : Nat → Nat) : ScriptOp → ScriptOp
  | jump target => jump (f target)
  | jumpIfNot condition target => jumpIfNot condition (f target)
  | op => op

end ScriptOp

namespace Operand

/-- The index of an operation, as a literal. -/
def ofIndex (k : Nat) : Operand :=
  .literal ((Value.parse? .int (toString k)).getD (Value.zero .int))

end Operand

namespace ScriptOp

/-- Lets a call of the function `main` pass an index. -/
def enter (main : String) (k : Nat) : ScriptOp → ScriptOp
  | comment text => comment text
  | callFunction function context args result =>
    if function = main then callFunction function context (args.map fun _ ↦ .ofIndex k) result
    else callFunction function context args result
  | op => op

@[simp]
theorem isComment_enter (main : String) (k : Nat) (op : ScriptOp) :
    (op.enter main k).isComment = op.isComment := by
  cases op with
  | callFunction function context args result =>
    simp only [enter]
    split <;> rfl
  | _ => rfl

/-- Of two indices the last is passed. -/
theorem enter_enter (main : String) (j k : Nat) (op : ScriptOp) :
    (op.enter main j).enter main k = op.enter main k := by
  cases op with
  | callFunction function context args result =>
    by_cases hmain : function = main
    · simp only [enter, hmain, if_true, List.map_map, Function.comp_def]
    · simp only [enter, hmain, if_false]
  | _ => rfl

theorem enter_mapTarget (main : String) (k : Nat) (f : Nat → Nat) (op : ScriptOp) :
    (op.mapTarget f).enter main k = (op.enter main k).mapTarget f := by
  cases op with
  | callFunction function context args result =>
    simp only [mapTarget, enter]
    split <;> rfl
  | _ => rfl

end ScriptOp

/-! ### Scripts -/

namespace Script

variable (script : Script)

/-- The script with its comments deleted and its jumps renumbered. -/
def withoutComments : Script :=
  (script.filter fun op ↦ !op.isComment).map
    (·.mapTarget (renumber ScriptOp.isComment script))

/-- Lets the calls of the function `main` pass an index. -/
def enter (main : String) (k : Nat) : Script := script.map (·.enter main k)

theorem enter_enter (main : String) (j k : Nat) :
    (script.enter main j).enter main k = script.enter main k := by
  rw [enter, enter, List.map_map, enter]
  exact List.map_congr_left fun op _ ↦ op.enter_enter main j k

theorem withoutComments_enter (main : String) (k : Nat) :
    (script.enter main k).withoutComments = script.withoutComments.enter main k := by
  have hcomment : ScriptOp.isComment ∘ (·.enter main k) = ScriptOp.isComment :=
    funext (ScriptOp.isComment_enter main k)
  have hindex : renumber ScriptOp.isComment (script.map (·.enter main k)) =
      renumber ScriptOp.isComment script := by
    funext i
    rw [renumber_map, hcomment]
  have hkept : (fun op : ScriptOp ↦ !op.isComment) ∘ (fun op : ScriptOp ↦ op.enter main k) =
      fun op ↦ !op.isComment :=
    funext fun op ↦ congrArg (!·) (op.isComment_enter main k)
  rw [withoutComments, enter, hindex, List.filter_map, hkept, List.map_map, withoutComments, enter,
    List.map_map]
  exact List.map_congr_left fun op _ ↦ (op.enter_mapTarget main k _).symm

end Script

end VisualScript
