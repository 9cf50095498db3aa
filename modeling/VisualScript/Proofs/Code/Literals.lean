import VisualScript.Class.Property
import VisualScript.Compile.Lower
import VisualScript.Proofs.Terminals.Nets

/-!
# Literals

A text that is read as a value of a type has the form of the values of that type.  So has what a
literal is in a script, unless it stands for an object where an array is due.
-/

namespace VisualScript

/-! ## Forms of values -/

namespace Value

theorem shape_parse? {ty : PinType} {s : String} {v : Value} (h : parse? ty s = some v) :
    v.shape = (zero ty).shape := by
  have hread {α : Type} {o : Option α} {f : α → Value} {shape : Shape}
      (hf : ∀ a, (f a).shape = shape) (h : o.map f = some v) : v.shape = shape := by
    obtain ⟨a, -, rfl⟩ := Option.map_eq_some_iff.1 h
    exact hf a
  unfold parse? at h
  unfold zero
  dsimp only at h
  generalize Text.trim s = s at h
  split at h
  · next harray =>
    rw [if_pos harray]
    split at h <;> cases h
    rfl
  · next hsingle =>
    rw [if_neg hsingle]
    cases hcategory : ty.category with
    | boolean =>
      rw [hcategory] at h
      dsimp only at h
      split at h
      · cases h
        rfl
      · split at h <;> cases h
        rfl
    | byte =>
      rw [hcategory] at h
      exact hread (f := byte) (fun _ ↦ rfl) h
    | int =>
      rw [hcategory] at h
      exact hread (f := int) (fun _ ↦ rfl) h
    | float =>
      rw [hcategory] at h
      exact hread (f := float) (fun _ ↦ rfl) h
    | struct =>
      rw [hcategory] at h
      dsimp only at h ⊢
      split at h
      · next hvector =>
        rw [if_pos hvector]
        split at h <;> cases h
        rfl
      · next hvector =>
        rw [if_neg hvector]
        split at h
        · next hcolor =>
          rw [if_pos hcolor]
          split at h <;> cases h
          rfl
        · next hcolor =>
          rw [if_neg hcolor]
          cases h
          rfl
    | name | string | text =>
      rw [hcategory] at h
      cases h
      rfl
    | object | classRef | interface | delegate | multicastDelegate =>
      rw [hcategory] at h
      dsimp only at h
      split at h <;> cases h <;> rfl
    | exec | wildcard =>
      rw [hcategory] at h
      cases h

theorem shape_zero_of_isArray {ty : PinType} (h : ty.isArray = true) :
    (zero ty).shape = .array := by
  rw [zero, if_pos h]
  rfl

theorem shape_zero_of_isObjectLike {ty : PinType} (hsingle : ty.isArray = false)
    (h : ty.category.isObjectLike = true) : (zero ty).shape = .object := by
  rw [zero, if_neg (by rw [hsingle]; decide)]
  cases hcategory : ty.category with
  | object | classRef | interface => rfl
  | _ =>
    rw [hcategory] at h
    cases h

end Value

/-! ## Literals of terminals -/

namespace Terminal

/-- The object that a literal stands for. -/
def object? (t : Terminal) : Option String :=
  if t.ty.category.isObjectLike then t.defaultObject else none

theorem literalValue_of_object {t : Terminal} {object : String} (h : t.object? = some object) :
    t.literalValue = .object (some object) := by
  unfold object? at h
  split at h
  · next hlike => rw [literalValue, h]; exact if_pos hlike
  · cases h

/-- A literal that stands for no object is what its text says, if that can be read. -/
theorem literalValue_of_text {t : Terminal} (h : t.object? = none) :
    t.literalValue = (Value.parse? t.ty t.defaultValue).getD (Value.zero t.ty) := by
  unfold object? at h
  unfold literalValue
  split at h
  · rw [h]
  · next hlike =>
    cases t.defaultObject with
    | none => rfl
    | some object => exact if_neg hlike

/-- An object in the place of an array is all that may have another form. -/
theorem shape_literalValue (t : Terminal) : t.literalValue.shape = (Value.zero t.ty).shape ↔
    (t.ty.isArray = true → t.object? = none) := by
  cases hobject : t.object? with
  | none =>
    refine iff_of_true ?_ fun _ ↦ rfl
    rw [literalValue_of_text hobject]
    cases hparse : Value.parse? t.ty t.defaultValue with
    | none => rfl
    | some v => exact Value.shape_parse? hparse
  | some object =>
    rw [literalValue_of_object hobject]
    by_cases harray : t.ty.isArray = true
    · rw [Value.shape_zero_of_isArray harray]
      exact iff_of_false (fun h ↦ by cases h) fun h ↦ by cases h harray
    · have hlike : t.ty.category.isObjectLike = true := by
        unfold object? at hobject
        split at hobject
        · assumption
        · cases hobject
      rw [Value.shape_zero_of_isObjectLike (Bool.eq_false_iff.2 harray) hlike]
      exact iff_of_true rfl fun h ↦ absurd h harray

end Terminal

namespace FunctionContext

/-- A literal in a script is the object that it stands for, and otherwise what its text says or
the zero value if that cannot be read.  It has the form of the values of its type unless it stands
for an object where an array is due. -/
theorem operand_of_literal (c : FunctionContext) {id : TermId} {t : Terminal}
    (ht : c.term? id = some t) (hkind : t.kind = .literal) :
    ∃ v, c.operand id = .literal v ∧
      (v.shape = (Value.zero t.ty).shape ↔ (t.ty.isArray = true → t.object? = none)) ∧
      (t.object? = none → (∀ w, Value.parse? t.ty t.defaultValue = some w → v = w) ∧
        (Value.parse? t.ty t.defaultValue = none → v = Value.zero t.ty)) ∧
      ∀ object, t.object? = some object → v = .object (some object) := by
  refine ⟨t.literalValue, ?_, t.shape_literalValue, fun hobject ↦ ⟨fun w hw ↦ ?_, fun hnone ↦ ?_⟩,
    fun object ↦ Terminal.literalValue_of_object⟩
  · rw [operand, ht, Option.map_some, Option.getD_some, Terminal.operand, hkind]
  · rw [Terminal.literalValue_of_text hobject, hw, Option.getD_some]
  · rw [Terminal.literalValue_of_text hobject, hnone, Option.getD_none]

/-- A function with one literal. -/
def withLiteral (ty : PinType) (defaultValue : String) (defaultObject : Option String) :
    FunctionContext :=
  { FunctionContext.new "F" (Graph.empty "F") with
    terms := [{ Terminal.new .literal defaultValue ty none with defaultValue, defaultObject }] }

theorem operand_of_literal_door :
    let ty := PinType.object "Actor"
    let c := withLiteral ty "" (some "/Game/Door")
    ∃ t v, c.term? ⟨0⟩ = some t ∧ t.kind = .literal ∧ t.object? = some "/Game/Door" ∧
      c.operand ⟨0⟩ = .literal v ∧ v.shape = (Value.zero ty).shape := by
  intro ty c
  obtain ⟨t, ht⟩ : ∃ t, c.term? ⟨0⟩ = some t := ⟨_, rfl⟩
  have hkind : t.kind = .literal := by
    cases ht
    rfl
  obtain ⟨v, hv, hshape, -⟩ := c.operand_of_literal ht hkind
  cases ht
  exact ⟨_, v, rfl, rfl, rfl, hv, hshape.2 fun harray ↦ by cases harray⟩

/-- An array of objects that is given one object is that object. -/
theorem not_shape_operand_of_literal :
    let ty := (PinType.object "Actor").arrayOf
    let c := withLiteral ty "" (some "/Game/Door")
    ∃ t v, c.term? ⟨0⟩ = some t ∧ t.kind = .literal ∧ t.ty = ty ∧ ty.layout?.isSome = true ∧
      c.operand ⟨0⟩ = .literal v ∧ v.shape = .object ∧ (Value.zero ty).shape = .array :=
  ⟨_, _, rfl, rfl, rfl, rfl, rfl, rfl, rfl⟩

end FunctionContext

end VisualScript
