import VisualScript.Flags

/-!
# Flags one by one

A flag set is the flags that it has.  What happens outside a mask is not seen through it.
-/

namespace VisualScript.Flags

variable {family : FlagFamily} {a b c mask : Flags family}

/-- Whether a set has a bit. -/
def has (a : Flags family) (i : Nat) : Bool := a.bits.toBitVec.getLsbD i

@[simp]
theorem has_or (a b : Flags family) (i : Nat) : (a ||| b).has i = (a.has i || b.has i) :=
  BitVec.getLsbD_or

@[simp]
theorem has_and (a b : Flags family) (i : Nat) : (a &&& b).has i = (a.has i && b.has i) :=
  BitVec.getLsbD_and

@[simp]
theorem has_empty (i : Nat) : (empty : Flags family).has i = false := BitVec.getLsbD_zero

theorem ext_has (h : ∀ i < 32, a.has i = b.has i) : a = b := by
  obtain ⟨a⟩ := a
  obtain ⟨b⟩ := b
  exact congrArg Flags.mk (UInt32.toBitVec_inj.1 (BitVec.eq_of_getLsbD_eq h))

theorem has_without (a b : Flags family) {i : Nat} (hi : i < 32) :
    (a.without b).has i = (a.has i && !b.has i) := by
  show (a.bits.toBitVec &&& ~~~b.bits.toBitVec).getLsbD i = _
  rw [BitVec.getLsbD_and, BitVec.getLsbD_not, decide_eq_true hi, Bool.true_and]
  rfl

theorem contains_iff : a.contains b = true ↔ ∀ i < 32, b.has i = true → a.has i = true := by
  have heq : a.contains b = true ↔ a &&& b = b := by
    rw [contains, beq_iff_eq]
    exact ⟨congrArg Flags.mk, congrArg Flags.bits⟩
  rw [heq]
  constructor
  · intro h i _ hb
    have hand := congrArg (·.has i) h
    simp only [has_and, hb, Bool.and_true] at hand
    exact hand
  · intro h
    refine ext_has fun i hi ↦ ?_
    rw [has_and]
    cases hb : b.has i with
    | false => exact Bool.and_false _
    | true => rw [h i hi hb, Bool.true_and]

/-! ## Masks -/

theorem and_and_of_disjoint (h : b &&& mask = empty) : (a &&& b) &&& mask = empty := by
  refine ext_has fun i _ ↦ ?_
  rw [has_and, has_and, Bool.and_assoc, ← has_and b mask, h, has_empty, Bool.and_false]

/-- Flags outside a mask may be added. -/
theorem or_and_of_disjoint (h : b &&& mask = empty) : (a ||| b) &&& mask = a &&& mask := by
  refine ext_has fun i _ ↦ ?_
  have hnone : (b.has i && mask.has i) = false := by
    rw [← has_and, h, has_empty]
  rw [has_and, has_or, has_and, Bool.and_or_distrib_right, hnone, Bool.or_false]

/-- Flags outside a mask may be dropped. -/
theorem without_and_of_disjoint (h : b &&& mask = empty) : a.without b &&& mask = a &&& mask := by
  refine ext_has fun i hi ↦ ?_
  have hnone : (b.has i && mask.has i) = false := by
    rw [← has_and, h, has_empty]
  rw [has_and, has_without a b hi, has_and]
  revert hnone
  cases a.has i <;> cases b.has i <;> cases mask.has i <;> decide

/-- What is put in the place of the flags of a mask is seen through it. -/
theorem replace_and (a b mask : Flags family) :
    (a.without mask ||| (b &&& mask)) &&& mask = b &&& mask := by
  refine ext_has fun i hi ↦ ?_
  rw [has_and, has_or, has_without a mask hi, has_and]
  cases a.has i <;> cases b.has i <;> cases mask.has i <;> rfl

/-- Sets that are alike through a mask have the same of its flags. -/
theorem contains_of_and_eq (h : a &&& mask = b &&& mask) (hb : b.contains (c &&& mask)) :
    a.contains (c &&& mask) := by
  rw [contains_iff] at hb ⊢
  intro i hi hc
  have hmask : mask.has i = true := by
    rw [has_and, Bool.and_eq_true] at hc
    exact hc.2
  have hsame := congrArg (·.has i) h
  simp only [has_and, hmask, Bool.and_true] at hsame
  exact hsame.trans (hb i hi hc)

theorem contains_or_right (a b : Flags family) : (a ||| b).contains b :=
  contains_iff.2 fun i _ hb ↦ by rw [has_or, hb, Bool.or_true]

theorem contains_or_of_contains (h : a.contains c) (b : Flags family) : (a ||| b).contains c := by
  rw [contains_iff] at h ⊢
  intro i hi hc
  rw [has_or, h i hi hc, Bool.true_or]

/-! ## Single flags -/

theorem contains_single {i : Nat} (hi : i < 32)
    (hsingle : ∀ j < 32, (b.has j = true ↔ j = i)) : a.contains b = a.has i := by
  rw [Bool.eq_iff_iff, contains_iff]
  exact ⟨fun h ↦ h i hi ((hsingle i hi).2 rfl), fun h j hj hb ↦ (hsingle j hj).1 hb ▸ h⟩

end VisualScript.Flags
