/-!
# Ranges of characters

A character property is a sorted list of inclusive code-point ranges.
-/

namespace VisualScript.Text

/-- Inclusive ranges of code points, in increasing order. -/
abbrev CharRanges := List (Nat × Nat)

namespace CharRanges

def contains (ranges : CharRanges) (c : Char) : Bool :=
  ranges.any fun r => r.1 ≤ c.toNat && c.toNat ≤ r.2

@[simp]
theorem contains_nil (c : Char) : contains [] c = false := rfl

theorem contains_iff {ranges : CharRanges} {c : Char} :
    contains ranges c = true ↔ ∃ r ∈ ranges, r.1 ≤ c.toNat ∧ c.toNat ≤ r.2 := by
  simp [contains]

end CharRanges

end VisualScript.Text
