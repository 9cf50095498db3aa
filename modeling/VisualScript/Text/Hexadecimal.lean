/-!
# Hexadecimal digits
-/

namespace VisualScript.Text

/-- The lower-case hexadecimal digits of a number. -/
def hexDigits (n : Nat) : List Char := Nat.toDigits 16 n

/-- The value of a digit of either case. -/
def hexValue? (c : Char) : Option Nat :=
  if '0' ≤ c ∧ c ≤ '9' then some (c.toNat - '0'.toNat)
  else if 'a' ≤ c ∧ c ≤ 'f' then some (c.toNat - 'a'.toNat + 10)
  else if 'A' ≤ c ∧ c ≤ 'F' then some (c.toNat - 'A'.toNat + 10)
  else none

/-- The number that digits read after `acc` make; nothing unless all are digits. -/
def hexNumberFrom? (acc : Nat) : List Char → Option Nat
  | [] => some acc
  | c :: rest => do hexNumberFrom? (acc * 16 + (← hexValue? c)) rest

def hexNumber? (s : List Char) : Option Nat := if s.isEmpty then none else hexNumberFrom? 0 s

end VisualScript.Text
