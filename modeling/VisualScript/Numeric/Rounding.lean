/-!
# Rounding to binary formats

Exact rounding of a non-negative quotient to the nearest number of a binary
format, ties to the even significand.  Everything is natural-number arithmetic.
-/

namespace VisualScript.Numeric

/-- The nearest integer to `num / den`; a half goes to the even neighbour. -/
def roundQuotient (num den : Nat) : Nat :=
  let q := num / den
  let r := num % den
  if 2 * r < den then q
  else if den < 2 * r then q + 1
  else q + q % 2

/-! ## Formats -/

/-- A binary format without signs and specials. -/
structure BinaryFormat where
  /-- Bits of a significand. -/
  precision : Nat
  /-- Exponent of the last place of the smallest numbers. -/
  minExponent : Int
  /-- Exponent of the last place of the largest numbers. -/
  maxExponent : Int

def single : BinaryFormat := ⟨24, -149, 104⟩

def double : BinaryFormat := ⟨53, -1074, 971⟩

/-- The number `significand · 2 ^ exponent`. -/
structure Magnitude where
  significand : Nat
  exponent : Int
  deriving DecidableEq, Repr

namespace Magnitude

/-- A magnitude as a quotient of natural numbers. -/
def ratio (m : Magnitude) : Nat × Nat :=
  (m.significand * Nat.pow 2 m.exponent.toNat, Nat.pow 2 (-m.exponent).toNat)

end Magnitude

/-- The exponent of the greatest power of two that is at most `num / den`. -/
def floorLog2 (num den : Nat) : Int :=
  let l : Int := num.log2 - den.log2
  if den * Nat.pow 2 l.toNat ≤ num * Nat.pow 2 (-l).toNat then l else l - 1

namespace BinaryFormat

/-- The number of the format nearest to `num / den`; nothing when it is too large. -/
def round (format : BinaryFormat) (num den : Nat) : Option Magnitude :=
  if num = 0 then some ⟨0, format.minExponent⟩
  else
    let place := max (floorLog2 num den - (format.precision - 1)) format.minExponent
    let m := roundQuotient (num * Nat.pow 2 (-place).toNat) (den * Nat.pow 2 place.toNat)
    let (m, place) := if m = Nat.pow 2 format.precision then (m / 2, place + 1) else (m, place)
    if format.maxExponent < place then none else some ⟨m, place⟩

/-- The greatest power of ten that a format scales by in one step is `10 ^ 308`. -/
def powerOfTen (format : BinaryFormat) (k : Nat) : Magnitude :=
  (format.round (Nat.pow 10 k) 1).getD ⟨0, 0⟩

def mul (format : BinaryFormat) (a b : Magnitude) : Option Magnitude :=
  let (an, ad) := a.ratio
  let (bn, bd) := b.ratio
  format.round (an * bn) (ad * bd)

def div (format : BinaryFormat) (a b : Magnitude) : Option Magnitude :=
  let (an, ad) := a.ratio
  let (bn, bd) := b.ratio
  format.round (an * bd) (ad * bn)

end BinaryFormat

/-! ## Scaling by powers of ten -/

/-- Divides by `10 ^ k`, at most `10 ^ 308` at a time, rounding after every step. -/
def scaleDown (m : Magnitude) (k : Nat) : Option Magnitude :=
  if k ≤ 308 then double.div m (double.powerOfTen k)
  else if m.significand = 0 then some m
  else do scaleDown (← double.div m (double.powerOfTen 308)) (k - 308)
termination_by k

/-- The double for `digits · 10 ^ exponent`: the digits are rounded first and the
scaled product or quotient again.  Nothing when the result is too large. -/
def scaled (digits : Nat) (exponent : Int) : Option Magnitude := do
  let m ← double.round digits 1
  if exponent < 0 then scaleDown m (-exponent).toNat
  else if exponent ≤ 308 then double.mul m (double.powerOfTen exponent.toNat)
  else if digits = 0 then some m
  else none

end VisualScript.Numeric
