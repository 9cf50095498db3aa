import VisualScript.Numeric.Binary32

/-!
# Decimal numbers

A decimal is a sign, digits and a power of ten.  The shortest decimal of a
single-precision number is the one with the fewest digits that still rounds to
it, and of those the nearest.
-/

namespace VisualScript.Numeric

/-- The number `± digits · 10 ^ exponent`. -/
structure Decimal where
  negative : Bool
  digits : Nat
  exponent : Int
  deriving DecidableEq, Inhabited, Repr

/-- Which of two equally near decimals is taken. -/
inductive Tie
  | up
  | even
  deriving DecidableEq

/-! ## Shortest digits -/

/-- The exponent of the leading decimal digit of `num / den`, sought over `fuel` places
below the point. -/
def leadingPlace (num den : Nat) : Nat → Int
  | 0 => 0
  | fuel + 1 =>
    if den ≤ num then ((Nat.toDigits 10 (num / den)).length : Int) - 1
    else leadingPlace (num * 10) den fuel - 1

/-- The reals that round to a magnitude of the single format, in quarters of its last place. -/
structure RoundingInterval where
  low : Nat
  middle : Nat
  high : Nat
  /-- The exponent of a quarter. -/
  exponent : Int
  /-- Whether the ends round to the magnitude too. -/
  closed : Bool

namespace RoundingInterval

def ofMagnitude (m : Magnitude) : RoundingInterval where
  low := 4 * m.significand - (if m.significand = Binary32.leadingBit ∧ m.exponent ≠ -149 then 1 else 2)
  middle := 4 * m.significand
  high := 4 * m.significand + 2
  exponent := m.exponent - 2
  closed := m.significand % 2 == 0

/-- The factors that bring `d · 10 ^ place` and a number of quarters to one unit. -/
def factors (i : RoundingInterval) (place : Int) : Nat × Nat :=
  (Nat.pow 10 place.toNat * Nat.pow 2 (-i.exponent).toNat,
    Nat.pow 10 (-place).toNat * Nat.pow 2 i.exponent.toNat)

def contains (i : RoundingInterval) (place : Int) (d : Nat) : Bool :=
  let (f, g) := i.factors place
  if i.closed then i.low * g ≤ d * f && d * f ≤ i.high * g
  else i.low * g < d * f && d * f < i.high * g

/-- The nearest multiple of `10 ^ place` inside, if the two around the middle hold one. -/
def nearestAt (tie : Tie) (i : RoundingInterval) (place : Int) : Option Nat :=
  let (f, g) := i.factors place
  let d := i.middle * g / f
  let below := i.middle * g - d * f
  let above := (d + 1) * f - i.middle * g
  match i.contains place d, i.contains place (d + 1) with
  | true, true =>
    if below < above then some d
    else if above < below then some (d + 1)
    else match tie with
      | .up => some (d + 1)
      | .even => some (d + d % 2)
  | true, false => some d
  | false, true => some (d + 1)
  | false, false => none

end RoundingInterval

/-- Tries `fuel` grids, from the one at `place` to finer ones. -/
def firstGrid (tie : Tie) (i : RoundingInterval) (place : Int) : Nat → Nat × Int
  | 0 => (i.middle, 0)
  | fuel + 1 => match i.nearestAt tie place with
    | some d => (d, place)
    | none => firstGrid tie i (place - 1) fuel

/-- The digits and exponent of the shortest decimal; nine digits always suffice.  The first
grid holds the power of ten above the number, which may be the nearest short one. -/
def shortestDigits (tie : Tie) (m : Magnitude) : Nat × Int :=
  if m.significand = 0 then (0, 0)
  else
    let (num, den) := m.ratio
    firstGrid tie (.ofMagnitude m) (leadingPlace num den 64 + 1) 17

namespace Binary32

/-- The shortest decimal of a finite number. -/
def toDecimal (tie : Tie) (x : Binary32) : Decimal :=
  let (digits, exponent) := shortestDigits tie x.magnitude
  ⟨x.isNegative, digits, exponent⟩

end Binary32

/-! ## Layouts -/

/-- A run of zeros. -/
def zeros (n : Nat) : List Char := List.replicate n '0'

namespace Decimal

/-- The digits with a point that has a digit on each side; a zero takes no power of ten. -/
def positional (d : Decimal) : List Char :=
  let ds := Nat.toDigits 10 d.digits
  let point : Int := ds.length + d.exponent
  if d.digits = 0 then ['0', '.', '0']
  else if 0 ≤ d.exponent then ds ++ zeros d.exponent.toNat ++ ['.', '0']
  else if 0 < point then ds.take point.toNat ++ '.' :: ds.drop point.toNat
  else ['0', '.'] ++ zeros (-point).toNat ++ ds

/-- One digit and the others after a point. -/
def mantissa (d : Decimal) : List Char :=
  match Nat.toDigits 10 d.digits with
  | first :: second :: rest => first :: '.' :: second :: rest
  | ds => ds

def withSign (d : Decimal) (digits : List Char) : String :=
  String.ofList (if d.negative then '-' :: digits else digits)

/-- The power of ten of the first digit. -/
def leading (d : Decimal) : Int := (Nat.toDigits 10 d.digits).length + d.exponent - 1

/-- The text of the power of ten of the first digit; `plus` stands before one that is not
negative. -/
def exponentText (plus : List Char) (d : Decimal) : List Char :=
  if d.leading < 0 then '-' :: Nat.toDigits 10 d.leading.natAbs
  else plus ++ Nat.toDigits 10 d.leading.natAbs

/-- The mantissa and the power of ten of its first digit. -/
def scientific (plus : List Char) (d : Decimal) : List Char :=
  d.mantissa ++ 'e' :: d.exponentText plus

/-- Listings write the numbers from `1e-4` up to, but without, `1e16` positionally, and larger
ones with a bare exponent. -/
def listing (d : Decimal) : String :=
  d.withSign <|
    if d.digits = 0 ∨ (-4 ≤ d.leading ∧ d.leading < 16) then d.positional else d.scientific []

/-- Documents write the numbers from `1e-6` up to, but without, `1e13` positionally, and larger
ones with a signed exponent. -/
def document (d : Decimal) : String :=
  d.withSign <|
    if d.digits = 0 ∨ (-6 ≤ d.leading ∧ d.leading < 13) then d.positional else d.scientific ['+']

/-- The single nearest to a decimal read through a double; nothing when the double overflows. -/
def toBinary32 (d : Decimal) : Option Binary32 :=
  (scaled d.digits d.exponent).map (.ofDouble d.negative)

end Decimal

namespace Binary32

/-- A number as listings write it. -/
def listing (x : Binary32) : String :=
  if x.isFinite then (x.toDecimal .up).listing
  else if x.isNaN then "NaN"
  else if x.isNegative then "-inf"
  else "inf"

end Binary32

end VisualScript.Numeric
