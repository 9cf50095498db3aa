import VisualScript.Numeric.Decimal
import VisualScript.Text.Lowercase

/-!
# Numbers in default-value texts

A whole number is an optional sign and decimal digits.  A real number also
takes a point with digits on at least one side and an exponent, or is one of the
words `inf`, `infinity` and `nan` in any case.
-/

namespace VisualScript.Numeric

open Text

/-- The value of decimal digits, read after `acc`; nothing unless all are digits. -/
def digitsValue? (acc : Nat) : List Char → Option Nat
  | [] => some acc
  | c :: rest =>
    if c.isDigit then digitsValue? (10 * acc + (c.toNat - '0'.toNat)) rest else none

/-- At least one digit and nothing else. -/
def natural? : List Char → Option Nat
  | [] => none
  | ds => digitsValue? 0 ds

/-- Whether a text starts with a minus sign, and what follows the sign it starts with. -/
def takeSign : List Char → Bool × List Char
  | '-' :: rest => (true, rest)
  | '+' :: rest => (false, rest)
  | rest => (false, rest)

/-! ## Whole numbers -/

/-- A byte never takes a minus sign, not even before a zero. -/
def byte? (s : String) : Option UInt8 := do
  let digits := match s.toList with
    | '+' :: rest => rest
    | rest => rest
  let n ← natural? digits
  if n < UInt8.size then some (UInt8.ofNat n) else none

def int32? (s : String) : Option Int32 := do
  let (negative, digits) := takeSign s.toList
  let n ← natural? digits
  if negative then (if n ≤ 0x80000000 then some (Int32.ofInt (-n)) else none)
  else if n < 0x80000000 then some (Int32.ofNat n)
  else none

/-! ## Real numbers -/

/-- The digits at the front and the rest. -/
def spanDigits (s : List Char) : List Char × List Char := s.span Char.isDigit

/-- An exponent mark with its sign and digits, or nothing at all. -/
def exponent? : List Char → Option Int
  | [] => some 0
  | c :: rest =>
    if c = 'e' ∨ c = 'E' then
      let (negative, digits) := takeSign rest
      (natural? digits).map fun n => if negative then -(n : Int) else n
    else none

/-- Digits with an optional point and exponent, without a sign. -/
def unsignedDecimal? (s : List Char) : Option (Nat × Int) := do
  let (whole, rest) := spanDigits s
  let (fraction, rest) := match rest with
    | '.' :: rest => spanDigits rest
    | rest => ([], rest)
  let digits ← natural? (whole ++ fraction)
  let exponent ← exponent? rest
  some (digits, exponent - fraction.length)

/-- The single nearest to `± digits · 10 ^ exponent`.  Powers far outside the range of the
format are settled without computing them. -/
def Binary32.ofDecimal (negative : Bool) (digits : Nat) (exponent : Int) : Binary32 :=
  let leading : Int := (Nat.toDigits 10 digits).length + exponent
  if digits = 0 ∨ leading < -60 then .signed negative .zero
  else if 60 < leading then .signed negative .infinity
  else .ofRatio negative (digits * Nat.pow 10 exponent.toNat) (Nat.pow 10 (-exponent).toNat)

def binary32? (s : String) : Option Binary32 := do
  let (negative, rest) := takeSign s.toList
  let word := String.ofList (rest.map Char.toLower)
  if word = "inf" ∨ word = "infinity" then some (.signed negative .infinity)
  else if word = "nan" then some (.signed negative .nan)
  else
    let (digits, exponent) ← unsignedDecimal? rest
    some (.ofDecimal negative digits exponent)

end VisualScript.Numeric
