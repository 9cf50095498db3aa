import VisualScript.Numeric.Rounding

/-!
# Single-precision numbers

A number is its bit pattern, so equality is equality of patterns: the two zeros
differ and a not-a-number equals itself.
-/

namespace VisualScript.Numeric

structure Binary32 where
  bits : UInt32
  deriving DecidableEq, Inhabited, Repr

namespace Binary32

def zero : Binary32 := ⟨0⟩

def infinity : Binary32 := ⟨0x7f800000⟩

def nan : Binary32 := ⟨0x7fc00000⟩

/-- The first bit of a normal significand, which is not stored. -/
def leadingBit : Nat := 0x800000

def isNegative (x : Binary32) : Bool := 0x80000000 ≤ x.bits.toNat

/-- The biased exponent. -/
def exponentField (x : Binary32) : Nat := x.bits.toNat / leadingBit % 0x100

def fraction (x : Binary32) : Nat := x.bits.toNat % leadingBit

def isFinite (x : Binary32) : Bool := x.exponentField ≠ 255

def isNaN (x : Binary32) : Bool := x.exponentField = 255 ∧ x.fraction ≠ 0

/-- The size of a finite number. -/
def magnitude (x : Binary32) : Magnitude :=
  if x.exponentField = 0 then ⟨x.fraction, -149⟩
  else ⟨leadingBit + x.fraction, x.exponentField - 150⟩

/-- Sets or clears the sign of a number whose sign is clear. -/
def signed (negative : Bool) (x : Binary32) : Binary32 :=
  if negative then ⟨x.bits ||| 0x80000000⟩ else x

/-- The pattern of a magnitude of the single format. -/
def ofMagnitude (m : Magnitude) : Binary32 :=
  if m.significand < leadingBit then ⟨UInt32.ofNat m.significand⟩
  else ⟨UInt32.ofNat ((m.exponent + 150).toNat * leadingBit + (m.significand - leadingBit))⟩

/-- The number nearest to `± num / den`; too large a one becomes infinite. -/
def ofRatio (negative : Bool) (num den : Nat) : Binary32 :=
  signed negative <| match single.round num den with
    | some m => ofMagnitude m
    | none => infinity

def ofInt (n : Int) : Binary32 := ofRatio (n < 0) n.natAbs 1

/-- Rounds a double of the given sign to single precision. -/
def ofDouble (negative : Bool) (m : Magnitude) : Binary32 :=
  ofRatio negative m.ratio.1 m.ratio.2

end Binary32

end VisualScript.Numeric
