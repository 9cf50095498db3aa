import VisualScript.Numeric.Decimal

/-!
# Documents

A document is a tree of objects, arrays and scalars.  Objects keep their members
in written order and keep repeated names, which a reader may have to refuse.

A part of a text can have the form of a document and still stand for no value.
Such a part is illegible: it does no harm where nothing looks at it.
-/

namespace VisualScript

open Numeric

namespace Json

/-- A number is an integer of 64 bits or a decimal. -/
inductive Number
  | int (n : Int)
  | decimal (d : Decimal)
  deriving DecidableEq, Repr

end Json

inductive Json
  | null
  | bool (b : Bool)
  | num (n : Json.Number)
  | str (s : String)
  | arr (items : List Json)
  | obj (members : List (String × Json))
  /-- A part of a text that stands for no value. -/
  | illegible
  deriving Inhabited

namespace Json

def nat (n : Nat) : Json := .num (.int n)

def int (n : Int) : Json := .num (.int n)

/-- The value of the first member of that name. -/
def get? (key : String) : Json → Option Json
  | .obj members => members.lookup key
  | _ => none

@[simp]
theorem get?_obj (key : String) (members : List (String × Json)) :
    (obj members).get? key = members.lookup key := rfl

/-! ## Legible documents -/

mutual

/-- Whether every part stands for a value. -/
def isLegible : Json → Bool
  | .arr xs => areLegible xs
  | .obj ms => membersLegible ms
  | .illegible => false
  | _ => true

def areLegible : List Json → Bool
  | [] => true
  | x :: xs => isLegible x && areLegible xs

def membersLegible : List (String × Json) → Bool
  | [] => true
  | (_, x) :: ms => isLegible x && membersLegible ms

end

end Json

end VisualScript
