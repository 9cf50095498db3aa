import VisualScript.Text.Lowercase

/-!
# Member names

A name is acceptable when it is not empty, not too long, free of punctuation, not
reserved and not taken.  Names that differ only in case are the same name.
-/

namespace VisualScript

open Text

namespace Name

/-- The greatest number of characters of a name. -/
def maxLength : Nat := 100

/-- The length to which a name is cut so that a suffix still fits. -/
def maxBaseLength : Nat := maxLength - 8

def invalidCharacters : List Char :=
  ['"', '\'', ',', '/', '.', ':', '|', '&', '!', '~', '\n', '\r', '\t', '@', '#', '(', ')',
    '\x7b', '\x7d', '[', ']', '=', ';', '^', '%', '$', '\x60']

def isInvalid (c : Char) : Bool := c ∈ invalidCharacters

def reserved : List String := ["None", "self"]

/-- Puts an underscore in the place of every invalid character. -/
def cleanChars (s : List Char) : List Char := s.map fun c => if isInvalid c then '_' else c

/-- A name without invalid characters that leaves room for a suffix. -/
def sanitize (name : String) : String :=
  let clean := cleanChars name.toList
  let clean := if clean.isEmpty then "Var".toList else clean
  String.ofList (clean.take maxBaseLength)

end Name

inductive NameValidity
  | ok
  | empty
  | alreadyInUse
  | invalidCharacters
  | tooLong
  | reserved
  deriving DecidableEq, Inhabited

namespace NameValidity

def name : NameValidity → String
  | ok => "Ok"
  | empty => "Empty"
  | alreadyInUse => "AlreadyInUse"
  | invalidCharacters => "InvalidCharacters"
  | tooLong => "TooLong"
  | reserved => "Reserved"

end NameValidity

/-- The names that are taken, in lower case. -/
structure NameValidator where
  taken : List String := []
  deriving Inhabited

namespace NameValidator

def reserve (v : NameValidator) (name : String) : NameValidator :=
  { v with taken := v.taken.insert (lowercase name) }

def ofNames (names : List String) : NameValidator := names.foldl reserve {}

def isTaken (v : NameValidator) (name : String) : Bool := lowercase name ∈ v.taken

/-- The first fault of a name, if it has one. -/
def validate (v : NameValidator) (name : String) : NameValidity :=
  if name.isEmpty then .empty
  else if Name.maxLength < name.length then .tooLong
  else if name.toList.any Name.isInvalid then .invalidCharacters
  else if Name.reserved.any (eqIgnoreAsciiCase · name) then .reserved
  else if v.isTaken name then .alreadyInUse
  else .ok

/-- The first acceptable name among `base_k`, `base_(k+1)`, … within `fuel` tries. -/
def firstSuffixed (v : NameValidator) (base : String) (k : Nat) : Nat → String
  | 0 => base
  | fuel + 1 =>
    let candidate := base ++ "_" ++ toString k
    if v.validate candidate = .ok then candidate else v.firstSuffixed base (k + 1) fuel

/-- The cleaned name, with a number if it is not acceptable as it is.  Of one more
candidate than there are taken names at least one is free. -/
def makeUnique (v : NameValidator) (base : String) : String :=
  let base := Name.sanitize base
  if v.validate base = .ok then base else v.firstSuffixed base 1 (v.taken.length + 1)

end NameValidator

end VisualScript
