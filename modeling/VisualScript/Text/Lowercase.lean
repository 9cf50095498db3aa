import VisualScript.Text.Letter

/-!
# Lower-casing

A capital sigma at the end of a word becomes `ς`, a dotted capital `İ` becomes
two characters, and every other character stands alone.
-/

namespace VisualScript.Text

/-- The small form of a character that has one of a single character, else itself. -/
def lowerChar (c : Char) : Char :=
  if c.toNat < 0x80 then c.toLower
  else match capitalRuns.find? (·.contains c.toNat) with
    | some run => Char.ofNat (c.toNat + run.shift).toNat
    | none => c

/-- Whether a cased character comes first once the case-ignorable ones are skipped. -/
def startsCased (s : List Char) : Bool :=
  match s.dropWhile caseIgnorableRanges.contains with
  | [] => false
  | c :: _ => casedRanges.contains c

/-- Lower-cases `rest`, which follows the characters `before` (nearest first). -/
def lowerAfter (before : List Char) : List Char → List Char
  | [] => []
  | c :: rest =>
    let small :=
      if c = 'Σ' then [if startsCased before && !startsCased rest then 'ς' else 'σ']
      else if c = 'İ' then ['i', '\u0307']
      else [lowerChar c]
    small ++ lowerAfter (c :: before) rest

def lowercase (s : String) : String := String.ofList (lowerAfter [] s.toList)

@[simp]
theorem lowercase_empty : lowercase "" = "" := rfl

/-! ## ASCII only -/

/-- Lower-cases the letters `A` to `Z` and no other. -/
def lowercaseAscii (s : String) : String := String.ofList (s.toList.map Char.toLower)

/-- Equality up to the case of the letters `A` to `Z`. -/
def eqIgnoreAsciiCase (s t : String) : Bool := lowercaseAscii s == lowercaseAscii t

end VisualScript.Text
