import VisualScript.Text.Blank

/-!
# Lines

A line ends at a line feed, which a carriage return may precede.
-/

namespace VisualScript.Text

/-- Drops one carriage return at the end. -/
def dropReturn (s : List Char) : List Char := if s.getLast? = some '\r' then s.dropLast else s

/-- The lines between line feeds; what follows the last one is a line only if it is not empty. -/
def lines (s : String) : List String :=
  let pieces := splitChars '\n' s.toList
  let rest := pieces.getLast?.getD []
  (pieces.dropLast.map dropReturn ++ if rest.isEmpty then [] else [rest]).map String.ofList

end VisualScript.Text
