import VisualScript.Text.Hexadecimal
import VisualScript.Text.Hidden

/-!
# Quoted text

Listings show a string between double quotes, with a backslash before a quote
or a backslash, short escapes for the common controls, and the code point of
every other hidden character.
-/

namespace VisualScript.Text

/-- A character as it stands inside double quotes. -/
def quoteChar (c : Char) : List Char :=
  match c with
  | '"' => ['\\', '"']
  | '\\' => ['\\', '\\']
  | '\n' => ['\\', 'n']
  | '\r' => ['\\', 'r']
  | '\t' => ['\\', 't']
  | '\x00' => ['\\', '0']
  | c =>
    if 0x20 ≤ c.toNat && c.toNat < 0x7f then [c]
    else if hiddenRanges.contains c then ['\\', 'u', '\x7b'] ++ hexDigits c.toNat ++ ['\x7d']
    else [c]

def quote (s : String) : String :=
  String.ofList (['"'] ++ s.toList.flatMap quoteChar ++ ['"'])

@[simp]
theorem quote_empty : quote "" = "\"\"" := rfl

end VisualScript.Text
