import VisualScript.Json.Basic
import VisualScript.Text.Quoted

/-!
# Writing documents

A document is written on one line or, for people, with two blanks of indentation
a level.  Empty arrays and objects stay on one line.  An illegible part is written
as null.
-/

namespace VisualScript.Json

open Numeric Text

/-- A character inside a string. -/
def escapeChar (c : Char) : List Char :=
  match c with
  | '"' => ['\\', '"']
  | '\\' => ['\\', '\\']
  | '\n' => ['\\', 'n']
  | '\r' => ['\\', 'r']
  | '\t' => ['\\', 't']
  | '\x08' => ['\\', 'b']
  | '\x0c' => ['\\', 'f']
  | c =>
    if c.toNat < 0x10 then ['\\', 'u', '0', '0', '0'] ++ hexDigits c.toNat
    else if c.toNat < 0x20 then ['\\', 'u', '0', '0'] ++ hexDigits c.toNat
    else [c]

def writeString (s : String) : String :=
  String.ofList ('"' :: s.toList.flatMap escapeChar ++ ['"'])

def Number.write : Number → String
  | .int n => toString n
  | .decimal d => d.document

/-! ## On one line -/

mutual

def compact : Json → String
  | .null => "null"
  | .bool b => if b then "true" else "false"
  | .num n => n.write
  | .str s => writeString s
  | .arr xs => "[" ++ ",".intercalate (compactItems xs) ++ "]"
  | .obj ms => "\x7b" ++ ",".intercalate (compactMembers ms) ++ "\x7d"
  | .illegible => "null"

def compactItems : List Json → List String
  | [] => []
  | x :: xs => compact x :: compactItems xs

def compactMembers : List (String × Json) → List String
  | [] => []
  | (k, x) :: ms => (writeString k ++ ":" ++ compact x) :: compactMembers ms

end

/-! ## Indented -/

/-- A line break and the indentation of a level. -/
def lineBreak (level : Nat) : String := String.ofList ('\n' :: List.replicate (2 * level) ' ')

/-- Lines between brackets, each at the level inside them. -/
def bracketed (left right : String) (level : Nat) : List String → String
  | [] => left ++ right
  | lines =>
    left ++ lineBreak (level + 1) ++ ("," ++ lineBreak (level + 1)).intercalate lines
      ++ lineBreak level ++ right

mutual

def indented (level : Nat) : Json → String
  | .arr xs => bracketed "[" "]" level (indentedItems (level + 1) xs)
  | .obj ms => bracketed "\x7b" "\x7d" level (indentedMembers (level + 1) ms)
  | .null => "null"
  | .bool b => if b then "true" else "false"
  | .num n => n.write
  | .str s => writeString s
  | .illegible => "null"

def indentedItems (level : Nat) : List Json → List String
  | [] => []
  | x :: xs => indented level x :: indentedItems level xs

def indentedMembers (level : Nat) : List (String × Json) → List String
  | [] => []
  | (k, x) :: ms => (writeString k ++ ": " ++ indented level x) :: indentedMembers level ms

end

def pretty (j : Json) : String := indented 0 j

end VisualScript.Json
