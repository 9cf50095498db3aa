import VisualScript.Json.Basic
import VisualScript.Text.Hexadecimal

/-!
# Reading documents

A reader takes the characters that are left and returns a value with what
follows it.  Arrays and objects that nest more than `maxDepth` deep, strings with
half a surrogate pair and objects with such a name are illegible.

Of the digits of a number only as many count as fit 64 bits: later whole digits
raise the power of ten and later digits of the fraction are dropped.
-/

namespace VisualScript.Json

open Numeric Text

def maxDepth : Nat := 127

def isSpace (c : Char) : Bool := c = ' ' || c = '\n' || c = '\t' || c = '\r'

def skipSpace (s : List Char) : List Char := s.dropWhile isSpace

/-! ## Numbers -/

def digitValue (c : Char) : Nat := c.toNat - '0'.toNat

/-- Reads whole digits: the digits kept, the number of digits dropped, and the rest. -/
def wholeDigits (kept dropped : Nat) : List Char → Nat × Nat × List Char
  | [] => (kept, dropped, [])
  | c :: rest =>
    if c.isDigit then
      if dropped = 0 ∧ kept * 10 + digitValue c < UInt64.size then
        wholeDigits (kept * 10 + digitValue c) 0 rest
      else wholeDigits kept (dropped + 1) rest
    else (kept, dropped, c :: rest)

/-- Reads the digits of a fraction: all digits kept, how many of them stand after the
point, and the rest. -/
def fractionDigits (kept places : Nat) : List Char → Nat × Nat × List Char
  | [] => (kept, places, [])
  | c :: rest =>
    if c.isDigit then
      if kept * 10 + digitValue c < UInt64.size then
        fractionDigits (kept * 10 + digitValue c) (places + 1) rest
      else (kept, places, rest.dropWhile Char.isDigit)
    else (kept, places, c :: rest)

/-- The digits of an exponent, of which there is at least one. -/
def exponentDigits (s : List Char) : Option (Nat × List Char) :=
  match s.span Char.isDigit with
  | ([], _) => none
  | (ds, rest) => some (ds.foldl (fun n c => 10 * n + digitValue c) 0, rest)

/-- An optional exponent after a fraction or whole number. -/
def exponentPart : List Char → Option (Option Int × List Char)
  | c :: rest =>
    if c = 'e' ∨ c = 'E' then
      match rest with
      | '-' :: rest => (exponentDigits rest).map fun (n, rest) => (some (-(n : Int)), rest)
      | '+' :: rest => (exponentDigits rest).map fun (n, rest) => (some n, rest)
      | rest => (exponentDigits rest).map fun (n, rest) => (some n, rest)
    else some (none, c :: rest)
  | [] => some (none, [])

/-- A whole number keeps its exact value when it fits 64 bits with its sign; a negative zero
does not. -/
def wholeNumber (negative : Bool) (kept dropped : Nat) : Number :=
  if dropped ≠ 0 then .decimal ⟨negative, kept, dropped⟩
  else if ¬negative then .int kept
  else if kept = 0 ∨ UInt64.size / 2 < kept then .decimal ⟨true, kept, 0⟩
  else .int (-kept)

/-- A number after its sign. -/
def unsignedNumber (negative : Bool) (s : List Char) : Option (Number × List Char) := do
  let (kept, dropped, rest) ← match s with
    | '0' :: c :: rest => if c.isDigit then none else some (0, 0, c :: rest)
    | ['0'] => some (0, 0, [])
    | c :: rest => if c.isDigit then some (wholeDigits 0 0 (c :: rest)) else none
    | [] => none
  match rest with
  | '.' :: c :: rest =>
    if c.isDigit then
      let (kept, places, rest) := fractionDigits kept 0 (c :: rest)
      let (exponent, rest) ← exponentPart rest
      some (.decimal ⟨negative, kept, dropped - places + exponent.getD 0⟩, rest)
    else none
  | ['.'] => none
  | rest =>
    let (exponent, rest) ← exponentPart rest
    match exponent with
    | some e => some (.decimal ⟨negative, kept, dropped + e⟩, rest)
    | none => some (wholeNumber negative kept dropped, rest)

def number : List Char → Option (Number × List Char)
  | '-' :: rest => unsignedNumber true rest
  | rest => unsignedNumber false rest

/-! ## Strings -/

def hex4? (a b c d : Char) : Option Nat := hexNumber? [a, b, c, d]

/-- The character of a two-character escape. -/
def shortEscape? : Char → Option Char
  | '"' => some '"'
  | '\\' => some '\\'
  | '/' => some '/'
  | 'b' => some '\x08'
  | 'f' => some '\x0c'
  | 'n' => some '\n'
  | 'r' => some '\r'
  | 't' => some '\t'
  | _ => none

/-- What a string is written in: characters, plain or after a backslash, and numbered units. -/
inductive Piece
  | char (c : Char)
  | unit (n : Nat)
  deriving DecidableEq, Repr

/-- The pieces of a string after its opening quote; `acc` holds those read, last first. -/
def pieces (acc : List Piece) : List Char → Option (List Piece × List Char)
  | [] => none
  | '"' :: rest => some (acc.reverse, rest)
  | '\\' :: 'u' :: a :: b :: c :: d :: rest => do
    let n ← hex4? a b c d
    pieces (.unit n :: acc) rest
  | '\\' :: c :: rest => do
    let c ← shortEscape? c
    pieces (.char c :: acc) rest
  | c :: rest => if c.toNat < 0x20 ∨ c = '\\' then none else pieces (.char c :: acc) rest

def isHighSurrogate (n : Nat) : Bool := 0xd800 ≤ n && n < 0xdc00

def isLowSurrogate (n : Nat) : Bool := 0xdc00 ≤ n && n < 0xe000

/-- The characters that the pieces stand for, after those in `acc`, last first.  A high surrogate
needs a low one after it. -/
def joinPieces (acc : List Char) : List Piece → Option (List Char)
  | [] => some acc.reverse
  | .char c :: rest => joinPieces (c :: acc) rest
  | .unit high :: .unit low :: rest =>
    if isHighSurrogate high then
      if isLowSurrogate low then
        joinPieces (Char.ofNat (0x10000 + (high - 0xd800) * 0x400 + (low - 0xdc00)) :: acc) rest
      else none
    else if isLowSurrogate high then none
    else joinPieces (Char.ofNat high :: acc) (.unit low :: rest)
  | .unit n :: rest =>
    if isHighSurrogate n || isLowSurrogate n then none else joinPieces (Char.ofNat n :: acc) rest

/-- A string after its opening quote: its text, if it stands for one, and the rest. -/
def quoted (s : List Char) : Option (Option String × List Char) :=
  (pieces [] s).map fun (ps, rest) => ((joinPieces [] ps).map String.ofList, rest)

/-! ## Values -/

/-- A value at a depth, where `depth` is how many levels are left for it and what it holds. -/
def within (depth : Nat) (j : Json) : Json := if depth = 0 then .illegible else j

/-- An object if all its names are texts. -/
def object (members : Option (List (String × Json))) : Json := members.elim .illegible .obj

mutual

/-- A value; `depth` is the number of levels left and `fuel` bounds the number of steps. -/
def value (fuel depth : Nat) (s : List Char) : Option (Json × List Char) :=
  match fuel with
  | 0 => none
  | fuel + 1 => match skipSpace s with
    | 'n' :: 'u' :: 'l' :: 'l' :: rest => some (.null, rest)
    | 't' :: 'r' :: 'u' :: 'e' :: rest => some (.bool true, rest)
    | 'f' :: 'a' :: 'l' :: 's' :: 'e' :: rest => some (.bool false, rest)
    | '"' :: rest => (quoted rest).map fun (s, rest) => (s.elim .illegible .str, rest)
    | '[' :: rest => match skipSpace rest with
      | ']' :: rest => some (within depth (.arr []), rest)
      | rest => (items fuel (depth - 1) rest).map fun (xs, rest) => (within depth (.arr xs), rest)
    | '\x7b' :: rest => match skipSpace rest with
      | '\x7d' :: rest => some (within depth (.obj []), rest)
      | rest =>
        (members fuel (depth - 1) rest).map fun (ms, rest) => (within depth (object ms), rest)
    | rest => (number rest).map fun (n, rest) => (.num n, rest)

/-- One or more items up to the closing bracket. -/
def items (fuel depth : Nat) (s : List Char) : Option (List Json × List Char) :=
  match fuel with
  | 0 => none
  | fuel + 1 => do
    let (x, rest) ← value fuel depth s
    match skipSpace rest with
    | ',' :: rest => (items fuel depth rest).map fun (xs, rest) => (x :: xs, rest)
    | ']' :: rest => some ([x], rest)
    | _ => none

/-- One or more members up to the closing brace, or nothing where a name is illegible. -/
def members (fuel depth : Nat) (s : List Char) :
    Option (Option (List (String × Json)) × List Char) :=
  match fuel with
  | 0 => none
  | fuel + 1 => match skipSpace s with
    | '"' :: rest => do
      let (key, rest) ← quoted rest
      match skipSpace rest with
      | ':' :: rest =>
        let (x, rest) ← value fuel depth rest
        match skipSpace rest with
        | ',' :: rest =>
          let (ms, rest) ← members fuel depth rest
          some (do return (← key, x) :: (← ms), rest)
        | '\x7d' :: rest => some (key.map fun key => [(key, x)], rest)
        | _ => none
      | _ => none
    | _ => none

end

/-- The document that the whole text is.  Two steps a character are enough. -/
def skim? (text : String) : Option Json := do
  let s := text.toList
  let (v, rest) ← value (2 * s.length + 2) maxDepth s
  if (skipSpace rest).isEmpty then some v else none

/-- The document that the whole text is, if all of it is legible. -/
def parse? (text : String) : Option Json := (skim? text).filter isLegible

end VisualScript.Json
