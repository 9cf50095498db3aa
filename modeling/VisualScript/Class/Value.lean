import VisualScript.Graph.PinType
import VisualScript.Numeric.Literal
import VisualScript.Text.Blank
import VisualScript.Text.Quoted

/-!
# Literal values

The values that properties hold by default and that scripts use as constants.
Every type of pin has a zero value, and texts of default values are read as
values of a type.
-/

namespace VisualScript

open Numeric Text

inductive Value
  | nothing
  | bool (b : Bool)
  | byte (n : UInt8)
  | int (n : Int32)
  | float (x : Binary32)
  | name (s : String)
  | string (s : String)
  | text (s : String)
  | vector (x y z : Binary32)
  | linearColor (r g b a : Binary32)
  | struct (s : String)
  | object (path : Option String)
  | array (items : List Value)
  deriving Inhabited

/-- The form of a value without what it holds. -/
inductive Shape
  | nothing
  | bool
  | byte
  | int
  | float
  | name
  | string
  | text
  | vector
  | linearColor
  | struct
  | object
  | array
  deriving DecidableEq, Inhabited

namespace Value

def shape : Value → Shape
  | nothing => .nothing
  | bool _ => .bool
  | byte _ => .byte
  | int _ => .int
  | float _ => .float
  | name _ => .name
  | string _ => .string
  | text _ => .text
  | vector _ _ _ => .vector
  | linearColor _ _ _ _ => .linearColor
  | struct _ => .struct
  | object _ => .object
  | array _ => .array

/-! ## Structs with components -/

def vectorName : String := "Vector"

def linearColorName : String := "LinearColor"

/-! ## Zero values -/

/-- The value of a property of the type before anything is stored in it. -/
def zero (ty : PinType) : Value :=
  if ty.isArray then array []
  else match ty.category with
    | .boolean => bool false
    | .byte => byte 0
    | .int => int 0
    | .float => float .zero
    | .name => name "None"
    | .string => string ""
    | .text => text ""
    | .struct =>
      if ty.subCategoryObject = some vectorName then vector .zero .zero .zero
      else if ty.subCategoryObject = some linearColorName then linearColor .zero .zero .zero .zero
      else struct ""
    | .object | .classRef | .interface | .delegate | .multicastDelegate => object none
    | .exec | .wildcard => nothing

/-! ## Reading texts -/

/-- What stands between round brackets, if the text has both. -/
def stripBrackets (s : List Char) : List Char :=
  match s with
  | '(' :: rest => if rest.getLast? = some ')' then rest.dropLast else s
  | _ => s

/-- One component, with or without its key. -/
def component? (key : String) (part : List Char) : Option Binary32 :=
  match splitOnce '=' part with
  | some (k, v) =>
    if eqIgnoreAsciiCase (trim (String.ofList k)) key then binary32? (trim (String.ofList v))
    else none
  | none => binary32? (String.ofList part)

/-- Reads `1,2,3` and `(X=1,Y=2,Z=3)`. -/
def components? (s : String) (keys : List String) : Option (List Binary32) :=
  let parts := (splitChars ',' (stripBrackets s.toList)).map trimChars
  if parts.length = keys.length then (keys.zip parts).mapM fun e => component? e.1 e.2 else none

/-- Reads the text of a default value; blanks around it do not count. -/
def parse? (ty : PinType) (s : String) : Option Value :=
  let s := trim s
  if ty.isArray then if s = "" ∨ s = "()" then some (array []) else none
  else match ty.category with
    | .boolean =>
      let word := lowercaseAscii s
      if word = "true" then some (bool true)
      else if word = "false" ∨ word = "" then some (bool false)
      else none
    | .byte => (byte? s).map byte
    | .int => (int32? s).map int
    | .float => (binary32? s).map float
    | .name => some (name s)
    | .string => some (string s)
    | .text => some (text s)
    | .struct =>
      if ty.subCategoryObject = some vectorName then
        match components? s ["X", "Y", "Z"] with
        | some [x, y, z] => some (vector x y z)
        | _ => none
      else if ty.subCategoryObject = some linearColorName then
        match components? s ["R", "G", "B", "A"] with
        | some [r, g, b, a] => some (linearColor r g b a)
        | _ => none
      else some (struct s)
    | .object | .classRef | .interface =>
      if s = "" ∨ s = "None" then some (object none) else some (object (some s))
    | .delegate | .multicastDelegate => if s = "" then some (object none) else none
    | .exec | .wildcard => none

/-! ## Listings -/

/-- A name before its contents in brackets. -/
def labelled (label contents : String) : String := label ++ "(" ++ contents ++ ")"

def listed (items : List String) : String := "[" ++ ", ".intercalate items ++ "]"

def listedNumbers (xs : List Binary32) : String := listed (xs.map (·.listing))

mutual

/-- A value as listings show it. -/
def listing : Value → String
  | nothing => "None"
  | bool b => labelled "Bool" (if b then "true" else "false")
  | byte n => labelled "Byte" (toString n.toNat)
  | int n => labelled "Int" (toString n.toInt)
  | float x => labelled "Float" x.listing
  | name s => labelled "Name" (quote s)
  | string s => labelled "String" (quote s)
  | text s => labelled "Text" (quote s)
  | vector x y z => labelled "Vector" (listedNumbers [x, y, z])
  | linearColor r g b a => labelled "LinearColor" (listedNumbers [r, g, b, a])
  | struct s => labelled "Struct" (quote s)
  | object none => labelled "Object" "None"
  | object (some path) => labelled "Object" (labelled "Some" (quote path))
  | array items => labelled "Array" (listed (listings items))

def listings : List Value → List String
  | [] => []
  | v :: vs => v.listing :: listings vs

end

/-! ## Documents -/

mutual

def document : Value → Json
  | nothing => .str "None"
  | bool b => .tagged "Bool" (toJson b)
  | byte n => .tagged "Byte" (toJson n)
  | int n => .tagged "Int" (toJson n)
  | float x => .tagged "Float" (toJson x)
  | name s => .tagged "Name" (toJson s)
  | string s => .tagged "String" (toJson s)
  | text s => .tagged "Text" (toJson s)
  | vector x y z => .tagged "Vector" (.arr [toJson x, toJson y, toJson z])
  | linearColor r g b a => .tagged "LinearColor" (.arr [toJson r, toJson g, toJson b, toJson a])
  | struct s => .tagged "Struct" (toJson s)
  | object path => .tagged "Object" (toJson path)
  | array items => .tagged "Array" (.arr (documents items))

def documents : List Value → List Json
  | [] => []
  | v :: vs => v.document :: documents vs

end

/-- Reads every value but an array from its name and payload. -/
def ofPayload? (tag : String) (j : Json) : Option Value :=
  match tag, j with
  | "None", .null => some nothing
  | "Bool", j => (ofJson? j).map bool
  | "Byte", j => (ofJson? j).map byte
  | "Int", j => (ofJson? j).map int
  | "Float", j => (ofJson? j).map float
  | "Name", j => (ofJson? j).map name
  | "String", j => (ofJson? j).map string
  | "Text", j => (ofJson? j).map text
  | "Vector", .arr [x, y, z] => do return vector (← ofJson? x) (← ofJson? y) (← ofJson? z)
  | "LinearColor", .arr [r, g, b, a] => do
    return linearColor (← ofJson? r) (← ofJson? g) (← ofJson? b) (← ofJson? a)
  | "Struct", j => (ofJson? j).map struct
  | "Object", j => (ofJson? j).map object
  | _, _ => none

mutual

def ofDocument? : Json → Option Value
  | .str tag => if tag = "None" then some nothing else none
  | .obj [(tag, payload)] =>
    if tag = "Array" then (itemsOfDocument? payload).map array else ofPayload? tag payload
  | _ => none

def itemsOfDocument? : Json → Option (List Value)
  | .arr items => ofDocuments? items
  | _ => none

def ofDocuments? : List Json → Option (List Value)
  | [] => some []
  | j :: js => do return (← ofDocument? j) :: (← ofDocuments? js)

end

instance : JsonCodec Value := ⟨document, ofDocument?⟩

end Value

end VisualScript
