import VisualScript.Json.Codec

/-!
# Types of pins

The type of a pin is a category refined by a sub-category or the name of a
struct or class, and says whether the pin carries an array, a reference or a
constant.
-/

namespace VisualScript

inductive Direction
  | input
  | output
  deriving DecidableEq, Inhabited, Repr

namespace Direction

def opposite : Direction → Direction
  | input => output
  | output => input

@[simp]
theorem opposite_opposite (d : Direction) : d.opposite.opposite = d := by cases d <;> rfl

def all : List Direction := [input, output]

def name : Direction → String
  | input => "Input"
  | output => "Output"

instance : JsonCodec Direction := ⟨fun d => .str d.name, Json.named? all name⟩

end Direction

inductive PinCategory
  | exec
  | boolean
  | byte
  | int
  | float
  | name
  | string
  | text
  | struct
  | object
  | classRef
  | interface
  | delegate
  | multicastDelegate
  | wildcard
  deriving DecidableEq, Inhabited, Repr

namespace PinCategory

def all : List PinCategory :=
  [exec, boolean, byte, int, float, name, string, text, struct, object, classRef, interface,
    delegate, multicastDelegate, wildcard]

/-- The name in documents. -/
def tag : PinCategory → String
  | exec => "Exec"
  | boolean => "Boolean"
  | byte => "Byte"
  | int => "Int"
  | float => "Float"
  | name => "Name"
  | string => "String"
  | text => "Text"
  | struct => "Struct"
  | object => "Object"
  | classRef => "Class"
  | interface => "Interface"
  | delegate => "Delegate"
  | multicastDelegate => "MulticastDelegate"
  | wildcard => "Wildcard"

/-- The name in messages. -/
def label : PinCategory → String
  | exec => "exec"
  | boolean => "bool"
  | byte => "byte"
  | int => "int"
  | float => "float"
  | name => "name"
  | string => "string"
  | text => "text"
  | struct => "struct"
  | object => "object"
  | classRef => "class"
  | interface => "interface"
  | delegate => "delegate"
  | multicastDelegate => "mcdelegate"
  | wildcard => "wildcard"

/-- Categories whose values refer to objects. -/
def isObjectLike : PinCategory → Bool
  | object | classRef | interface => true
  | _ => false

instance : JsonCodec PinCategory := ⟨fun c => .str c.tag, Json.named? all tag⟩

end PinCategory

structure PinType where
  category : PinCategory
  subCategory : String := ""
  subCategoryObject : Option String := none
  isArray : Bool := false
  isReference : Bool := false
  isConst : Bool := false
  deriving DecidableEq, Inhabited, Repr

namespace PinType

/-! ## Common types -/

/-- The sub-category of references to an object of the class being compiled. -/
def selfSubCategory : String := "self"

def exec : PinType := ⟨.exec, "", none, false, false, false⟩
def boolean : PinType := { exec with category := .boolean }
def byte : PinType := { exec with category := .byte }
def int : PinType := { exec with category := .int }
def float : PinType := { exec with category := .float }
def name : PinType := { exec with category := .name }
def string : PinType := { exec with category := .string }
def wildcard : PinType := { exec with category := .wildcard }
def multicastDelegate : PinType := { exec with category := .multicastDelegate }

def struct (name : String) : PinType :=
  { exec with category := .struct, subCategoryObject := some name }

def object (className : String) : PinType :=
  { exec with category := .object, subCategoryObject := some className }

def selfObject : PinType := { exec with category := .object, subCategory := selfSubCategory }

def arrayOf (t : PinType) : PinType := { t with isArray := true }

def byRef (t : PinType) : PinType := { t with isReference := true }

/-! ## Properties -/

def isExec (t : PinType) : Bool := t.category = .exec

def isWildcard (t : PinType) : Bool := t.category = .wildcard

def isSelf (t : PinType) : Bool := t.category = .object && t.subCategory == selfSubCategory

/-- The type of the elements of an array. -/
def element (t : PinType) : PinType := { t with isArray := false, isReference := false }

/-- Takes the category of `resolved` and stays an array, a reference or a constant as before. -/
def resolveWildcard (t resolved : PinType) : PinType :=
  { t with
    category := resolved.category
    subCategory := resolved.subCategory
    subCategoryObject := resolved.subCategoryObject }

/-- A type as messages show it. -/
def label (t : PinType) : String :=
  (if t.isArray then "array of " else "") ++ t.category.label
    ++ match t.subCategoryObject, t.subCategory with
      | some object, _ => " (" ++ object ++ ")"
      | none, "" => ""
      | none, sub => " (" ++ sub ++ ")"

instance : JsonCodec PinType where
  toJson t := .obj [
    ("category", toJson t.category),
    ("sub_category", toJson t.subCategory),
    ("sub_category_object", toJson t.subCategoryObject),
    ("is_array", toJson t.isArray),
    ("is_reference", toJson t.isReference),
    ("is_const", toJson t.isConst)]
  ofJson? j := do
    let m ← j.record? ["category", "sub_category", "sub_category_object", "is_array",
      "is_reference", "is_const"]
    return {
      category := ← Json.field m "category"
      subCategory := ← Json.fieldOr m "sub_category" ""
      subCategoryObject := ← Json.optional m "sub_category_object"
      isArray := ← Json.fieldOr m "is_array" false
      isReference := ← Json.fieldOr m "is_reference" false
      isConst := ← Json.fieldOr m "is_const" false }

end PinType

/-- A pin that a node of some kind starts with, or that a signature lists. -/
structure PinDescription where
  name : String
  ty : PinType
  defaultValue : String := ""
  deriving DecidableEq, Inhabited, Repr

instance : JsonCodec PinDescription where
  toJson d := .obj [
    ("name", toJson d.name), ("ty", toJson d.ty), ("default_value", toJson d.defaultValue)]
  ofJson? j := do
    let m ← j.record? ["name", "ty", "default_value"]
    return {
      name := ← Json.field m "name"
      ty := ← Json.field m "ty"
      defaultValue := ← Json.fieldOr m "default_value" "" }

end VisualScript
