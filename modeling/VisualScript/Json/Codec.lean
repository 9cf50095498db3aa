import VisualScript.Json.Basic

/-!
# Values as documents

A type with a codec has a document for every value and reads some documents
back.  A record is an object in which unknown names are ignored, a known name
stands at most once, and an optional field may be missing or null.  A variant is
a string when it carries nothing, else an object with one member.
-/

namespace VisualScript

class JsonCodec (α : Type) where
  toJson : α → Json
  ofJson? : Json → Option α

export JsonCodec (toJson ofJson?)

namespace Json

/-! ## Scalars -/

def string? : Json → Option String
  | .str s => some s
  | _ => none

def bool? : Json → Option Bool
  | .bool b => some b
  | _ => none

def integer? : Json → Option Int
  | .num (.int n) => some n
  | _ => none

/-- A whole number below `2 ^ bits`. -/
def natural? (bits : Nat) (j : Json) : Option Nat := do
  let n ← j.integer?
  if 0 ≤ n ∧ n < Nat.pow 2 bits then some n.toNat else none

/-- A whole number that fits `bits` bits with its sign. -/
def signed? (bits : Nat) (j : Json) : Option Int := do
  let n ← j.integer?
  let bound : Int := Nat.pow 2 (bits - 1)
  if -bound ≤ n ∧ n < bound then some n else none

def array? : Json → Option (List Json)
  | .arr items => some items
  | _ => none

def object? : Json → Option (List (String × Json))
  | .obj members => some members
  | _ => none

end Json

instance : JsonCodec String := ⟨.str, Json.string?⟩

instance : JsonCodec Bool := ⟨.bool, Json.bool?⟩

/-- Sizes and indices have 64 bits. -/
instance : JsonCodec Nat := ⟨Json.nat, Json.natural? 64⟩

instance : JsonCodec UInt8 := ⟨fun n => .nat n.toNat, fun j => (j.natural? 8).map UInt8.ofNat⟩

instance : JsonCodec Int32 := ⟨fun n => .int n.toInt, fun j => (j.signed? 32).map Int32.ofInt⟩

/-- A number that is not finite is written as null, which does not read back. -/
instance : JsonCodec Numeric.Binary32 where
  toJson x := if x.isFinite then .num (.decimal (x.toDecimal .even)) else .null
  ofJson?
    | .num (.int n) => some (.ofInt n)
    | .num (.decimal d) => d.toBinary32
    | _ => none

/-! ## Containers -/

instance {α : Type} [JsonCodec α] : JsonCodec (List α) where
  toJson xs := .arr (xs.map toJson)
  ofJson?
    | .arr items => items.mapM ofJson?
    | _ => none

instance {α : Type} [JsonCodec α] : JsonCodec (Option α) where
  toJson
    | none => .null
    | some a => toJson a
  ofJson?
    | .null => some none
    | j => (ofJson? j).map some

instance {α β : Type} [JsonCodec α] [JsonCodec β] : JsonCodec (α × β) where
  toJson p := .arr [toJson p.1, toJson p.2]
  ofJson?
    | .arr [a, b] => do return (← ofJson? a, ← ofJson? b)
    | _ => none

namespace Json

/-! ## Records -/

/-- The members of an object in which none of the known names is repeated. -/
def record? (known : List String) : Json → Option (List (String × Json))
  | .obj members =>
    if known.all fun key => members.countP (·.1 == key) ≤ 1 then some members else none
  | _ => none

/-- A field that must be there. -/
def field {α : Type} [JsonCodec α] (members : List (String × Json)) (key : String) : Option α := do
  ofJson? (← members.lookup key)

/-- A field that may be missing. -/
def fieldOr {α : Type} [JsonCodec α] (members : List (String × Json)) (key : String) (default : α) :
    Option α :=
  match members.lookup key with
  | none => some default
  | some j => ofJson? j

/-- A field that may be missing or null. -/
def optional {α : Type} [JsonCodec α] (members : List (String × Json)) (key : String) :
    Option (Option α) :=
  fieldOr members key none

/-! ## Variants -/

/-- The name of a variant and what it carries, if anything is written. -/
def variant? : Json → Option (String × Option Json)
  | .str tag => some (tag, none)
  | .obj [(tag, payload)] => some (tag, some payload)
  | _ => none

/-- The name of a variant that carries nothing; a null may stand for the nothing. -/
def bareVariant? (j : Json) : Option String :=
  match j.variant? with
  | some (tag, none) => some tag
  | some (tag, some .null) => some tag
  | _ => none

/-- A variant that carries a payload. -/
def tagged (tag : String) (payload : Json) : Json := .obj [(tag, payload)]

/-- The member of an enumeration with that name. -/
def named? {α : Type} (all : List α) (name : α → String) (j : Json) : Option α := do
  let tag ← j.bareVariant?
  all.find? (name · == tag)

end Json

end VisualScript
