import VisualScript.Class.Value
import VisualScript.Error
import VisualScript.Flags
import VisualScript.Metadata

/-!
# Properties

A property is a named field of a class or of the frame of a function.  The type
gives its size and alignment; only types with storage make properties.
-/

namespace VisualScript

/-! ## Storage -/

structure Layout where
  size : Nat
  alignment : Nat
  deriving DecidableEq, Repr

namespace PinType

/-- The storage of a value of the type, if it has any. -/
def layout? (ty : PinType) : Option Layout :=
  if ty.isArray then some ⟨16, 8⟩
  else match ty.category with
    | .boolean | .byte => some ⟨1, 1⟩
    | .int | .float => some ⟨4, 4⟩
    | .name => some ⟨8, 4⟩
    | .string => some ⟨16, 8⟩
    | .text => some ⟨24, 8⟩
    | .struct => ty.subCategoryObject.map fun name =>
      if name = Value.vectorName then ⟨12, 4⟩
      else if name = Value.linearColorName then ⟨16, 4⟩
      else ⟨16, 8⟩
    | .object | .classRef => some ⟨8, 8⟩
    | .interface | .delegate | .multicastDelegate => some ⟨16, 8⟩
    | .exec | .wildcard => none

/-- Whether clearing the storage makes the zero value. -/
def isZeroConstructible (ty : PinType) : Bool :=
  !ty.isArray && match ty.category with
    | .boolean | .byte | .int | .float | .name | .object | .classRef | .interface | .delegate =>
      true
    | _ => false

theorem layout?_alignment_pos {ty : PinType} {l : Layout} (h : ty.layout? = some l) :
    0 < l.alignment := by
  unfold layout? at h
  split at h
  · obtain rfl := Option.some.inj h; decide
  · split at h
    all_goals try (simp only [Option.some.injEq] at h; subst h; decide)
    · obtain ⟨name, _, rfl⟩ := Option.map_eq_some_iff.1 h
      split
      · decide
      · split <;> decide
    all_goals cases h

end PinType

/-- The least multiple of the alignment that is not below the offset. -/
def alignUp (offset alignment : Nat) : Nat := (offset + alignment - 1) / alignment * alignment

theorem dvd_alignUp (offset alignment : Nat) : alignment ∣ alignUp offset alignment :=
  Nat.dvd_mul_left _ _

theorem le_alignUp (offset : Nat) {alignment : Nat} (h : 0 < alignment) :
    offset ≤ alignUp offset alignment := by
  have hdiv := Nat.div_add_mod (offset + alignment - 1) alignment
  have hmod := Nat.mod_lt (offset + alignment - 1) h
  rw [alignUp, Nat.mul_comm]
  omega

/-! ## Properties -/

structure Property where
  name : String
  ty : PinType
  flags : PropertyFlags
  category : String := ""
  repNotify : Option String := none
  metadata : Metadata := .empty
  offset : Nat := 0
  size : Nat := 0
  /-- The function that gives a delegate its signature. -/
  signatureFunction : Option String := none
  deriving DecidableEq, Inhabited

namespace Property

/-- A property of a type with storage. -/
def new (name : String) (ty : PinType) : Except CompileError Property :=
  match ty.layout? with
  | none => .error (.invalidType name ty.label)
  | some layout => .ok {
      name, ty
      flags := if ty.isZeroConstructible then PropertyFlags.zeroConstructor else .empty
      size := layout.size }

def isParameter (p : Property) : Bool := p.flags.contains PropertyFlags.parm

/-- The storage of the property; one without storage keeps the size that it has. -/
def layout (p : Property) : Layout := p.ty.layout?.getD ⟨p.size, 1⟩

def addFlags (p : Property) (flags : PropertyFlags) : Property := { p with flags := p.flags ||| flags }

/-- Places the property at the next aligned offset. -/
def place (p : Property) (offset : Nat) : Property :=
  { p with offset := alignUp offset p.layout.alignment, size := p.layout.size }

/-- The offset after the property. -/
def stop (p : Property) : Nat := p.offset + p.size

instance : JsonCodec Property where
  toJson p := .obj [
    ("name", toJson p.name),
    ("ty", toJson p.ty),
    ("flags", toJson p.flags),
    ("category", toJson p.category),
    ("rep_notify", toJson p.repNotify),
    ("metadata", toJson p.metadata),
    ("offset", toJson p.offset),
    ("size", toJson p.size),
    ("signature_function", toJson p.signatureFunction)]
  ofJson? j := do
    let m ← j.record? ["name", "ty", "flags", "category", "rep_notify", "metadata", "offset",
      "size", "signature_function"]
    return {
      name := ← Json.field m "name"
      ty := ← Json.field m "ty"
      flags := ← Json.field m "flags"
      category := ← Json.fieldOr m "category" ""
      repNotify := ← Json.optional m "rep_notify"
      metadata := ← Json.fieldOr m "metadata" .empty
      offset := ← Json.fieldOr m "offset" 0
      size := ← Json.fieldOr m "size" 0
      signatureFunction := ← Json.optional m "signature_function" }

end Property

/-! ## Laying out -/

/-- Places properties one after another from an offset on. -/
def placeAll (offset : Nat) : List Property → List Property
  | [] => []
  | p :: ps => p.place offset :: placeAll (p.place offset).stop ps

/-- The offset after the last property, or the first offset if there is none. -/
def layoutEnd (offset : Nat) (placed : List Property) : Nat :=
  (placed.getLast?.map (·.stop)).getD offset

@[simp]
theorem length_placeAll (offset : Nat) (ps : List Property) :
    (placeAll offset ps).length = ps.length := by
  induction ps generalizing offset with
  | nil => rfl
  | cons p ps ih => simp [placeAll, ih]

end VisualScript
