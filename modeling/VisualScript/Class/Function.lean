import VisualScript.Class.Property
import VisualScript.Script

/-!
# Functions

A function has a frame of properties, parameters first and then locals, and a
script.  Linking a function places the frame and settles what follows from it.
-/

namespace VisualScript

structure Function where
  name : String
  flags : FunctionFlags
  /-- The overridden function, after the name of its class. -/
  superFunction : Option String := none
  properties : List Property := []
  numParms : Nat := 0
  parmsSize : Nat := 0
  returnValueOffset : Option Nat := none
  frameSize : Nat := 0
  metadata : Metadata := .empty
  script : Script := []
  deriving Inhabited

/-- A parameter as overrides compare it. -/
structure SignatureItem where
  name : String
  ty : PinType
  flags : PropertyFlags
  deriving DecidableEq

namespace Function

def new (name : String) (flags : FunctionFlags) : Function := { name, flags }

def parameters (f : Function) : List Property := f.properties.filter (·.isParameter)

def findProperty? (f : Function) (name : String) : Option Property :=
  f.properties.find? (·.name == name)

/-- Adds a property at the end of the frame. -/
def addProperty (f : Function) (p : Property) : Except CompileError Function :=
  if (f.findProperty? p.name).isSome then .error (.duplicateField p.name f.name)
  else .ok { f with properties := f.properties ++ [p] }

/-- Whether the function gives something back to its caller. -/
def hasOutputs (f : Function) : Bool :=
  f.parameters.any fun p => p.flags.intersects (PropertyFlags.outParm ||| PropertyFlags.returnParm)

/-- Places the frame and counts and measures the parameters. -/
def link (f : Function) : Function :=
  let properties := placeAll 0 f.properties
  let params := properties.filter (·.isParameter)
  let returned := params.filter fun p => p.flags.contains PropertyFlags.returnParm
  { f with
    properties
    numParms := params.length
    parmsSize := layoutEnd 0 params
    returnValueOffset := returned.getLast?.map (·.offset)
    frameSize := layoutEnd 0 properties
    flags := f.flags.setTo FunctionFlags.hasOutParms
      (params.any fun p => p.flags.contains PropertyFlags.outParm) }

/-- The flags of a parameter that belong to the signature. -/
def signatureFlags : PropertyFlags :=
  .union [PropertyFlags.parm, PropertyFlags.outParm, PropertyFlags.returnParm,
    PropertyFlags.referenceParm]

def signature (f : Function) : List SignatureItem :=
  f.parameters.map fun p => ⟨p.name, p.ty, p.flags &&& signatureFlags⟩

instance : JsonCodec Function where
  toJson f := .obj [
    ("name", toJson f.name),
    ("flags", toJson f.flags),
    ("super_function", toJson f.superFunction),
    ("properties", toJson f.properties),
    ("num_parms", toJson f.numParms),
    ("parms_size", toJson f.parmsSize),
    ("return_value_offset", toJson f.returnValueOffset),
    ("frame_size", toJson f.frameSize),
    ("metadata", toJson f.metadata),
    ("script", toJson f.script)]
  ofJson? j := do
    let m ← j.record? ["name", "flags", "super_function", "properties", "num_parms",
      "parms_size", "return_value_offset", "frame_size", "metadata", "script"]
    return {
      name := ← Json.field m "name"
      flags := ← Json.field m "flags"
      superFunction := ← Json.optional m "super_function"
      properties := ← Json.fieldOr m "properties" []
      numParms := ← Json.fieldOr m "num_parms" 0
      parmsSize := ← Json.fieldOr m "parms_size" 0
      returnValueOffset := ← Json.optional m "return_value_offset"
      frameSize := ← Json.fieldOr m "frame_size" 0
      metadata := ← Json.fieldOr m "metadata" .empty
      script := ← Json.fieldOr m "script" [] }

end Function

end VisualScript
