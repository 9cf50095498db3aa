import VisualScript.Json.Codec
import VisualScript.Text.Blank
import VisualScript.Text.Hexadecimal

/-!
# Flag sets

A flag set is a word of 32 bits whose family names some of them.  Its text lists
the names of the bits that are set, with the bits that have no name as one
hexadecimal term.
-/

namespace VisualScript

open Text

inductive FlagFamily
  | ofClass
  | ofFunction
  | ofProperty
  deriving DecidableEq

structure Flags (family : FlagFamily) where
  bits : UInt32
  deriving DecidableEq, Inhabited

abbrev ClassFlags := Flags .ofClass

abbrev FunctionFlags := Flags .ofFunction

abbrev PropertyFlags := Flags .ofProperty

namespace Flags

variable {family : FlagFamily}

/-! ## Set operations -/

def empty : Flags family := ⟨0⟩

/-- The set of one bit. -/
def single (n : UInt32) : Flags family := ⟨1 <<< n⟩

instance : OrOp (Flags family) := ⟨fun a b => ⟨a.bits ||| b.bits⟩⟩

instance : AndOp (Flags family) := ⟨fun a b => ⟨a.bits &&& b.bits⟩⟩

/-- Whether every flag of `b` is in `a`. -/
def contains (a b : Flags family) : Bool := a.bits &&& b.bits == b.bits

/-- Whether some flag is in both. -/
def intersects (a b : Flags family) : Bool := a.bits &&& b.bits != 0

def isEmpty (a : Flags family) : Bool := a.bits == 0

/-- The flags of `a` that are not in `b`. -/
def without (a b : Flags family) : Flags family := ⟨a.bits &&& ~~~b.bits⟩

/-- Puts the flags of `b` into `a` or takes them out. -/
def setTo (a b : Flags family) (present : Bool) : Flags family :=
  if present then a ||| b else a.without b

/-- The union of several sets. -/
def union (sets : List (Flags family)) : Flags family := sets.foldl (· ||| ·) empty

end Flags

/-! ## Class flags -/

namespace ClassFlags

def abstract : ClassFlags := .single 0
def notPlaceable : ClassFlags := .single 1
def const : ClassFlags := .single 2
def interface : ClassFlags := .single 3
def parsed : ClassFlags := .single 4
def compiledFromBlueprint : ClassFlags := .single 5
def transient : ClassFlags := .single 6
def config : ClassFlags := .single 7
def editInlineNew : ClassFlags := .single 8
def collapseCategories : ClassFlags := .single 9
def hasInstancedReference : ClassFlags := .single 10

/-- Flags that every subclass inherits. -/
def inherit : ClassFlags := .union [transient, config, notPlaceable]

/-- Flags that a subclass compiled from a script inherits. -/
def scriptInherit : ClassFlags :=
  .union [inherit, editInlineNew, collapseCategories, hasInstancedReference]

end ClassFlags

/-! ## Function flags -/

namespace FunctionFlags

def final : FunctionFlags := .single 0
def publicAccess : FunctionFlags := .single 1
def protectedAccess : FunctionFlags := .single 2
def privateAccess : FunctionFlags := .single 3
def net : FunctionFlags := .single 4
def netReliable : FunctionFlags := .single 5
def netMulticast : FunctionFlags := .single 6
def netServer : FunctionFlags := .single 7
def netClient : FunctionFlags := .single 8
def blueprintCallable : FunctionFlags := .single 9
def blueprintEvent : FunctionFlags := .single 10
def exec : FunctionFlags := .single 11
def event : FunctionFlags := .single 12
def delegate : FunctionFlags := .single 13
def hasOutParms : FunctionFlags := .single 14
def hasDefaults : FunctionFlags := .single 15
def static : FunctionFlags := .single 16
def const : FunctionFlags := .single 17
def blueprintAuthorityOnly : FunctionFlags := .single 18
def blueprintCosmetic : FunctionFlags := .single 19
def multicastDelegate : FunctionFlags := .single 20

/-- Flags that an override inherits from the function it overrides. -/
def funcInherit : FunctionFlags :=
  .union [exec, event, blueprintCallable, blueprintEvent, blueprintAuthorityOnly, blueprintCosmetic]

def accessSpecifiers : FunctionFlags := .union [publicAccess, protectedAccess, privateAccess]

def netFuncFlags : FunctionFlags := .union [net, netReliable, netServer, netClient, netMulticast]

end FunctionFlags

/-! ## Property flags -/

namespace PropertyFlags

def parm : PropertyFlags := .single 0
def outParm : PropertyFlags := .single 1
def referenceParm : PropertyFlags := .single 2
def returnParm : PropertyFlags := .single 3
def constParm : PropertyFlags := .single 4
def net : PropertyFlags := .single 5
def repNotify : PropertyFlags := .single 6
def saveGame : PropertyFlags := .single 7
def transient : PropertyFlags := .single 8
def duplicateTransient : PropertyFlags := .single 9
def blueprintVisible : PropertyFlags := .single 10
def exposeOnSpawn : PropertyFlags := .single 11
def disableEditOnInstance : PropertyFlags := .single 12
def zeroConstructor : PropertyFlags := .single 13
def edit : PropertyFlags := .single 14
def blueprintReadOnly : PropertyFlags := .single 15

end PropertyFlags

/-! ## Names -/

namespace FlagFamily

/-- The name of the type of a family, which listings show. -/
def title : FlagFamily → String
  | ofClass => "ClassFlags"
  | ofFunction => "FunctionFlags"
  | ofProperty => "PropertyFlags"

/-- The names of single bits, from the lowest bit up. -/
def bitNames : FlagFamily → List String
  | ofClass =>
    ["ABSTRACT", "NOT_PLACEABLE", "CONST", "INTERFACE", "PARSED", "COMPILED_FROM_BLUEPRINT",
      "TRANSIENT", "CONFIG", "EDIT_INLINE_NEW", "COLLAPSE_CATEGORIES", "HAS_INSTANCED_REFERENCE"]
  | ofFunction =>
    ["FINAL", "PUBLIC", "PROTECTED", "PRIVATE", "NET", "NET_RELIABLE", "NET_MULTICAST",
      "NET_SERVER", "NET_CLIENT", "BLUEPRINT_CALLABLE", "BLUEPRINT_EVENT", "EXEC", "EVENT",
      "DELEGATE", "HAS_OUT_PARMS", "HAS_DEFAULTS", "STATIC", "CONST", "BLUEPRINT_AUTHORITY_ONLY",
      "BLUEPRINT_COSMETIC", "MULTICAST_DELEGATE"]
  | ofProperty =>
    ["PARM", "OUT_PARM", "REFERENCE_PARM", "RETURN_PARM", "CONST_PARM", "NET", "REP_NOTIFY",
      "SAVE_GAME", "TRANSIENT", "DUPLICATE_TRANSIENT", "BLUEPRINT_VISIBLE", "EXPOSE_ON_SPAWN",
      "DISABLE_EDIT_ON_INSTANCE", "ZERO_CONSTRUCTOR", "EDIT", "BLUEPRINT_READ_ONLY"]

/-- Names of several bits, which are read but never written. -/
def unionNames : (family : FlagFamily) → List (String × Flags family)
  | ofClass => [("INHERIT", ClassFlags.inherit), ("SCRIPT_INHERIT", ClassFlags.scriptInherit)]
  | ofFunction =>
    [("FUNC_INHERIT", FunctionFlags.funcInherit),
      ("ACCESS_SPECIFIERS", FunctionFlags.accessSpecifiers),
      ("NET_FUNC_FLAGS", FunctionFlags.netFuncFlags)]
  | ofProperty => []

/-- Each named bit with its name. -/
def bits (family : FlagFamily) : List (String × Flags family) :=
  family.bitNames.mapIdx fun i name => (name, .single (UInt32.ofNat i))

end FlagFamily

/-! ## Texts -/

namespace Flags

variable {family : FlagFamily}

/-- The named flags that are set, then the rest as one term. -/
def terms (a : Flags family) : List String :=
  let named := family.bits.filter fun e => a.contains e.2
  let rest := a.without (union (named.map (·.2)))
  named.map (·.1)
    ++ if rest.isEmpty then [] else ["0x" ++ String.ofList (hexDigits rest.bits.toNat)]

def text (a : Flags family) : String := " | ".intercalate a.terms

/-- A set as listings show it. -/
def listing (a : Flags family) : String :=
  family.title ++ "(" ++ (if a.isEmpty then "0x0" else a.text) ++ ")"

/-- A name or a hexadecimal number of 32 bits. -/
def term? (family : FlagFamily) (s : List Char) : Option (Flags family) :=
  match s with
  | '0' :: 'x' :: digits => do
    let digits := match digits with
      | '+' :: rest => rest
      | rest => rest
    let n ← hexNumber? digits
    if n < UInt32.size then some ⟨UInt32.ofNat n⟩ else none
  | name => (family.bits ++ family.unionNames).lookup (String.ofList name)

/-- Reads the terms between bars; a blank text is the empty set. -/
def ofText? (family : FlagFamily) (s : String) : Option (Flags family) :=
  if (trimChars s.toList).isEmpty then some empty
  else ((splitChars '|' s.toList).mapM fun t => term? family (trimChars t)).map union

instance : JsonCodec (Flags family) where
  toJson a := .str a.text
  ofJson? j := j.string?.bind (ofText? family)

end Flags

end VisualScript
