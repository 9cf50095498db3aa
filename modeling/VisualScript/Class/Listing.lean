import VisualScript.Class.Basic
import VisualScript.Text.Lines

/-!
# Listing a class

A line for the class, one for each interface and property, and one for each
function followed by its frame.
-/

namespace VisualScript

def Property.listing (p : Property) : String :=
  s!"{p.name} : {p.ty.label} @{p.offset} [{p.flags.listing}]"

def Function.listing (f : Function) : List String :=
  s!"  function {f.name} [{f.flags.listing}] parms={f.numParms} ({f.parmsSize} bytes), {f.script.length} ops"
    :: f.properties.map fun p => "    " ++ p.listing

def Class.listing (c : Class) : List String :=
  let parent := (c.superClass.map (·.name)).getD "None"
  s!"Class {c.name} : {parent} [{c.own.flags.listing}] ({c.own.propertiesSize} bytes)"
    :: c.interfaces.map (fun i => "  implements " ++ i.name)
    ++ c.own.properties.map (fun p => "  property " ++ p.listing)
    ++ c.own.functions.flatMap (·.listing)

/-- The lines of the script of every function. -/
def Class.disassembly (c : Class) : List (String × List String) :=
  c.own.functions.map fun f => (f.name, Text.lines f.script.disassembly)

end VisualScript
