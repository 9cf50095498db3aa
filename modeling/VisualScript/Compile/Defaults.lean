import VisualScript.Compile.ClassShape

/-!
# The default object of a class

Zero values come first, then the values of the parent.  Over them count the
values of the last default object and those that the author declares.
-/

namespace VisualScript.ClassState

/-- The zero values of the own properties, last linked last, under the inherited values. -/
def zeroDefaults (c : Class) : DefaultObject :=
  let zeros := c.own.properties.reverse.map fun p => (p.name, Value.zero p.ty)
  let inherited := match c.superClass with
    | some parent => parent.inheritedDefaults.values
    | none => []
  (DefaultObject.empty.setAll zeros).setAll inherited

/-- The values of the last default object that still fit an own property. -/
def fittingValues (c : Class) (old : Option DefaultObject) : List (String × Value) :=
  ((old.map (·.values)).getD []).filter fun e =>
    (c.findOwnProperty? e.1).any fun p => e.2.shape = (Value.zero p.ty).shape

/-- Sets the declared default of a variable; a text that cannot be read is reported. -/
def applyDeclared (c : Class) (acc : DefaultObject × MessageLog) (v : VariableDescription) :
    DefaultObject × MessageLog :=
  let (defaults, log) := acc
  if v.defaultValue.isEmpty || (c.findOwnProperty? v.name).isNone then (defaults, log)
  else match Value.parse? v.ty v.defaultValue with
    | some value => (defaults.set v.name value, log)
    | none => (defaults, log.warning
        s!"Failed to parse default value '{v.defaultValue}' for variable {v.name}; it keeps its zero value"
        [propertyToken v.name])

/-- Builds the default object.  The declared defaults count more than those of the last class,
and less when the class is regenerated on load. -/
def buildDefaults (s : ClassState) (b : Blueprint) (old : Option DefaultObject)
    (isRegenerating : Bool) : ClassState :=
  let zero := zeroDefaults s.cls
  let kept := fittingValues s.cls old
  let (defaults, log) :=
    if isRegenerating then
      let (defaults, log) := b.newVariables.foldl (applyDeclared s.cls) (zero, s.log)
      (defaults.setAll kept, log)
    else b.newVariables.foldl (applyDeclared s.cls) (zero.setAll kept, s.log)
  { cls := { s.cls with own.defaultObject := some defaults }, log }

end VisualScript.ClassState
