import VisualScript.Assoc
import VisualScript.Class.Function
import VisualScript.Component
import VisualScript.Timeline

/-!
# Classes

A class declares properties and functions, and sees those of its ancestors and
of the interfaces that it or an ancestor implements.  Its default object gives
the properties their first values.
-/

namespace VisualScript

/-! ## Default objects -/

/-- Values by the names of properties, in the order in which they were first set. -/
structure DefaultObject where
  values : List (String × Value) := []
  deriving Inhabited

namespace DefaultObject

def empty : DefaultObject := {}

def get? (d : DefaultObject) (name : String) : Option Value := d.values.lookup name

def set (d : DefaultObject) (name : String) (value : Value) : DefaultObject :=
  ⟨Assoc.set name value d.values⟩

def setAll (d : DefaultObject) (values : List (String × Value)) : DefaultObject :=
  ⟨Assoc.setAll d.values values⟩

@[simp]
theorem get?_set (d : DefaultObject) (name k : String) (value : Value) :
    (d.set name value).get? k = if k = name then some value else d.get? k :=
  Assoc.lookup_set name k value d.values

instance : JsonCodec DefaultObject where
  toJson d := .obj [("values", toJson d.values)]
  ofJson? j := do
    let m ← j.record? ["values"]
    return ⟨← Json.field m "values"⟩

end DefaultObject

/-! ## Classes -/

/-- What a class declares itself. -/
structure ClassMembers where
  name : String
  flags : ClassFlags := .empty
  /-- The last linked property comes first. -/
  properties : List Property := []
  functions : List Function := []
  metadata : Metadata := .empty
  propertiesSize : Nat := 0
  numReplicatedProperties : Nat := 0
  defaultObject : Option DefaultObject := none
  timelines : List TimelineTemplate := []
  componentTemplates : List ComponentTemplate := []
  constructionScript : Option ConstructionScript := none
  /-- The Blueprint that the class was compiled from. -/
  generatedBy : Option String := none
  deriving Inhabited

structure Class where
  own : ClassMembers
  superClass : Option Class
  interfaces : List Class
  deriving Inhabited

namespace Class

def new (name : String) (superClass : Option Class) : Class := ⟨{ name }, superClass, []⟩

abbrev name (c : Class) : String := c.own.name

/-! ### Ancestors -/

/-- The class and its ancestors, nearest first. -/
def hierarchy : Class → List Class
  | c@⟨_, none, _⟩ => [c]
  | c@⟨_, some parent, _⟩ => c :: parent.hierarchy

def isChildOf (c : Class) (name : String) : Bool := c.hierarchy.any (·.name == name)

def implementsInterface (c : Class) (name : String) : Bool :=
  c.hierarchy.any fun k => k.interfaces.any (·.name == name)

/-! ### Looking up -/

def findOwnProperty? (c : Class) (name : String) : Option Property :=
  c.own.properties.find? (·.name == name)

def findProperty? (c : Class) (name : String) : Option Property :=
  c.hierarchy.findSome? (·.findOwnProperty? name)

def findOwnFunction? (c : Class) (name : String) : Option Function :=
  c.own.functions.find? (·.name == name)

/-- The nearest function of that name, with the name of its class. -/
def findFunction? (c : Class) (name : String) : Option (String × Function) :=
  c.hierarchy.findSome? fun k => (k.findOwnFunction? name).map (k.name, ·)

/-- The first function of that name in the interfaces of the class and its ancestors. -/
def findInterfaceFunction? (c : Class) (name : String) : Option (String × Function) :=
  (c.hierarchy.flatMap (·.interfaces)).findSome? (·.findFunction? name)

/-- The function that one of that name overrides: an inherited one or else one of an
interface. -/
def findOverridden? (c : Class) (name : String) : Option (String × Function) :=
  (c.superClass.bind (·.findFunction? name)).or (c.findInterfaceFunction? name)

/-- The names of the properties and functions that the class and its ancestors declare. -/
def memberNames (c : Class) : List String :=
  c.hierarchy.flatMap fun k => k.own.properties.map (·.name) ++ k.own.functions.map (·.name)

/-! ### Changing -/

/-- Changes the first own property of that name. -/
def modifyProperty (c : Class) (name : String) (f : Property → Property) : Class :=
  { c with own.properties := c.own.properties.modify (c.own.properties.findIdx (·.name == name)) f }

/-- Changes the first own function of that name. -/
def modifyFunction (c : Class) (name : String) (f : Function → Function) : Class :=
  { c with own.functions := c.own.functions.modify (c.own.functions.findIdx (·.name == name)) f }

/-- Links a property in front of the others. -/
def linkProperty (c : Class) (p : Property) : Except CompileError Class :=
  if (c.findOwnProperty? p.name).isSome then .error (.duplicateField p.name c.name)
  else .ok { c with own.properties := p :: c.own.properties }

def addFunction (c : Class) (f : Function) : Except CompileError Class :=
  if (c.findOwnFunction? f.name).isSome then .error (.duplicateField f.name c.name)
  else .ok { c with own.functions := c.own.functions ++ [f] }

/-- Places the own properties after those of the parent. -/
def staticLink (c : Class) : Class :=
  let start := (c.superClass.map (·.own.propertiesSize)).getD 0
  let properties := placeAll start c.own.properties
  { c with
    own.properties := properties
    own.propertiesSize := layoutEnd start properties
    own.numReplicatedProperties :=
      properties.countP fun p => p.flags.contains PropertyFlags.net }

/-- The default values along the hierarchy; those of a nearer class count. -/
def inheritedDefaults (c : Class) : DefaultObject :=
  c.hierarchy.reverse.foldl
    (fun d k => d.setAll ((k.own.defaultObject.map (·.values)).getD [])) .empty

end Class

/-! ## Documents -/

namespace Class

def fields : List String :=
  ["name", "super_class", "flags", "properties", "functions", "interfaces", "metadata",
    "properties_size", "num_replicated_properties", "default_object", "timelines",
    "component_templates", "construction_script", "generated_by"]

/-- The members of the document of a class, given those of its parent and interfaces. -/
def documentOf (own : ClassMembers) (superClass interfaces : Json) : Json := .obj [
  ("name", toJson own.name),
  ("super_class", superClass),
  ("flags", toJson own.flags),
  ("properties", toJson own.properties),
  ("functions", toJson own.functions),
  ("interfaces", interfaces),
  ("metadata", toJson own.metadata),
  ("properties_size", toJson own.propertiesSize),
  ("num_replicated_properties", toJson own.numReplicatedProperties),
  ("default_object", toJson own.defaultObject),
  ("timelines", toJson own.timelines),
  ("component_templates", toJson own.componentTemplates),
  ("construction_script", toJson own.constructionScript),
  ("generated_by", toJson own.generatedBy)]

/-- Reads what a class declares itself. -/
def ownOf? (m : List (String × Json)) : Option ClassMembers := do
  return {
    name := ← Json.field m "name"
    flags := ← Json.fieldOr m "flags" .empty
    properties := ← Json.fieldOr m "properties" []
    functions := ← Json.fieldOr m "functions" []
    metadata := ← Json.fieldOr m "metadata" .empty
    propertiesSize := ← Json.fieldOr m "properties_size" 0
    numReplicatedProperties := ← Json.fieldOr m "num_replicated_properties" 0
    defaultObject := ← Json.optional m "default_object"
    timelines := ← Json.fieldOr m "timelines" []
    componentTemplates := ← Json.fieldOr m "component_templates" []
    constructionScript := ← Json.optional m "construction_script"
    generatedBy := ← Json.optional m "generated_by" }

mutual

def document : Class → Json
  | ⟨own, superClass, interfaces⟩ =>
    documentOf own (superDocument superClass) (.arr (documents interfaces))

def superDocument : Option Class → Json
  | none => .null
  | some c => c.document

def documents : List Class → List Json
  | [] => []
  | c :: cs => c.document :: documents cs

end

/-- The document of a class that names its parent and interfaces only. -/
def summary (c : Class) : Json :=
  documentOf c.own (toJson (c.superClass.map (·.name))) (toJson (c.interfaces.map (·.name)))

mutual

def ofDocument? : Json → Option Class
  | .obj members => do
    let m ← (Json.obj members).record? fields
    return ⟨← ownOf? m, ← superOf? members, ← interfacesOf? members⟩
  | _ => none

/-- Reads the first member named `super_class`. -/
def superOf? : List (String × Json) → Option (Option Class)
  | [] => some none
  | (key, j) :: rest => if key = "super_class" then optionalDocument? j else superOf? rest

def optionalDocument? : Json → Option (Option Class)
  | .null => some none
  | j => (ofDocument? j).map some

/-- Reads the first member named `interfaces`. -/
def interfacesOf? : List (String × Json) → Option (List Class)
  | [] => some []
  | (key, j) :: rest => if key = "interfaces" then itemsOfDocument? j else interfacesOf? rest

def itemsOfDocument? : Json → Option (List Class)
  | .arr items => ofDocuments? items
  | _ => none

def ofDocuments? : List Json → Option (List Class)
  | [] => some []
  | j :: js => do return (← ofDocument? j) :: (← ofDocuments? js)

end

instance : JsonCodec Class := ⟨document, ofDocument?⟩

end Class

end VisualScript
