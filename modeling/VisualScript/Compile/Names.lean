import VisualScript.Blueprint
import VisualScript.Name

/-!
# Settling the names of members

A member whose name is not acceptable beside the members of the parent class and
the members before it gets another name, and what refers to it follows.
-/

namespace VisualScript

/-- Takes a name, or a new one when it is not acceptable; the new one is returned. -/
def NameValidator.accept (v : NameValidator) (name : String) : Option String × NameValidator :=
  if v.validate name = .ok then (none, v.reserve name)
  else
    let new := v.makeUnique name
    (some new, v.reserve new)

/-! ## Components -/

/-- Components under acceptable names and, parents first, the names that changed. -/
structure RenamedComponents (α : Type) where
  result : α
  validator : NameValidator
  renamed : List (String × String)

namespace ComponentNode

mutual

def acceptNames (v : NameValidator) : ComponentNode → RenamedComponents ComponentNode
  | ⟨name, componentClass, children⟩ =>
    let (new, v) := v.accept name
    let below := acceptAllNames v children
    { result := ⟨new.getD name, componentClass, below.result⟩
      validator := below.validator
      renamed := new.toList.map (name, ·) ++ below.renamed }

def acceptAllNames (v : NameValidator) :
    List ComponentNode → RenamedComponents (List ComponentNode)
  | [] => ⟨[], v, []⟩
  | node :: nodes =>
    let first := node.acceptNames v
    let rest := acceptAllNames first.validator nodes
    ⟨first.result :: rest.result, rest.validator, first.renamed ++ rest.renamed⟩

end

end ComponentNode

/-! ## The steps -/

/-- A Blueprint whose names are being settled. -/
structure Naming where
  blueprint : Blueprint
  validator : NameValidator
  log : MessageLog

namespace Naming

/-- Reports that a member has another name now. -/
def reportRename (s : Naming) (what old new : String) : Naming :=
  let text := s!"Found a {what} with a conflicting name ({old}) - changed to {new}."
  { s with log := s.log.warning text [s.blueprint.token] }

/-- Whether another variable than the one at the index has the name. -/
def isDeclaredElsewhere (b : Blueprint) (i : Nat) (name : String) : Bool :=
  b.newVariables.zipIdx.any fun e => e.2 != i && e.1.name == name

/-- Settles the name of a variable.  References follow unless another variable of the old name
is left for them. -/
def settleVariable (s : Naming) (i : Nat) : Naming :=
  match s.blueprint.newVariables[i]? with
  | none => s
  | some var =>
    let (new, validator) := s.validator.accept var.name
    let s := { s with validator }
    match new with
    | none => s
    | some new =>
      let s := s.reportRename "member variable" var.name new
      let b := if isDeclaredElsewhere s.blueprint i var.name then s.blueprint
        else s.blueprint.renameVariableReferences var.name new
      { s with blueprint := { b with
          newVariables := b.newVariables.modify i fun v => { v with name := new } } }

def settleTimeline (s : Naming) (i : Nat) : Naming :=
  match s.blueprint.timelines[i]? with
  | none => s
  | some timeline =>
    let (new, validator) := s.validator.accept timeline.name
    let s := { s with validator }
    match new with
    | none => s
    | some new =>
      let s := s.reportRename "timeline" timeline.name new
      let b := s.blueprint.renameTimelineReferences timeline.name new
      { s with blueprint := { b with
          timelines := b.timelines.modify i fun t => { t with name := new } } }

/-- Settles the names of all components and then redirects the references to them. -/
def settleComponents (s : Naming) : Naming :=
  match s.blueprint.constructionScript with
  | none => s
  | some script =>
    let r := ComponentNode.acceptAllNames s.validator script.roots
    let s := { s with
      validator := r.validator
      blueprint := { s.blueprint with constructionScript := some ⟨r.result⟩ } }
    r.renamed.foldl
      (fun s (old, new) =>
        let s := s.reportRename "component" old new
        { s with blueprint := s.blueprint.renameVariableReferences old new }) s

/-- Settles the name of a function graph. -/
def settleFunction (s : Naming) (i : Nat) : Naming :=
  match s.blueprint.functionGraphs[i]? with
  | none => s
  | some graph =>
    let (new, validator) := s.validator.accept graph.name
    let s := { s with validator }
    match new with
    | none => s
    | some new =>
      let s := s.reportRename "function graph" graph.name new
      let b := s.blueprint.renameFunctionReferences graph.name new
      { s with blueprint := { b with
          functionGraphs := b.functionGraphs.modify i fun g => { g with name := new } } }

/-- Settles the names of variables, timelines and components. -/
def settleMembers (s : Naming) : Naming :=
  let s := (List.range s.blueprint.newVariables.length).foldl settleVariable s
  let s := (List.range s.blueprint.timelines.length).foldl settleTimeline s
  s.settleComponents

/-- The properties that the parent class has and the Blueprint declares. -/
def propertyNames (b : Blueprint) : List String :=
  b.parentClass.hierarchy.flatMap (fun c => c.own.properties.map (·.name))
    ++ b.newVariables.map (·.name)
    ++ b.timelines.map (·.name)
    ++ b.components.map (·.variableName)

/-- Settles the names of function graphs, which may be those of inherited functions but not of
properties. -/
def settleFunctions (s : Naming) : Naming :=
  (List.range s.blueprint.functionGraphs.length).foldl settleFunction
    { s with validator := .ofNames (propertyNames s.blueprint) }

end Naming

/-- The Blueprint with settled names, and a warning for every name that changed. -/
def Blueprint.settleNames (b : Blueprint) (log : MessageLog) : Blueprint × MessageLog :=
  let s : Naming := ⟨b, .ofNames b.parentClass.memberNames, log⟩
  let s := s.settleMembers.settleFunctions
  (s.blueprint, s.log)

end VisualScript
