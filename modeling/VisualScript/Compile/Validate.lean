import VisualScript.Schema

/-!
# Checking graphs

The faults in the links and pins of a graph.  All of them are reported and none
of them stops the compilation.
-/

namespace VisualScript.Graph

/-- The faults of a link from `p`, whose name is `id`, to `other`. -/
def linkFaults (g : Graph) (schema : Schema) (id : PinId) (p : Pin) (other : PinId) :
    List Message :=
  match g.pin? other with
  | none => [.error "Pin @@ is linked to a pin that no longer exists" [g.pinToken id]]
  | some o =>
    (if id ∈ o.links then []
      else [.error "Link between @@ and @@ is only recorded on one side"
        [g.pinToken id, g.pinToken other]])
    ++ (if o.owner = p.owner then [.error "Pin @@ is linked to its own node" [g.pinToken id]]
      else [])
    ++ (if o.direction = p.direction then
        [.error "Pins @@ and @@ are linked but have the same direction"
          [g.pinToken id, g.pinToken other]]
      else [])
    ++ (if p.direction = .output ∧ o.direction = .input
          ∧ schema.areTypesCompatible p.ty o.ty = false then
        [.warning
          s!"Can't connect pins @@ and @@: {p.ty.label} is not compatible with {o.ty.label}"
          [g.pinToken id, g.pinToken other]]
      else [])

/-- The fault of a pin that has more links than it can take. -/
def fanFaults (g : Graph) (id : PinId) (p : Pin) : List Message :=
  if p.links.length ≤ 1 then []
  else match p.direction with
    | .output =>
      if p.isExec then [.error "Exec output @@ has more than one connection" [g.pinToken id]]
      else []
    | .input =>
      if p.isExec then []
      else if p.isSelf && g.isPure p.owner then
        [.error
          "Self pin @@ of a pure call can only take one target; use a loop to call it on several"
          [g.pinToken id]]
      else [.error "Input @@ has more than one connection" [g.pinToken id]]

/-- The faults of a pin and of its links. -/
def pinFaults (g : Graph) (schema : Schema) (id : PinId) : List Message :=
  match g.pin? id with
  | none => []
  | some p =>
    p.links.flatMap (g.linkFaults schema id p)
    ++ (if p.ty.isWildcard then
        [.error "The type of @@ is undetermined. Connect something to it to determine the type."
          [g.pinToken id]]
      else [])
    ++ (if p.direction = .input ∧ p.isLinked = false then
        match Schema.defaultValueError? p.ty p.defaultValue with
        | some problem => [.warning s!"Default value of @@ is invalid: {problem}" [g.pinToken id]]
        | none => []
      else [])
    ++ g.fanFaults id p

/-- The fault of a result that no exec link leads to. -/
def resultFaults (g : Graph) (id : NodeId) : List Message :=
  if g.kindIs id (·.tag = .functionResult)
      ∧ (g.filteredPins id .input true).all (fun p => (g.linksOf p).isEmpty) = true then
    [.warning "Return node @@ has no connected execution input and will never run"
      [g.nodeToken id]]
  else []

/-- Every fault, node by node. -/
def faults (g : Graph) (schema : Schema) : List Message :=
  g.order.flatMap fun id => (g.pinsOf id).flatMap (g.pinFaults schema) ++ g.resultFaults id

/-- Reports every fault. -/
def validate (g : Graph) (schema : Schema) (log : MessageLog) : MessageLog :=
  log.pushAll (g.faults schema)

end VisualScript.Graph
