import VisualScript.Assoc
import VisualScript.Graph.Basic
import VisualScript.Name

/-!
# Names of nets

Every pin whose value is stored gets a name of its own and keeps it.
-/

namespace VisualScript

structure NetNameMap where
  names : List (PinId × String) := []
  deriving Inhabited

namespace NetNameMap

def get? (m : NetNameMap) (p : PinId) : Option String := m.names.lookup p

def used (m : NetNameMap) : List String := m.names.map (·.2)

/-- A name made from the kind and number of the node and the name of the pin. -/
def baseName (g : Graph) (p : PinId) : String :=
  match g.pin? p with
  | some pin =>
    let tag := ((g.kind? pin.owner).map (·.tag.name)).getD ""
    Name.sanitize (tag ++ "_" ++ toString pin.owner.index ++ "_" ++ pin.name)
  | none => "Net_" ++ toString p.index

/-- The first of `name`, `base_k`, `base_(k+1)`, … that is not used, within `fuel` tries. -/
def firstUnused (used : List String) (base : String) (name : String) (k : Nat) : Nat → String
  | 0 => name
  | fuel + 1 =>
    if name ∈ used then firstUnused used base (base ++ "_" ++ toString k) (k + 1) fuel else name

/-- The name of a pin, made on first use.  Of one more candidate than there are used names at
least one is unused. -/
def nameOf (m : NetNameMap) (g : Graph) (p : PinId) : String × NetNameMap :=
  match m.get? p with
  | some name => (name, m)
  | none =>
    let base := baseName g p
    let name := firstUnused m.used base base 1 (m.names.length + 1)
    (name, { m with names := Assoc.set p name m.names })

end NetNameMap

end VisualScript
