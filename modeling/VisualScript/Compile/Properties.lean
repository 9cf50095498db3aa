import VisualScript.Class.Basic
import VisualScript.Compile.Context

/-!
# Properties for variables and terminals

Parameters, results and local variables become properties of the function; nets
of the event graph become properties of the class.
-/

namespace VisualScript

/-! ## Scopes -/

/-- Something that properties can be linked into. -/
class PropertyScope (σ : Type) where
  scopeName : σ → String
  link : σ → Property → Except CompileError σ

instance : PropertyScope Class := ⟨fun c => c.name, Class.linkProperty⟩

instance : PropertyScope Function := ⟨fun f => f.name, Function.addProperty⟩

namespace PropertyScope

/-- Links a new property of a type with storage; a constant type makes a constant. -/
def addVariable {σ : Type} [PropertyScope σ] (scope : σ) (name : String) (ty : PinType)
    (flags : PropertyFlags) : Except CompileError σ := do
  let p ← Property.new name ty
  let p := p.addFlags flags
  link scope (if ty.isConst then p.addFlags PropertyFlags.constParm else p)

end PropertyScope

/-! ## Terminals -/

namespace Terminal

/-- The flags of the property of a terminal in a list that is given some flags. -/
def propertyFlags (t : Terminal) (flags : PropertyFlags) : PropertyFlags :=
  let isParameter := flags.contains PropertyFlags.parm
  .union [
    flags,
    if isParameter && t.kind = .result then PropertyFlags.outParm else .empty,
    if isParameter && t.kind = .result && t.name == PinName.returnValue then
      PropertyFlags.returnParm else .empty,
    if isParameter && t.passedByRef then
      PropertyFlags.outParm ||| PropertyFlags.referenceParm else .empty,
    if isParameter && t.isConst then PropertyFlags.constParm else .empty,
    if t.kind = .eventGraphLocal && !t.savePersistent then
      PropertyFlags.transient ||| PropertyFlags.duplicateTransient else .empty]

end Terminal

/-- A scope with the context and log while properties are made. -/
structure PropertyState (σ : Type) where
  scope : σ
  ctx : FunctionContext
  log : MessageLog

namespace PropertyState

open PropertyScope

variable {σ : Type} [PropertyScope σ]

/-- Makes the property of one terminal unless it has one. -/
def addTerm (flags : PropertyFlags) (s : PropertyState σ) (t : TermId) : PropertyState σ :=
  match s.ctx.term? t with
  | none => s
  | some term =>
    if term.associatedProperty.isSome then s
    else
      let ty := { term.ty with isReference := false }
      match addVariable s.scope term.name ty (term.propertyFlags flags) with
      | .error e =>
        let token := term.source.getD ⟨.function s.ctx.functionName, term.name⟩
        let owner := scopeName s.scope
        let text := s!"Failed to create property {term.name} in {owner} for @@: {e.message}"
        { s with log := s.log.error text [token] }
      | .ok scope =>
        { scope
          ctx := s.ctx.modifyTerm t fun term => { term with associatedProperty := some term.name }
          log := match term.source with
            | some source => s.log.addSource (.property term.name) source.object
            | none => s.log }

/-- Makes the properties of terminals in turn. -/
def addTerms (s : PropertyState σ) (ts : List TermId) (flags : PropertyFlags) : PropertyState σ :=
  ts.foldl (addTerm flags) s

end PropertyState

end VisualScript
