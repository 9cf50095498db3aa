import VisualScript.Class.Listing
import VisualScript.Compile.Defaults
import VisualScript.Compile.Emit
import VisualScript.Compile.Finish
import VisualScript.Compile.FunctionList
import VisualScript.Compile.Lower
import VisualScript.Compile.Names
import VisualScript.Compile.Precompile

/-!
# Compiling a Blueprint

The names of the members are settled and the class gets its properties.  Then the
functions are listed and pass together through preparation, code and finish, and
the class is finished around them.
-/

namespace VisualScript

namespace Compilation

/-! ## Passes over the functions -/

/-- Runs a pass on some of the functions in turn, each on what the one before left. -/
def runPass (c : Compilation) (selected : FunctionContext → Bool)
    (pass : FunctionState → FunctionState) : Compilation :=
  c.contexts.foldl
    (fun c ctx =>
      if selected ctx then
        let s := pass ⟨ctx, c.log, c.cls, c.classNetNames⟩
        { c with
          cls := s.cls
          log := s.log
          classNetNames := s.classNetNames
          contexts := c.contexts ++ [s.ctx] }
      else c.addContext ctx)
    { c with contexts := [] }

/-- Prepares the signatures of delegates first, so that all others can refer to them. -/
def precompile (env : CompileEnv) (c : Compilation) : Compilation :=
  let c := c.runPass (·.isDelegateSignature) (·.precompile env)
  c.runPass (!·.isDelegateSignature) (·.precompile env)

/-! ## Entering the event graph -/

/-- Lets the call of a stub enter the event graph at the index of a statement. -/
def enterAt (ctx : FunctionContext) (call : NodeId) (index : Nat) : FunctionContext :=
  match ctx.graph.findPin? call PinName.entryPoint (some .input) with
  | none => ctx
  | some p =>
    let text := toString index
    let ctx := { ctx with
      graph := ctx.graph.modifyPin p fun pin => { pin with defaultValue := text } }
    match ctx.net? p with
    | none => ctx
    | some t => ctx.modifyTerm t fun term => { term with name := text, defaultValue := text }

/-- Points every stub at the code of its event. -/
def patchStubs (c : Compilation) : Compilation :=
  let labels := ((c.contexts.find? (·.isEventGraph)).map (·.nodeLabels)).getD []
  { c with
    contexts := c.contexts.map fun ctx => match ctx.stub with
      | none => ctx
      | some link => match labels.lookup link.sourceEvent with
        | none => ctx
        | some index => enterAt ctx link.ubergraphCall index }

/-! ## The class -/

/-- Gives the class the members that the Blueprint declares, and its flags. -/
def shapeClass (c : Compilation) (suffix : Bool) : Compilation :=
  let s : ClassState := ⟨c.cls, c.log⟩
  let s := (s.addMembers c.blueprint suffix).settleFlags c.blueprint
  { c with cls := s.cls, log := s.log }

/-- Gives a delegate the signature that a graph declares. -/
def bindDelegate (c : Compilation) (ctx : FunctionContext) : Compilation :=
  match ctx.delegateSignatureName with
  | none => c
  | some delegate =>
    if (c.cls.findOwnProperty? delegate).any (·.ty.category = .multicastDelegate) then
      { c with cls := c.cls.modifyProperty delegate fun p =>
          { p with signatureFunction := some ctx.functionName } }
    else
      let text :=
        s!"Delegate signature graph @@ has no multicast delegate property named {delegate}"
      { c with log := c.log.warning text [ctx.graph.token] }

/-- Binds delegates, lays the class out and builds the default object. -/
def finishClass (env : CompileEnv) (old : Option DefaultObject) (c : Compilation) : Compilation :=
  let c := c.contexts.foldl bindDelegate c
  let s : ClassState := ⟨c.cls, c.log⟩
  let s := s.checkRepNotifies.checkDelegates
  let s := { s with cls := s.cls.staticLink }
  let s := s.buildDefaults c.blueprint old env.options.isRegeneratingOnLoad
  { c with cls := s.cls, log := s.log }

/-! ## The whole compile -/

/-- Takes the functions through every pass. -/
def compileFunctions (env : CompileEnv) (c : Compilation) : Compilation :=
  let c := (c.addFunctions env).precompile env
  let c := if env.options.isSkeletonOnly then c else c.runPass (fun _ => true) (·.compile env)
  (c.runPass (fun _ => true) (·.postcompile)).patchStubs

/-- Writes the scripts and stores what the options ask for and the class on the Blueprint. -/
def deliver (env : CompileEnv) (c : Compilation) : Compilation :=
  let cls := c.cls.generateCode c.contexts env.options.isSkeletonOnly
  let b := c.blueprint
  let b := if env.options.saveIntermediateProducts then
      { b with intermediateGeneratedGraphs := c.contexts.map (·.graph) }
    else b
  let log := if env.options.verbose then cls.listing.foldl (·.note · []) c.log else c.log
  { c with cls, log, blueprint := { b with generatedClass := some cls } }

end Compilation

namespace Blueprint

/-- Compiles a Blueprint.  Problems in it are reported in the log. -/
def compile (b : Blueprint) (options : CompileOptions) (suffix : Bool) : Compilation :=
  let env : CompileEnv :=
    { schema := ⟨b.name⟩, options, blueprintType := b.blueprintType }
  let (b, log) := b.settleNames .empty
  let (cls, old) := b.freshClass
  let c : Compilation := { blueprint := { b with generatedClass := none }, cls, log }
  (((c.shapeClass suffix).compileFunctions env).finishClass env old).deliver env

end Blueprint

end VisualScript
