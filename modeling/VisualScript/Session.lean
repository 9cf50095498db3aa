import VisualScript.Compile.Compilation

/-!
# Sessions

A session compiles one Blueprint at a time.  A compile that begins while another
is under way is refused.
-/

namespace VisualScript

structure Session where
  /-- Whether the names of component templates get a suffix. -/
  suffixTemplates : Bool := true
  /-- The Blueprint that is compiling. -/
  active : Option String := none
  /-- How many compiles have ended. -/
  compiled : Nat := 0
  deriving DecidableEq, Inhabited

namespace Session

def isCompiling (s : Session) : Bool := s.active.isSome

/-- Begins the compile of a Blueprint unless one is under way. -/
def start (s : Session) (name : String) : Except CompileError Session :=
  match s.active with
  | some active => .error (.reentrantCompile active name)
  | none => .ok { s with active := some name }

/-- Ends the compile that is under way, if one is. -/
def stop (s : Session) : Session :=
  if s.isCompiling then { s with active := none, compiled := s.compiled + 1 } else s

/-- Compiles a Blueprint from start to end. -/
def compile (s : Session) (b : Blueprint) (options : CompileOptions) :
    Except CompileError (Compilation × Session) := do
  let s ← s.start b.name
  return (b.compile options s.suffixTemplates, s.stop)

@[simp]
theorem isCompiling_stop (s : Session) : s.stop.isCompiling = false := by
  unfold stop
  split <;> simp_all [isCompiling]

end Session

/-- Compiles a Blueprint outside of any session. -/
def Blueprint.compileAlone (b : Blueprint) (options : CompileOptions) : Compilation :=
  b.compile options ({} : Session).suffixTemplates

end VisualScript
