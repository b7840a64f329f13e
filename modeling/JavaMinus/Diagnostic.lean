/-!
# Diagnostics

What the compiler tells its user: where, in which stage, how bad, and why.
Stages and severities that are none of the named ones carry their number.
-/

namespace JavaMinus

/-- The part of the work that a diagnostic comes from. -/
inductive Stage where
  | syntactic
  | semantic
  | optimization
  | generation
  | numbered (n : Int)
  deriving DecidableEq, Repr, Inhabited

/-- An error stops the work after its stage, a warning does not. -/
inductive Severity where
  | error
  | warning
  | numbered (n : Int)
  deriving DecidableEq, Repr, Inhabited

/-- The stage with a number, counted from 0. -/
def Stage.ofNumber (n : Int) : Stage :=
  if n = 0 then .syntactic
  else if n = 1 then .semantic
  else if n = 2 then .optimization
  else if n = 3 then .generation
  else .numbered n

/-- The name of a stage. -/
def Stage.text : Stage → String
  | syntactic => "SYNTACTIC"
  | semantic => "SEMANTIC"
  | optimization => "OPTIMIZATION"
  | generation => "GENERATION"
  | numbered n => s!"Stage({n})"

/-- The severity with a number, counted from 0. -/
def Severity.ofNumber (n : Int) : Severity :=
  if n = 0 then .error
  else if n = 1 then .warning
  else .numbered n

/-- The name of a severity. -/
def Severity.text : Severity → String
  | error => "ERROR"
  | warning => "WARNING"
  | numbered n => s!"Severity({n})"

/-- One message of the compiler. -/
structure Diagnostic where
  stage : Stage
  severity : Severity
  line : Int
  col : Int
  message : String
  deriving DecidableEq, Repr, Inhabited

namespace Diagnostic

/-- An error of a stage. -/
def error (stage : Stage) (line col : Int) (message : String) : Diagnostic :=
  ⟨stage, .error, line, col, message⟩

/-- A warning of a stage. -/
def warning (stage : Stage) (line col : Int) (message : String) : Diagnostic :=
  ⟨stage, .warning, line, col, message⟩

/-- The line that shows a diagnostic to the user. -/
def text (d : Diagnostic) : String :=
  s!"{d.line}:{d.col}: {d.stage.text} {d.severity.text}: {d.message}"

/-- The diagnostic is an error. -/
def isError (d : Diagnostic) : Bool := d.severity = .error

/-- The diagnostic is a warning. -/
def isWarning (d : Diagnostic) : Bool := d.severity = .warning

end Diagnostic

/-- Some diagnostic of a list is an error. -/
def hasErrors (ds : List Diagnostic) : Bool := ds.any Diagnostic.isError

/-- A value together with the diagnostics raised while it was found, in order. -/
structure Logged (α : Type) where
  value : α
  reports : List Diagnostic := []

namespace Logged

/-- A value found without a diagnostic. -/
@[inline] def pure {α : Type} (a : α) : Logged α := ⟨a, []⟩

/-- Go on with a value; the earlier diagnostics stand first. -/
@[inline] def bind {α β : Type} (x : Logged α) (f : α → Logged β) : Logged β :=
  ⟨(f x.value).value, x.reports ++ (f x.value).reports⟩

instance : Monad Logged where
  pure := Logged.pure
  bind := Logged.bind

/-- Raise one diagnostic. -/
def tell (d : Diagnostic) : Logged Unit := ⟨(), [d]⟩

/-- Raise a diagnostic if a condition holds. -/
def tellIf (c : Bool) (d : Diagnostic) : Logged Unit := ⟨(), if c then [d] else []⟩

end Logged

end JavaMinus
