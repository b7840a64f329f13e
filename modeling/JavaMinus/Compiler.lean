import JavaMinus.Assembly.Selection
import JavaMinus.Code.FromTree
import JavaMinus.Registers.Placement
import JavaMinus.Syntax.Grammar
import JavaMinus.Typing.Export

/-!
# Compiling a source text

The stages follow one another: reading, checking, making code, placing registers,
and selecting instructions. Each stage leaves an artifact for the user. The work
stops after the first stage that reports an error.
-/

namespace JavaMinus

open Syntax Typing

/-- What the user may choose: whether code is simplified, and how many slots a
method may take. With 0 there is no limit. -/
structure Options where
  optimize : Bool := false
  maxRegisters : Int := 0
  deriving Repr, Inhabited

/-- Why options are refused. -/
inductive OptionError where
  | negativeRegisters (n : Int)
  deriving DecidableEq, Repr, Inhabited

/-- What a refusal says. -/
def OptionError.message : OptionError → String
  | negativeRegisters n =>
    "max registers must not be negative (0 is unconstrained), got " ++ toString n

/-- Check options that come from the command line. -/
def Options.validate (o : Options) : Except OptionError Unit :=
  if o.maxRegisters < 0 then .error (.negativeRegisters o.maxRegisters) else .ok ()

/-- The artifacts of the stages that were reached. -/
structure Compilation where
  className : String := ""
  tree : Option String := none
  symbols : Option String := none
  listing : Option String := none
  finished : Option Code.Class := none
  assembly : Option String := none
  deriving Repr, Inhabited

/-- A stage that could not be carried through. -/
def internalError (stage : Stage) (what : String) : Diagnostic :=
  .error stage 0 0 ("internal error: " ++ what)

/-- The last stage: instructions are selected for code whose registers are placed. -/
def assembleStage (c : Compilation) (cls : Code.Class) : Logged Compilation :=
  match Assembly.assemble cls with
  | .ok a => ⟨{ c with assembly := some a.text }, []⟩
  | .error e =>
    match e.message? with
    | some m => ⟨c, [.error .generation 0 0 m]⟩
    | none => ⟨c, [internalError .generation "an operand is missing"]⟩

/-- The stage before: code is simplified if asked for, and registers are placed. -/
def placeStage (opts : Options) (c : Compilation) (cls : Code.Class) : Logged Compilation :=
  match Registers.finishClass ⟨opts.optimize, opts.maxRegisters⟩ cls with
  | none => ⟨c, [internalError .optimization "a register is not declared"]⟩
  | some ⟨finished, reports⟩ =>
    let c := { c with
      finished := some finished
      listing := if opts.optimize then finished.text? else c.listing }
    if hasErrors reports then ⟨c, reports⟩
    else
      let last := assembleStage c finished
      ⟨last.value, reports ++ last.reports⟩

/-- The stage before that: code is made from the analysed tree. -/
def codeStage (opts : Options) (c : Compilation) (a : Analysis) : Logged Compilation :=
  let ⟨cls, reports⟩ := Code.classCode a
  let c := { c with listing := cls.text? }
  if hasErrors reports then ⟨c, reports⟩
  else
    let last := placeStage opts c cls
    ⟨last.value, reports ++ last.reports⟩

/-- The stage after reading: the table is built and the tree is checked. -/
def checkStage (opts : Options) (f : File Pos) : Logged Compilation :=
  let ⟨table, tableReports⟩ := buildTable f
  let ⟨analysis, checkReports⟩ := analyze table f
  let reports := tableReports ++ checkReports
  let c : Compilation := {
    className := f.cls.name
    symbols := some table.listing
    tree := some analysis.json }
  if hasErrors reports then ⟨c, reports⟩
  else
    let last := codeStage opts c analysis
    ⟨last.value, reports ++ last.reports⟩

/-- Compile a source text. -/
def compile (opts : Options) (bytes : List UInt8) : Logged Compilation :=
  match parse bytes with
  | .error e => ⟨{}, [e.diagnostic]⟩
  | .ok f => checkStage opts f

/-- The artifacts to keep, each with the ending of its file name. -/
def Compilation.artifacts (c : Compilation) : List (String × String) :=
  [(".json", c.tree), (".symbols.txt", c.symbols), (".ollir", c.listing), (".j", c.assembly)].filterMap
    fun (ending, text) => text.map fun t => (ending, t)

end JavaMinus
