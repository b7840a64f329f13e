import JavaMinus.Syntax.Printer
import JavaMinus.Tool.Jasmin

/-!
# The command line

The first argument that is no flag names the command: `compile`, `parse` or
`fmt`. What follows are the arguments of the command. Without a command the tool
explains itself.
-/

namespace JavaMinus.Tool

/-! ## Flags and commands -/

/-- The tool itself. Its flags can be given to every command. -/
def toolCommand : Command where
  name := "jmmc"
  description := "jmmc compiles Java-- classes for the JVM"
  flags := [
    ⟨["verbosity", "v"], .text "", "tlog verbosity topics"⟩,
    ⟨["help", "h"], .help, "print command help end exit"⟩]
  takesArgs := false

/-- The command that compiles files. -/
def compileCommand : Command where
  name := "compile"
  description := "compile JMM files to Jasmin assembly"
  flags := [
    ⟨["o"], .switch false, "enable constant propagation and folding"⟩,
    ⟨["r"], .number 0, "max JVM local slots per method, 0 is unconstrained"⟩,
    ⟨["out"], .text ".", "output directory"⟩,
    ⟨["jasmin"], .text "", "path to jasmin.jar, assemble if set"⟩,
    ⟨["java"], .text "java", "java binary"⟩,
    ⟨["run"], .switch false, "run the assembled class"⟩,
    ⟨["jobs", "j"], .number 4, "files compiled in parallel"⟩]

/-- The command that prints trees. -/
def parseCommand : Command where
  name := "parse"
  description := "print the syntax tree"

/-- The command that prints files in their standard form. -/
def formatCommand : Command where
  name := "fmt"
  description := "pretty print source files"

/-- The commands of the tool. -/
def commands : List Command := [compileCommand, parseCommand, formatCommand]

/-! ## What commands do -/

/-- The tree of a source file whose syntax is in order. -/
def readTree (name : String) : Session (Syntax.File Pos) := do
  let data ← ((Session.read name).within "read file").within ("parse " ++ name)
  match Syntax.parse data.toList with
  | .ok f => return f
  | .error e =>
    let _ ← Session.showReports name [e.diagnostic]
    throw (.syntaxErrors name)

/-- Print source files in their standard form. -/
def formatFiles (names : List String) : Session Unit :=
  names.forM fun name => do
    let f ← readTree name
    match f.print with
    | .ok text => Session.print text
    | .error e =>
      throw (.within ("format " ++ name) (.print (e.message?.getD "nested too deep")))

/-- Print the trees of source files. -/
def parseFiles (names : List String) : Session Unit :=
  names.forM fun name => do
    let f ← readTree name
    Session.print ("ast: " ++ f.print.toOption.getD "" ++ "\n")

/-- What `compile` does with a file that has been compiled: show what was found,
write the artifacts, and assemble and run the class if asked to. The result
tells whether the file has errors. -/
def finishFile (programs : Programs) (j : Jasmin) (out : String) (runs : Bool)
    (entry : String × Logged Compilation) : Session Bool := do
  let (name, ⟨c, reports⟩) := entry
  let isBad ← Session.showReports name reports
  let _ ← (writeArtifacts out c).within (name ++ ": write artifacts")
  if isBad || j.jar = "" then
    return isBad
  else
    (j.assemble programs c.className (c.assembly.getD "").toUTF8 out).within (name ++ ": assemble")
    if runs then
      let text ← (j.run programs out c.className).within (name ++ ": run")
      Session.print text
    return isBad

/-- Compile source files. -/
def compileFiles (programs : Programs) (i : Invocation) : Session Unit := do
  let opts : Options := ⟨i.isOn "o", i.number "r"⟩
  match opts.validate with
  | .error e => throw (.within "-r" (.options e))
  | .ok _ => pure ()
  if i.args.isEmpty then throw .noInput
  let results ← (compileBatch opts i.args).within "compile"
  let j : Jasmin := ⟨i.text "jasmin", i.text "java"⟩
  let bad ← (i.args.zip results).mapM (finishFile programs j (i.text "out") (i.isOn "run"))
  let failed := bad.countP id
  if failed ≠ 0 then throw (.filesFailed failed i.args.length)

/-! ## Running the tool -/

/-- What a command does with its arguments. -/
def runAction (programs : Programs) (c : Command) (i : Invocation) : Session Unit :=
  if c.name = compileCommand.name then compileFiles programs i
  else if c.name = parseCommand.name then parseFiles i.args
  else formatFiles i.args

/-- Run a command, which also knows the flags of the tool. -/
def runCommand (programs : Programs) (c : Command) (inherited : List Flag) (args : List String) :
    Session Unit :=
  match parseArgs c.takesArgs { own := c.flags, inherited } args with
  | .error (arg, e) => throw (.flag arg e)
  | .ok (.help i) => Session.print (c.help [] toolCommand.name i)
  | .ok (.run i) => runAction programs c i

/-- Run the tool with the arguments of the command line. -/
def runTool (programs : Programs) (args : List String) : Session Unit :=
  let explain (i : Invocation) := Session.print (toolCommand.help commands "" i)
  match parseArgs toolCommand.takesArgs { own := toolCommand.flags } args with
  | .error (arg, e) => throw (.flag arg e)
  | .ok (.help i) => explain i
  | .ok (.run i) =>
    match i.args with
    | [] => explain i
    | name :: rest =>
      match commands.find? fun c => c.name = name with
      | some c => (runCommand programs c i.own rest).within c.name
      | none => throw (.noArgs name)

/-- Run the tool to its end: the world that it leaves and its exit status. A failure
is the last thing that is shown. -/
def session (programs : Programs) (args : List String) (files : Files) : World × Nat :=
  match runTool programs args { files } with
  | (.ok _, w) => (w, 0)
  | (.error e, w) => ({ w with stderr := w.stderr ++ ["error: " ++ e.message] }, 1)

end JavaMinus.Tool
