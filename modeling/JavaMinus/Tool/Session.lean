import JavaMinus.Compiler
import JavaMinus.Tool.Files
import JavaMinus.Tool.Flags

/-!
# Sessions

A session is a run of the tool: it changes files and prints. What was done before
a failure stays done.
-/

namespace JavaMinus.Tool

/-- Why a run of the tool fails. -/
inductive ToolError where
  | file (e : FileError)
  | options (e : OptionError)
  | noJar
  | noInput
  | exitStatus (code : Nat)
  | noProgram (name : String)
  | noStart (path : String) (problem : PathProblem)
  | syntaxErrors (name : String)
  | print (message : String)
  | filesFailed (failed all : Nat)
  | noArgs (got : String)
  | flag (arg : String) (e : FlagError)
  | within (context : String) (cause : ToolError)
  deriving Repr, Inhabited

/-- What a failure says. A context without words is not named. -/
def ToolError.message : ToolError → String
  | file e => e.message
  | options e => e.message
  | noJar => "jasmin jar is not set"
  | noInput => "no input files"
  | exitStatus code => "exit status " ++ toString code
  | noProgram name => "exec: " ++ Quoted.text name ++ ": executable file not found in $PATH"
  | noStart path problem => "fork/exec " ++ path ++ ": " ++ problem.text
  | syntaxErrors name => name ++ ": syntax errors"
  | print message => message
  | filesFailed failed all => toString failed ++ " of " ++ toString all ++ " files failed"
  | noArgs got => "no args expected, got " ++ got
  | flag arg e => "parse flag: " ++ arg ++ ": " ++ e.message
  | within "" cause => cause.message
  | within context cause => context ++ ": " ++ cause.message

/-- Files, and what was printed so far. -/
structure World where
  files : Files := {}
  stdout : String := ""
  stderr : List String := []
  deriving Inhabited

/-- A part of a session. -/
abbrev Session := ExceptT ToolError (StateM World)

namespace Session

variable {α : Type}

/-- Name the part of the work in which a failure came up. -/
def within (context : String) (s : Session α) : Session α := fun w =>
  match s w with
  | (.ok a, w') => (.ok a, w')
  | (.error e, w') => (.error (.within context e), w')

/-- Read a file. -/
def read (path : String) : Session ByteArray := do
  match (← get).files.read path with
  | .ok data => return data
  | .error e => throw (.file e)

/-- Make a directory and those on the way to it. -/
def mkdirAll (path : String) : Session Unit := do
  let (made, failure?) := (← get).files.mkdirAll path
  modify fun w => { w with files := made }
  match failure? with
  | none => return ()
  | some e => throw (.file e)

/-- Write a file. -/
def write (path : String) (data : ByteArray) : Session Unit := do
  match (← get).files.write path data with
  | .ok fs => modify fun w => { w with files := fs }
  | .error e => throw (.file e)

/-- Print a text. -/
def print (text : String) : Session Unit := modify fun w => { w with stdout := w.stdout ++ text }

/-- Show diagnostics to the user, and tell whether there is an error. -/
def showReports (name : String) (ds : List Diagnostic) : Session Bool := do
  modify fun w => { w with stderr := w.stderr ++ ds.map fun d => name ++ ":" ++ d.text }
  return hasErrors ds

end Session

/-! ## Compiling files -/

/-- Compile a file. -/
def compileFile (opts : Options) (name : String) : Session (Logged Compilation) := do
  let data ← (Session.read name).within "read file"
  return compile opts data.toList

/-- Compile independent files. The first that cannot be read ends the work. -/
def compileBatch (opts : Options) (names : List String) : Session (List (Logged Compilation)) :=
  names.mapM fun name => (compileFile opts name).within name

/-- Write an artifact of a class into a directory. -/
def writeArtifact (dir : String) (c : Compilation) (artifact : String × String) :
    Session String := do
  let path := joinPath dir (c.className ++ artifact.1)
  (Session.write path artifact.2.toUTF8).within ("write " ++ path)
  return path

/-- Write the artifacts of the stages that were reached into a directory. Files are
named after the class; without a class there are none. -/
def writeArtifacts (dir : String) (c : Compilation) : Session (List String) := do
  if c.className = "" then
    return []
  else
    (Session.mkdirAll dir).within "mkdir"
    c.artifacts.mapM (writeArtifact dir c)

/-- A compiled file: its name, what the compiler made of it and found out, and the
files that were written for it. -/
structure BatchResult where
  name : String
  compiled : Logged Compilation
  written : List String

/-- Compile files, and then write the artifacts of each. -/
def batch (opts : Options) (names : List String) (dir : String) : Session (List BatchResult) := do
  let results ← compileBatch opts names
  (names.zip results).mapM fun (name, r) => do
    let written ← writeArtifacts dir r.value
    return ⟨name, r, written⟩

end JavaMinus.Tool
