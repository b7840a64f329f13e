import JavaMinus.Tool.Session

/-!
# The assembler and the virtual machine

Class files are made by an external assembler, which is a Java program, and run
by the virtual machine itself. A program is known by what it does with its
arguments.

A name without a slash is that of an installed program. A name with a slash is a
path, and a path to anything but an installed program cannot be executed.
-/

namespace JavaMinus.Tool

/-- How a program ends: what it prints, or what it says and its exit status. -/
inductive Outcome where
  | success (stdout : String)
  | failure (stderr : String) (status : Nat)
  deriving DecidableEq, Repr, Inhabited

/-- The installed programs, by name and arguments. -/
abbrev Programs := String → Option (List String → Outcome)

/-- The programs that every machine has. -/
def basicPrograms : Programs := fun name =>
  if name = "true" then some fun _ => .success ""
  else if name = "false" then some fun _ => .failure "" 1
  else if name = "echo" then some fun args => .success (" ".intercalate args ++ "\n")
  else none

/-- The directories where programs are installed. -/
def programDirs : List String := ["/usr/bin", "/bin"]

/-- The path that an installed program is started by. -/
def installedPath (name : String) : String := joinPath "/usr/bin" name

/-- The installed program at a path. -/
def programAt? (programs : Programs) (path : String) : Option (List String → Outcome) :=
  let place := Place.ofPath path
  if programDirs.any (fun d => place.dropLast = Place.ofPath d) then
    place.getLast?.bind programs
  else none

/-- The program of a name, and the path that it is started by. -/
def findProgram (programs : Programs) (fs : Files) (name : String) :
    Except ToolError (String × (List String → Outcome)) :=
  if '/' ∈ name.toList then
    match programAt? programs name, fs.find name with
    | some run, _ => .ok (name, run)
    | none, .ok _ => .error (.noStart name .denied)
    | none, .error e => .error (.noStart name e)
  else
    match programs name with
    | some run => .ok (installedPath name, run)
    | none => .error (.noProgram name)

/-- Start a program. Arguments cannot hold the byte zero. -/
def startProgram (programs : Programs) (fs : Files) (name : String) (args : List String) :
    Except ToolError Outcome := do
  let (path, run) ← findProgram programs fs name
  if args.any hasZero then throw (.noStart path .invalid)
  return run args

/-- The external assembler: the path of its archive, and the program that runs it. -/
structure Jasmin where
  jar : String := ""
  java : String := ""
  deriving Repr, Inhabited

namespace Jasmin

/-- Run the virtual machine. -/
def exec (j : Jasmin) (programs : Programs) (args : List String) : Session String := do
  let java := if j.java = "" then "java" else j.java
  match startProgram programs (← get).files java args with
  | .ok (.success out) => return out
  | .ok (.failure err status) =>
    throw (.within (java ++ ": " ++ err.trimAscii.toString) (.exitStatus status))
  | .error e => throw (.within (java ++ ": ") e)

/-- Write an assembly text into a directory and assemble it there. -/
def assemble (j : Jasmin) (programs : Programs) (name : String) (source : ByteArray)
    (dir : String) : Session Unit := do
  if j.jar = "" then throw .noJar
  (Session.mkdirAll dir).within "mkdir"
  let path := joinPath dir (name ++ ".j")
  (Session.write path source).within "write source"
  let _ ← (j.exec programs ["-jar", j.jar, "-d", dir, path]).within "jasmin"
  return ()

/-- Run a class from a directory; the result is what it prints. -/
def run (j : Jasmin) (programs : Programs) (dir name : String) : Session String :=
  j.exec programs ["-cp", dir, name]

end Jasmin

end JavaMinus.Tool
