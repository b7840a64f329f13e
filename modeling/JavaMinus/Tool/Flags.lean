import JavaMinus.Text.Decimal

/-!
# Flags

A flag starts with one or two dashes. Its value follows in the same argument
after an equals sign or a blank, or else is the next argument; a switch needs no
value. A flag holds a value from the start, and the last value that is given
counts.

A command knows its own flags and those of the command above it. Arguments that
are no flags are left to a command that takes arguments; for another command
they are the end of its flags.
-/

namespace JavaMinus.Tool

/-- What a flag holds. The flag that asks for help holds nothing. -/
inductive FlagValue where
  | switch (on : Bool)
  | number (n : Int)
  | text (s : String)
  | help
  deriving DecidableEq, Repr, Inhabited

/-- A flag: its names, what it holds, and what it is for. -/
structure Flag where
  names : List String
  value : FlagValue
  description : String
  deriving DecidableEq, Repr, Inhabited

/-- What is wrong with a flag. -/
inductive FlagError where
  | unknown
  | noValue
  | notBool
  | notNumber (value : String) (problem : Decimal.Problem)
  deriving DecidableEq, Repr, Inhabited

/-- What an error says. -/
def FlagError.message : FlagError → String
  | unknown => "no such flag"
  | noValue => "flag value is required"
  | notBool => "not a bool value"
  | notNumber value problem => problem.message value

/-- The words that turn a switch on. -/
def onWords : List String := ["", "1", "t", "true", "y", "yes"]

/-- The words that turn a switch off. -/
def offWords : List String := ["0", "f", "false", "n", "no"]

namespace FlagValue

/-- Read a value of the same kind. -/
def read : FlagValue → String → Except FlagError FlagValue
  | switch _, s =>
    if s.toLower ∈ onWords then .ok (switch true)
    else if s.toLower ∈ offWords then .ok (switch false)
    else .error .notBool
  | number _, s =>
    match Decimal.read s with
    | .ok n => .ok (number n)
    | .error e => .error (.notNumber s e)
  | text _, s => .ok (text s)
  | help, _ => .ok help

/-- The text that stands for a value that is left out. -/
def implied? : FlagValue → Option String
  | switch _ => some ""
  | help => some ""
  | _ => none

/-- How a value is shown, unless it is empty. -/
def shown? : FlagValue → Option String
  | switch on => some (if on then "true" else "false")
  | number n => some (toString n)
  | text "" => none
  | text s => some s
  | help => none

end FlagValue

/-! ## Arguments -/

/-- An argument is a flag. -/
def isFlag (arg : String) : Bool := arg.toList.head? = some '-' && arg ≠ "-" && arg ≠ "--"

/-- The text of an argument after its dashes, of which two at most count. -/
def flagBody (arg : String) : List Char :=
  match arg.toList with
  | '-' :: '-' :: body => body
  | '-' :: body => body
  | body => body

/-- The name of a flag ends where its value starts. -/
def isNameEnd (c : Char) : Bool := c = '=' || c = ' '

/-- The name in an argument. -/
def flagName (arg : String) : String :=
  String.ofList ((flagBody arg).takeWhile fun c => !isNameEnd c)

/-- The value in an argument, if it has one. -/
def flagValue? (arg : String) : Option String :=
  match (flagBody arg).dropWhile fun c => !isNameEnd c with
  | _ :: value => some (String.ofList value)
  | [] => none

/-- The first flag of a name. -/
def findFlag (flags : List Flag) (name : String) : Option Flag :=
  flags.find? fun f => f.names.contains name

/-- Give the flags of a name a value. -/
def setFlag (flags : List Flag) (name : String) (v : FlagValue) : List Flag :=
  flags.map fun f => if f.names.contains name then { f with value := v } else f

/-- A command in use: its flags, those of the command above it, and the arguments
that are no flags. -/
structure Invocation where
  own : List Flag := []
  inherited : List Flag := []
  args : List String := []
  deriving DecidableEq, Repr, Inhabited

namespace Invocation

/-- The flag of a name: an own one, or else an inherited one. -/
def flag? (i : Invocation) (name : String) : Option Flag :=
  (findFlag i.own name).or (findFlag i.inherited name)

/-- Give a flag a value. -/
def set (i : Invocation) (name : String) (v : FlagValue) : Invocation :=
  if (findFlag i.own name).isSome then { i with own := setFlag i.own name v }
  else { i with inherited := setFlag i.inherited name v }

/-- One more argument that is no flag. -/
def addArg (i : Invocation) (arg : String) : Invocation := { i with args := i.args ++ [arg] }

/-- What the flag of a name holds. -/
def value? (i : Invocation) (name : String) : Option FlagValue := (i.flag? name).map Flag.value

/-- The number that a flag holds. -/
def number (i : Invocation) (name : String) : Int :=
  match i.value? name with
  | some (.number n) => n
  | _ => 0

/-- The text that a flag holds. -/
def text (i : Invocation) (name : String) : String :=
  match i.value? name with
  | some (.text s) => s
  | _ => ""

/-- A switch is on. -/
def isOn (i : Invocation) (name : String) : Bool :=
  i.value? name = some (.switch true)

end Invocation

/-- What arguments ask for: to run a command, or to explain it. -/
inductive Parsed where
  | run (i : Invocation)
  | help (i : Invocation)
  deriving DecidableEq, Repr, Inhabited

/-- Give a flag the value that a text stands for. An error names the argument. -/
def giveValue (i : Invocation) (arg : String) (f : Flag) (s : String) :
    Except (String × FlagError) Invocation :=
  match f.value.read s with
  | .ok v => .ok (i.set (flagName arg) v)
  | .error e => .error (arg, e)

/-- Sort arguments. After `--` nothing is a flag any more. For a command that takes
no arguments the first one that is no flag ends the work, and it is left with
all that follow. -/
def parseArgs (takesArgs : Bool) (i : Invocation) :
    List String → Except (String × FlagError) Parsed
  | [] => .ok (.run i)
  | arg :: rest =>
    if isFlag arg then
      match i.flag? (flagName arg) with
      | none => .error (arg, .unknown)
      | some f =>
        if f.value = .help then .ok (.help i)
        else
          match (flagValue? arg).or f.value.implied? with
          | some s =>
            match giveValue i arg f s with
            | .ok next => parseArgs takesArgs next rest
            | .error e => .error e
          | none =>
            match rest with
            | [] => .error (arg, .noValue)
            | s :: others =>
              match giveValue i arg f s with
              | .ok next => parseArgs takesArgs next others
              | .error e => .error e
    else if !takesArgs then .ok (.run { i with args := arg :: rest })
    else if arg = "--" then .ok (.run { i with args := i.args ++ rest })
    else parseArgs takesArgs (i.addArg arg) rest

/-! ## Explaining a command -/

/-- A command: its name, what it does, its flags, and whether it takes arguments. -/
structure Command where
  name : String
  description : String
  flags : List Flag := []
  takesArgs : Bool := true
  deriving DecidableEq, Repr, Inhabited

/-- The least width of the first column of a list. -/
def columnWidth : Nat := 20

/-- A line of a list: a word and what it means. -/
def helpLine (word meaning : String) : String :=
  "    " ++ word ++ String.ofList (List.replicate (columnWidth - word.length) ' ') ++ " - " ++
    meaning ++ "\n"

/-- A list with a heading, unless it is empty. -/
def helpSection (heading : String) (lines : List String) : String :=
  if lines.isEmpty then "" else "\n" ++ heading ++ "\n" ++ String.join lines

/-- A flag in a list, with the value that it holds now. -/
def Flag.line (f : Flag) : String :=
  let word := ",".intercalate f.names ++ if f.value = .help then "=[hidden]" else ""
  let now := match f.value.shown? with
    | some s => " (default " ++ s ++ ")"
    | none => ""
  helpLine word (f.description ++ now)

/-- The explanation of a command, with the commands below it and the name of the
command above it. -/
def Command.help (c : Command) (below : List Command) (above : String) (i : Invocation) : String :=
  c.name ++ " [" ++ (if c.takesArgs then "flags_and_args" else "flags") ++ "] - " ++
    c.description ++ "\n" ++
    helpSection "Subcommands" (below.map fun s => helpLine s.name s.description) ++
    helpSection "Flags" (i.own.map Flag.line) ++
    helpSection ("Flags of parent command " ++ above) (i.inherited.map Flag.line)

end JavaMinus.Tool
