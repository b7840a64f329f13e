/-!
# Files

The file system as far as a tool reads and writes it. Paths are written with
slashes and may hold `.` and `..`; each directory on the way has to exist. A path
that does not start with a slash starts at the working directory.

The files are those of the user, and none of them may be executed.
-/

namespace JavaMinus.Tool

/-! ## Paths -/

/-- A place in the file system: the names on the way to it from the working
directory. The root is written `/` as a first name, and a name `..` for each
step up stands before all others. -/
abbrev Place := List String

namespace Place

/-- The place that one more part of a path leads to. -/
def step (here : Place) (part : String) : Place :=
  if part = "" ∨ part = "." then here
  else if part = ".." then
    match here.getLast? with
    | none => [".."]
    | some ".." => here ++ [".."]
    | some "/" => here
    | some _ => here.dropLast
  else here ++ [part]

/-- Where a path starts. -/
def start (path : String) : Place := if path.toList.head? = some '/' then ["/"] else []

/-- The place that a path leads to by its text alone. -/
def ofPath (path : String) : Place := (path.splitOn "/").foldl step (start path)

/-- The shortest path to a place. -/
def path : Place → String
  | [] => "."
  | "/" :: rest => "/" ++ "/".intercalate rest
  | names => "/".intercalate names

/-- A place in the working directory or below it. -/
def isBelow (p : Place) : Bool := p.head? ≠ some "/" && p.head? ≠ some ".."

end Place

/-- The path of a name in a directory, in its shortest form. -/
def joinPath (dir name : String) : String :=
  (Place.ofPath (if dir = "" then name else dir ++ "/" ++ name)).path

/-! ## Problems -/

/-- What can be wrong with a path. -/
inductive PathProblem where
  | notFound
  | notDirectory
  | isDirectory
  | taken
  | tooLong
  | invalid
  | denied
  deriving DecidableEq, Repr, Inhabited

/-- What a problem says. -/
def PathProblem.text : PathProblem → String
  | notFound => "no such file or directory"
  | notDirectory => "not a directory"
  | isDirectory => "is a directory"
  | taken => "file exists"
  | tooLong => "file name too long"
  | invalid => "invalid argument"
  | denied => "permission denied"

/-- An action on a path that failed. -/
structure FileError where
  action : String
  path : String
  problem : PathProblem
  deriving DecidableEq, Repr, Inhabited

/-- What a failure says. -/
def FileError.message (e : FileError) : String :=
  e.action ++ " " ++ e.path ++ ": " ++ e.problem.text

/-! ## What is where -/

/-- Directories, and files with their contents. The working directory, those above
it and the root need not be listed. -/
structure Files where
  dirs : List Place := []
  contents : List (Place × ByteArray) := []
  deriving Inhabited

/-- What a path leads to. -/
inductive Entry where
  | directory
  | file (data : ByteArray)
  deriving Inhabited

/-- The greatest number of bytes in a name. -/
def maxName : Nat := 255

/-- The greatest number of bytes in a path. -/
def maxPath : Nat := 4095

/-- A text has the byte zero, which ends texts for the system. -/
def hasZero (s : String) : Bool := s.toList.any fun c => c.toNat = 0

namespace Files

/-- A directory is at a place. -/
def isDir (fs : Files) (p : Place) : Bool :=
  p.all (· = "..") || p = ["/"] || fs.dirs.contains p

/-- The contents of the file at a place. -/
def file? (fs : Files) (p : Place) : Option ByteArray := fs.contents.lookup p

/-- What is at a place. -/
def entry? (fs : Files) (p : Place) : Option Entry :=
  if fs.isDir p then some .directory else (fs.file? p).map .file

/-- Put a file at a place. -/
def put (fs : Files) (p : Place) (data : ByteArray) : Files :=
  { fs with contents := (p, data) :: fs.contents.filter fun e => e.1 ≠ p }

/-- Put a directory at a place. -/
def addDir (fs : Files) (p : Place) : Files :=
  if fs.isDir p then fs else { fs with dirs := p :: fs.dirs }

/-- Put a file at a place, and directories on the way to it. -/
def install (fs : Files) (p : Place) (data : ByteArray) : Files :=
  (((List.range p.length).map p.take).foldl addDir fs).put p data

/-- Follow the parts of a path. What has been reached has to be a directory before
the next part is looked at. -/
def follow (fs : Files) (here : Place) : List String → Except PathProblem Place
  | [] => .ok here
  | part :: rest =>
    match fs.entry? here with
    | none => .error .notFound
    | some (.file _) => .error .notDirectory
    | some .directory =>
      if maxName < part.utf8ByteSize then .error .tooLong else follow fs (here.step part) rest

/-- The place that a path leads to, whether or not something is there. -/
def resolve (fs : Files) (path : String) : Except PathProblem Place :=
  if hasZero path then .error .invalid
  else if path = "" then .error .notFound
  else if maxPath < path.utf8ByteSize then .error .tooLong
  else fs.follow (.start path) (path.splitOn "/")

/-- What a path leads to. -/
def find (fs : Files) (path : String) : Except PathProblem Entry := do
  match fs.entry? (← fs.resolve path) with
  | some e => return e
  | none => throw .notFound

/-! ## Reading and writing -/

/-- Read a file. -/
def read (fs : Files) (path : String) : Except FileError ByteArray :=
  match fs.find path with
  | .ok (.file data) => .ok data
  | .ok .directory => .error ⟨"read", path, .isDirectory⟩
  | .error e => .error ⟨"open", path, e⟩

/-- Write a file, in a directory that exists. -/
def write (fs : Files) (path : String) (data : ByteArray) : Except FileError Files :=
  match fs.resolve path with
  | .error e => .error ⟨"open", path, e⟩
  | .ok p =>
    if fs.isDir p then .error ⟨"open", path, .isDirectory⟩ else .ok (fs.put p data)

/-! ## Making directories

Paths are taken as lists of characters from the end, so that what stands above a
path is a rest of it. -/

/-- The path above a path: without its last name and the slash before that. There
is none above a single name. -/
def above? (path : List Char) : Option (List Char) :=
  match (path.dropWhile (· = '/')).dropWhile (· ≠ '/') with
  | _ :: c :: rest => some (c :: rest)
  | _ => none

/-- What stands above a path is shorter. -/
theorem length_above? {path up : List Char} (h : above? path = some up) :
    up.length < path.length := by
  unfold above? at h
  split at h
  · next s c rest found =>
    cases h
    have inner := (List.dropWhile_suffix (l := path.dropWhile (· = '/')) (· ≠ '/')).length_le
    have outer := (List.dropWhile_suffix (l := path) (· = '/')).length_le
    rw [found] at inner
    simp only [List.length_cons] at inner ⊢
    omega
  · cases h

/-- Make one directory, in a directory that exists. Slashes at the end of the path
do not count, and nothing may be there yet. -/
def mkdir (fs : Files) (path : List Char) : Except PathProblem Files :=
  let name := String.ofList (path.dropWhile (· = '/')).reverse
  match fs.resolve name with
  | .error e => .error e
  | .ok p => if (fs.entry? p).isSome then .error .taken else .ok (fs.addDir p)

/-- Make a directory, unless there is one already. -/
def ensureDir (fs : Files) (path : List Char) : Files × Option FileError :=
  match fs.mkdir path with
  | .ok made => (made, none)
  | .error e =>
    let text := String.ofList path.reverse
    match fs.find text with
    | .ok .directory => (fs, none)
    | _ => (fs, some ⟨"mkdir", text, e⟩)

/-- Make a directory and those above it. Directories that were made before a
failure stay. -/
def makeDirs (fs : Files) (path : List Char) : Files × Option FileError :=
  match fs.find (String.ofList path.reverse) with
  | .ok .directory => (fs, none)
  | .ok (.file _) => (fs, some ⟨"mkdir", String.ofList path.reverse, .notDirectory⟩)
  | .error _ =>
    match _up : above? path with
    | none => fs.ensureDir path
    | some up =>
      match makeDirs fs up with
      | (made, none) => made.ensureDir path
      | failed => failed
termination_by path.length
decreasing_by exact length_above? _up

/-- Make a directory and those on the way to it, as far as they do not exist. -/
def mkdirAll (fs : Files) (path : String) : Files × Option FileError :=
  fs.makeDirs path.toList.reverse

end Files

end JavaMinus.Tool
