import JavaMinus.Tool.CommandLine

/-!
# The program

The files that arguments name are read, the session is run on them, and what it
changed is written back.
-/

namespace JavaMinus

open Tool

/-- Read the files that arguments name, as far as there are any. -/
def loadFiles (args : List String) : IO Files :=
  args.foldlM (fun (fs : Files) (arg : String) => do
    match ← (IO.FS.readBinFile arg).toBaseIO with
    | .ok data => return fs.install (.ofPath arg) data
    | .error _ => return fs) {}

/-- Write the files that a session made. -/
def storeFiles (before after : Files) : IO Unit := do
  for dir in after.dirs.reverse do
    IO.FS.createDirAll (Place.path dir)
  for (place, data) in after.contents do
    unless (before.file? place).map (·.toList) == some data.toList do
      IO.FS.writeBinFile (Place.path place) data

end JavaMinus

open JavaMinus Tool in
/-- Run the tool. -/
def main (args : List String) : IO UInt32 := do
  let files ← loadFiles args
  let (world, status) := session basicPrograms args files
  storeFiles files world.files
  IO.print world.stdout
  for line in world.stderr do
    IO.eprintln line
  return status.toUInt32
