import BranchingDialogue.CommandLine.Run

/-!
# The program

The command line on the files of the machine.
-/

namespace BranchingDialogue

/-- What the machine says about a failed operation. -/
def FileError.ofMachine : IO.Error → FileError
  | .noFileOrDirectory .. => .absent
  | .alreadyExists .. => .occupied
  | .inappropriateType .. => .isFolder
  | e => .other (toString e)

/-- Runs an operation of the machine. -/
def attempt {α : Type} (action : IO α) : IO (Except FileError α) :=
  try .ok <$> action catch e => return .error (.ofMachine e)

/-- What is at a path, seen from the folder the program runs in. -/
def entryAt (path : String) : IO.FS.DirEntry := ⟨".", path⟩

/-- The paths of all files below a folder. -/
partial def filesBelow (folder : String) : IO (List String) := do
  let entries ← (entryAt folder).path.readDir
  let names := (entries.map (·.fileName)).toList.mergeSort (· ≤ ·)
  let found ← names.mapM fun name => do
    let path := joinPath folder name
    if ← (entryAt path).path.isDir then filesBelow path else return [path]
  return found.flatten

/-- The files of the machine. -/
def machineFiles : FileOps IO where
  present path := (entryAt path).path.pathExists
  isFolder path := (entryAt path).path.isDir
  read path := attempt (IO.FS.readBinFile path)
  filesBelow path := try filesBelow path catch _ => return []
  createFolders path :=
    if path.isEmpty then return .ok () else attempt (IO.FS.createDirAll path)
  write path text := attempt (IO.FS.writeFile path text)

end BranchingDialogue

/-- Runs the program. -/
def main (args : List String) : IO UInt32 := do
  let result ← BranchingDialogue.runProgram BranchingDialogue.machineFiles args
  IO.print result.output
  IO.eprint result.complaint
  return result.code.toUInt32
