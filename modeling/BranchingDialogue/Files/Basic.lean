/-!
# Files

What the command line wants of a file system. It is written over these operations, so it runs on real
files as well as on a tree of files in memory.
-/

namespace BranchingDialogue

/-- Why an operation on files fails. -/
inductive FileError where
  /-- There is nothing at a path. -/
  | absent
  /-- There is a file already. -/
  | occupied
  /-- A part of a path is no folder. -/
  | notFolder
  /-- A path leads to a folder. -/
  | isFolder
  /-- The bytes of a file are no text. -/
  | notText
  /-- Something else. -/
  | other (reason : String)
  deriving DecidableEq, Repr

/-- The message of a failed operation. -/
def FileError.message : FileError → String
  | .absent => "No such file or directory (os error 2)"
  | .occupied => "File exists (os error 17)"
  | .notFolder => "Not a directory (os error 20)"
  | .isFolder => "Is a directory (os error 21)"
  | .notText => "stream did not contain valid UTF-8"
  | .other reason => reason

/-- Operations on files. -/
structure FileOps (m : Type → Type) where
  /-- Whether there is anything at a path. -/
  present : String → m Bool
  /-- Whether there is a folder at a path. -/
  isFolder : String → m Bool
  /-- The bytes of a file. -/
  read : String → m (Except FileError ByteArray)
  /-- The paths of all files below a folder, in the order of their names at each level. -/
  filesBelow : String → m (List String)
  /-- Makes all missing folders on a path. -/
  createFolders : String → m (Except FileError Unit)
  /-- Writes a file. -/
  write : String → String → m (Except FileError Unit)

/-- The text of a file's bytes. -/
def FileError.decode (bytes : ByteArray) : Except FileError String :=
  match String.fromUTF8? bytes with
  | some text => .ok text
  | none => .error .notText

/-- A path below a folder. -/
def joinPath (folder name : String) : String :=
  if folder.toList.getLast? = some '/' then folder ++ name else folder ++ "/" ++ name

/-- The path of the folder that a path lies in; empty if there is none, and nothing above the root. -/
def parentPath? (path : String) : Option String :=
  let cs := path.toList.reverse
  match cs.dropWhile (· == '/') with
  | [] => none
  | last =>
    match last.dropWhile (· != '/') with
    | [] => some ""
    | above =>
      match above.dropWhile (· == '/') with
      | [] => some "/"
      | above => some (String.ofList above.reverse)

/-- Whether a file has the ending of documents, and a name before it. -/
def isDocumentName (name : String) : Bool :=
  let cs := name.toList
  let ending := ".json".toList
  ending.length < cs.length && ending.isSuffixOf cs

/-- The last part of a path. -/
def fileName (path : String) : String :=
  String.ofList (path.toList.reverse.takeWhile (· != '/')).reverse

end BranchingDialogue
