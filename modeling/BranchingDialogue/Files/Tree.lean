import BranchingDialogue.Files.Basic

/-!
# Trees of files

A file system in memory: folders with entries in the order of their names. Paths start from the root.
-/

namespace BranchingDialogue

/-- A file or a folder. -/
inductive FileTree where
  | file (bytes : ByteArray)
  | folder (entries : List (String × FileTree))

namespace FileTree

instance : Inhabited FileTree := ⟨.folder []⟩

/-- The parts of a path that say something. -/
def parts (path : String) : List String :=
  ((path.splitOn "/").filter fun s => s ≠ "" ∧ s ≠ ".")

/-- Whether a path can only lead to a folder. -/
def wantsFolder (path : String) : Bool := path.toList.getLast? == some '/'

/-- The entry of a name. -/
def entry? (name : String) (entries : List (String × FileTree)) : Option FileTree :=
  (entries.find? fun e => decide (e.1 = name)).map (·.2)

/-- Puts an entry at its place, in exchange for the one with the same name if there is one. -/
def setEntry (name : String) (t : FileTree) :
    List (String × FileTree) → List (String × FileTree)
  | [] => [(name, t)]
  | (n, u) :: rest =>
    if name < n then (name, t) :: (n, u) :: rest
    else if name = n then (name, t) :: rest
    else (n, u) :: setEntry name t rest

/-- What parts of a path lead to, from a tree on; `above` are the folders passed, nearest first. -/
def follow (above : List FileTree) (t : FileTree) : List String → Except FileError FileTree
  | [] => .ok t
  | name :: rest =>
    match t with
    | .file _ => .error .notFolder
    | .folder entries =>
      if name = ".." then
        match above with
        | [] => .error .absent
        | parent :: above => follow above parent rest
      else
        match entry? name entries with
        | none => .error .absent
        | some u => follow (t :: above) u rest

/-- What is at a path. Paths from the root of a machine lead nowhere. -/
def find (t : FileTree) (path : String) : Except FileError FileTree :=
  if path.isEmpty ∨ path.toList.head? = some '/' then .error .absent
  else
    match follow [] t (parts path) with
    | .ok (.file bytes) => if wantsFolder path then .error .notFolder else .ok (.file bytes)
    | result => result

/-- The bytes of the file at a path. -/
def read (t : FileTree) (path : String) : Except FileError ByteArray :=
  match t.find path with
  | .error e => .error e
  | .ok (.file bytes) => .ok bytes
  | .ok (.folder _) => .error .isFolder

/-- Whether there is a folder at a path. -/
def isFolder (t : FileTree) (path : String) : Bool :=
  match t.find path with
  | .ok (.folder _) => true
  | _ => false

mutual

/-- The paths of the files in a tree at some path. -/
def filesAt (path : String) : FileTree → List String
  | .file _ => [path]
  | .folder entries => filesIn path entries

/-- The paths of the files in the entries of a folder. -/
def filesIn (path : String) : List (String × FileTree) → List String
  | [] => []
  | (name, t) :: rest => filesAt (joinPath path name) t ++ filesIn path rest

end

/-- The paths of the files below the folder at a path. -/
def filesBelow (t : FileTree) (path : String) : List String :=
  match t.find path with
  | .ok (.folder entries) => filesIn path entries
  | _ => []

/-- Makes the missing folders on a path. -/
def makeFolders : List String → FileTree → Except FileError FileTree
  | [], t => .ok t
  | _ :: _, .file _ => .error .notFolder
  | name :: rest, .folder entries =>
    match entry? name entries with
    | some (.file _) => .error (if rest.isEmpty then .occupied else .notFolder)
    | found =>
      match makeFolders rest (found.getD (.folder [])) with
      | .error e => .error e
      | .ok u => .ok (.folder (setEntry name u entries))

/-- Writes a file into a folder that is there. -/
def put (bytes : ByteArray) : List String → FileTree → Except FileError FileTree
  | [], _ => .error .isFolder
  | _ :: _, .file _ => .error .notFolder
  | [name], .folder entries =>
    match entry? name entries with
    | some (.folder _) => .error .isFolder
    | _ => .ok (.folder (setEntry name (.file bytes) entries))
  | name :: next :: rest, .folder entries =>
    match entry? name entries with
    | none => .error .absent
    | some u =>
      match put bytes (next :: rest) u with
      | .error e => .error e
      | .ok u => .ok (.folder (setEntry name u entries))

/-- Writes a file at a path. -/
def write (t : FileTree) (path text : String) : Except FileError FileTree :=
  if wantsFolder path then
    .error (match follow [] t (parts path) with | .ok (.file _) => .notFolder | _ => .isFolder)
  else put text.toUTF8 (parts path) t

/-- The tree of some texts at paths, and the folders they lie in. -/
def ofTexts (files : List (String × String)) : FileTree :=
  files.foldl
    (fun t (path, text) =>
      match makeFolders (parts path).dropLast t with
      | .error _ => t
      | .ok u => match u.write path text with | .ok v => v | .error _ => u)
    (.folder [])

/-- Changes the tree of a state, if it can be changed. -/
def update (f : FileTree → Except FileError FileTree) :
    StateM FileTree (Except FileError Unit) := do
  match f (← get) with
  | .error e => return .error e
  | .ok t =>
    set t
    return .ok ()

/-- Operations on a tree. -/
def ops : FileOps (StateM FileTree) where
  present path := do return (← get).find path |>.isOk
  isFolder path := do return (← get).isFolder path
  read path := do return (← get).read path
  filesBelow path := do return (← get).filesBelow path
  createFolders path := update (makeFolders (parts path))
  write path text := update (·.write path text)

end FileTree

end BranchingDialogue
