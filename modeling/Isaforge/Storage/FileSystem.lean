import Isaforge.Storage.Path

/-!
# A file system

A file system is a tree of directories and files, kept as a map from places, the names from the
root, to what is there.  The root is always a directory.  A path is followed name by name from
the root or from the working directory; every name but the last has to lead to a directory.

The operations are those that writing generated sources takes: make a directory with all that
are missing above it, read a file, and write one.
-/

namespace Isaforge.Storage

/-- A place in the tree: the names from the root. -/
abbrev Place := Array String

/-- Contents are compared byte by byte. -/
instance (priority := high) contentDecidableEq : DecidableEq ByteArray :=
  ByteArray.decEq

/-- What can be at a place. -/
inductive Node where
  | directory
  | file (content : ByteArray)
deriving DecidableEq

/-- A tree of directories and files, with a working directory. -/
structure FileSystem where
  nodes : List (Place × Node) := []
  workingDirectory : Place := #[]

namespace FileSystem

/-- What is at a place. -/
def node? (fs : FileSystem) (place : Place) : Option Node :=
  if place.isEmpty then some .directory else fs.nodes.lookup place

/-- The file system with `node` at a place, in the stead of what was there. -/
def put (fs : FileSystem) (place : Place) (node : Node) : FileSystem :=
  { fs with nodes := fs.nodes.filter (·.1 ≠ place) ++ [(place, node)] }

/-- The place that a name leads to from a place. -/
def step (place : Place) (name : String) : Place :=
  if name = "." then place
  else if name = ".." then place.pop
  else place.push name

/-- Follow names to a directory from a place that is one. -/
def enter (fs : FileSystem) (place : Place) : List String → Except FileFault Place
  | [] => .ok place
  | name :: names =>
    if Path.maxNameBytes < name.utf8ByteSize then .error .nameTooLong
    else
      let next := step place name
      match fs.node? next with
      | none => .error .notFound
      | some (.file _) => .error .notADirectory
      | some .directory => enter fs next names

/-- The place of the directory that the names before the last one lead to. -/
def holder (fs : FileSystem) (p : Path) : Except FileFault Place :=
  match p.fault? with
  | some fault => .error fault
  | none => fs.enter (if p.isAbsolute then #[] else fs.workingDirectory) p.names.dropLast

/-- The place of a path, which need not hold anything. -/
def locate (fs : FileSystem) (p : Path) : Except FileFault Place := do
  let place ← fs.holder p
  let last := p.names.getLast?.getD "."
  if Path.maxNameBytes < last.utf8ByteSize then throw .nameTooLong
  if last = "." && (fs.node? place).isNone then throw .notFound
  return step place last

/-- There is a directory at the path. -/
def isDirectory (fs : FileSystem) (p : Path) : Bool :=
  match fs.locate p with
  | .ok place => fs.node? place = some .directory
  | .error _ => false

/-- Make a directory, where there is nothing yet. -/
def makeDirectory (fs : FileSystem) (p : Path) : Except FileFault FileSystem := do
  let place ← fs.locate p
  if (fs.node? place).isSome then throw .alreadyExists
  return fs.put place .directory

/-- Make the directories of a list, in order, up to the first that cannot be made; one that is
there already is left. -/
def makeEach (fs : FileSystem) : List Path → FileSystem × Except FileFault Unit
  | [] => (fs, .ok ())
  | p :: ps =>
    match fs.makeDirectory p with
    | .ok fs => makeEach fs ps
    | .error fault => if fs.isDirectory p then makeEach fs ps else (fs, .error fault)

/-- Go up a chain of paths to the first that is a directory or can be made one, and come back
with those below it, `missing`, still to be made. -/
def makeUpwards (fs : FileSystem) (missing : List Path) :
    List Path → Except FileFault (FileSystem × List Path)
  | [] => .ok (fs, missing)
  | p :: ps =>
    match fs.makeDirectory p with
    | .ok fs => .ok (fs, missing)
    | .error .notFound => makeUpwards fs (p :: missing) ps
    | .error fault => if fs.isDirectory p then .ok (fs, missing) else .error fault

/-- Make a directory and those that are missing above it.  Directories that were made before one
that cannot be stay. -/
def makeDirectories (fs : FileSystem) (p : Path) : FileSystem × Except FileFault Unit :=
  match fs.makeUpwards [] p.chain with
  | .error fault => (fs, .error fault)
  | .ok (fs, missing) => fs.makeEach missing

/-- The content of the file at the path. -/
def read? (fs : FileSystem) (p : Path) : Option ByteArray :=
  match fs.locate p with
  | .error _ => none
  | .ok place =>
    match fs.node? place with
    | some (.file content) => if p.ofDirectory then none else some content
    | some .directory | none => none

/-- Write a file, in the stead of one that is there; a path that is meant to lead to a directory
is refused whatever is there. -/
def write (fs : FileSystem) (p : Path) (content : ByteArray) : Except FileFault FileSystem := do
  let _ ← fs.holder p
  if p.ofDirectory then throw .isADirectory
  let place ← fs.locate p
  if fs.node? place = some .directory then throw .isADirectory
  return fs.put place (.file content)

/-- Write a text to a file unless the file holds it already; says whether the file was
written. -/
def update (fs : FileSystem) (p : Path) (text : String) : Except FileFault (FileSystem × Bool) :=
  if fs.read? p = some text.toUTF8 then .ok (fs, false)
  else do return (← fs.write p text.toUTF8, true)

/-- The files with their places and contents. -/
def files (fs : FileSystem) : List (Place × ByteArray) :=
  fs.nodes.filterMap fun (place, node) =>
    match node with
    | .file content => some (place, content)
    | .directory => none

end FileSystem

end Isaforge.Storage
