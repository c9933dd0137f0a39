import HornPlan.Error

/-!
# Files

A session works in one directory and opens files by paths.  A path is followed name by name, and
every name but the last one has to lead to a directory.  Of the tree around the working directory
only a few directories are known, and nothing makes new ones, so that a path which leaves the known
ones ends at a file, at nothing, or with an error.

What is written to the null device is gone, and reading it gives nothing.
-/

namespace HornPlan

/-- Where names are followed from: the root, or the directory so many levels above the working
directory. -/
inductive Anchor
  | root
  | above (levels : Nat)
  deriving DecidableEq

/-- A place in the tree of directories: the names to follow from an anchor. -/
structure Place where
  anchor : Anchor
  names : List String
  deriving DecidableEq

namespace Place

/-- The working directory. -/
def working : Place :=
  ⟨.above 0, []⟩

/-- The root. -/
def root : Place :=
  ⟨.root, []⟩

/-- The null device. -/
def nullDevice : Place :=
  ⟨.root, ["dev", "null"]⟩

/-- The place a name leads to. -/
def child (place : Place) (name : String) : Place :=
  { place with names := place.names ++ [name] }

/-- The directory that holds a place; the root holds itself. -/
def parent (place : Place) : Place :=
  match place with
  | ⟨.above levels, []⟩ => ⟨.above (levels + 1), []⟩
  | ⟨anchor, names⟩ => ⟨anchor, names.dropLast⟩

/-- A path to a place. -/
def path (place : Place) : String :=
  match place.anchor with
  | .root => "/" ++ "/".intercalate place.names
  | .above levels => "/".intercalate (List.replicate levels ".." ++ place.names)

end Place

/-- The known directories, and the texts of files in the order in which they were first written.
The working directory and those above it are always known. -/
structure Files where
  directories : List Place
  texts : List (Place × String)

namespace Files

/-- The directories that every system has at its root. -/
def standardDirectories : List String :=
  ["bin", "boot", "dev", "etc", "home", "lib", "media", "mnt", "opt", "proc", "root", "run", "sbin",
   "srv", "sys", "tmp", "usr", "var"]

/-- No files, among the directories that every system has. -/
def empty : Files :=
  ⟨standardDirectories.map fun name => ⟨.root, [name]⟩, []⟩

/-- A place is a directory. -/
def isDirectory (files : Files) (place : Place) : Bool :=
  place.names.isEmpty || files.directories.contains place

/-- A place is a file. -/
def isFile (files : Files) (place : Place) : Bool :=
  place = .nullDevice || files.texts.any (·.1 = place)

/-- The most bytes in a name. -/
def maxName : Nat := 255

/-- The most bytes in a path. -/
def maxPath : Nat := 4095

/-! ## Paths -/

/-- Follows names from a place.  An empty name and a single point stay where they are, and two
points lead to the directory above. -/
def follow (files : Files) : Place → List String → Except FileFault Place
  | place, [] => .ok place
  | place, name :: names =>
    if files.isDirectory place then
      if name = "" ∨ name = "." then files.follow place names
      else if name = ".." then files.follow place.parent names
      else if maxName < name.utf8ByteSize then .error .tooLong
      else files.follow (place.child name) names
    else .error (if files.isFile place then .notDirectory else .noSuchFile)

/-- The place a path starts from, and its names. -/
def split (path : String) : Except FileFault (Place × List String) :=
  if path.toList.contains '\x00' then .error .invalidPath
  else if maxPath < path.utf8ByteSize then .error .tooLong
  else .ok (if path.startsWith "/" then .root else .working, path.splitOn "/")

/-- The place of a file that is there. -/
def find (files : Files) (path : String) : Except FileFault Place := do
  let (start, names) ← split path
  let place ← files.follow start names
  if files.isDirectory place then throw .isDirectory
  else if files.isFile place then return place
  else throw .noSuchFile

/-- The place of a file to write, which need not be there.  A path that ends with a slash can only
be that of a directory. -/
def target (files : Files) (path : String) : Except FileFault Place := do
  let (start, names) ← split path
  let trimmed := (names.reverse.dropWhile (· = "")).reverse
  let parent ← files.follow start trimmed.dropLast
  if files.isDirectory parent && trimmed.length < names.length then throw .isDirectory
  let place ← files.follow parent trimmed.getLast?.toList
  if files.isDirectory place then throw .isDirectory
  return place

/-! ## Reading and writing -/

/-- The text at a place. -/
def text (files : Files) (place : Place) : String :=
  (files.texts.lookup place).getD ""

/-- Puts a text at a place. -/
def put (files : Files) (place : Place) (text : String) : Files :=
  if place = .nullDevice then files
  else if files.texts.any (·.1 = place) then
    { files with
      texts := files.texts.map fun file => if file.1 = place then (place, text) else file }
  else { files with texts := files.texts ++ [(place, text)] }

/-- The text of a file. -/
def read? (files : Files) (path : String) : Except Error String :=
  ((files.find path).map files.text).mapError .file

/-- Writes a file. -/
def write? (files : Files) (path text : String) : Except Error Files :=
  ((files.target path).map fun place => files.put place text).mapError .file

end Files

end HornPlan
