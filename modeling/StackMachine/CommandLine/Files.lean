import StackMachine.Machine.Fault
import StackMachine.Text.Blank

/-!
Files, as a call of the command line sees them.

A path is followed name by name from the directory that the call is made in. The empty name and `.` stay where they
are, and `..` goes back; but whatever the name is, it can only be followed from a directory that exists. Above the
directory of the call there are directories too, of whose contents nothing is known.
-/

namespace StackMachine.CommandLine

/-- The bytes of each file that can be read, or why it cannot. -/
abbrev Files :=
  String → Except IoError ByteArray

def notFound : IoError :=
  .refused "No such file or directory" 2

def notDirectory : IoError :=
  .refused "Not a directory" 20

def isDirectory : IoError :=
  .refused "Is a directory" 21

inductive Entry where
  | file (content : ByteArray)
  | directory

/-- The directory that a call is made in: what lies below it, by the names that lead there. -/
structure Directory where
  entries : List (List String × Entry)

/-- Where a path has led so far. -/
inductive Place where
  /-- Below the directory of the call, or in it if there are no names. -/
  | below (names : List String)
  /-- In a directory above. -/
  | above

/-- The names in a path: what stands before, between and behind its slashes. -/
def pathNames (path : String) : List String :=
  (Text.split '/' path.toList).map String.ofList

/-- Whether a name leads nowhere else. -/
def staysPut (name : String) : Bool :=
  name = "" || name = "."

namespace Place

/-- Where a path starts: at the very top if it begins with a slash. -/
def start (path : String) : Place :=
  if path.toList.head? = some '/' then .above else .below []

def parent : Place → Place
  | .below [] => .above
  | .below names => .below names.dropLast
  | .above => .above

end Place

namespace Directory

/-- The directory whose entries have the given paths. -/
def ofPaths (entries : List (String × Entry)) : Directory :=
  ⟨entries.map fun (path, entry) => ((pathNames path).filter (!staysPut ·), entry)⟩

/-- What is at a place. What leads to an entry is a directory, even if it is no entry itself. -/
def entryAt (directory : Directory) : Place → Except IoError Entry
  | .above => .ok .directory
  | .below names =>
    match directory.entries.lookup names with
    | some entry => .ok entry
    | none =>
      if names.isEmpty || directory.entries.any fun entry => names.isPrefixOf entry.1 then .ok .directory
      else .error notFound

/-- Follows one name. -/
def enter (directory : Directory) (place : Place) (name : String) : Except IoError Place := do
  match ← directory.entryAt place with
  | .file _ => throw notDirectory
  | .directory =>
    if staysPut name then pure place
    else if name = ".." then pure place.parent
    else
      match place with
      | .below names => pure (.below (names ++ [name]))
      | .above => throw notFound

/-- Follows names one after the other. -/
def follow (directory : Directory) (place : Place) : List String → Except IoError Place
  | [] => .ok place
  | name :: names => do
    let next ← directory.enter place name
    directory.follow next names

/-- The bytes of the file that a path leads to. The empty path leads nowhere. -/
def read (directory : Directory) : Files := fun path => do
  if path.isEmpty then throw notFound
  let place ← directory.follow (.start path) (pathNames path)
  match ← directory.entryAt place with
  | .file content => pure content
  | .directory => throw isDirectory

end Directory

end StackMachine.CommandLine
