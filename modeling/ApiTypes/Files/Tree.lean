import ApiTypes.Document.Printer
import ApiTypes.Files.Path

/-! File trees: what a run finds on the disk and leaves there. A tree lists files
and directories by their components from the root on; the working directory is
one of its directories. -/

namespace ApiTypes.Files

inductive Entry where
  | file (content : ByteArray)
  | directory

namespace Entry

def isDirectory : Entry → Bool
  | directory => true
  | file _ => false

def same : Entry → Entry → Bool
  | directory, directory => true
  | file a, file b => a.toList = b.toList
  | _, _ => false

end Entry

/-- Why a path does not serve, with the path. -/
inductive FileError where
  | isDirectory (path : Path)
  | exists' (path : Path)
  | notDirectory (path : Path)
  | notFound (path : Path)
  | nameTooLong (path : Path)

namespace FileError

def path : FileError → Path
  | isDirectory p | exists' p | notDirectory p | notFound p | nameTooLong p => p

def number : FileError → Nat
  | notFound _ => 2
  | exists' _ => 17
  | notDirectory _ => 20
  | isDirectory _ => 21
  | nameTooLong _ => 36

def reason : FileError → String
  | notFound _ => "No such file or directory"
  | exists' _ => "File exists"
  | notDirectory _ => "Not a directory"
  | isDirectory _ => "Is a directory"
  | nameTooLong _ => "File name too long"

def message (e : FileError) : String :=
  s!"[Errno {e.number}] {e.reason}: " ++ (Document.text e.path.text).quoted

end FileError

/-- The entries of a tree, each path once, and its working directory. -/
structure Tree where
  entries : List (List String × Entry) := []
  home : List String := []

namespace Tree

/-- The entry at the components from the root; the root and the directories above
the working directory are always there. -/
def find? (t : Tree) (place : List String) : Option Entry :=
  if place.isPrefixOf t.home then some .directory
  else (t.entries.find? fun e => e.1 = place).map (·.2)

/-- The longest name of a file, in bytes. -/
def nameLimit : Nat := 255

/-- No path is as long as this, in bytes. -/
def pathLimit : Nat := 4096

/-- One component of a path further from a directory. -/
def enter (t : Tree) (p : Path) (place : List String) (part : String) :
    Except FileError (List String) :=
  match t.find? place with
  | none => .error (.notFound p)
  | some (.file _) => .error (.notDirectory p)
  | some .directory =>
    if part = ".." then .ok place.dropLast
    else if nameLimit < part.utf8ByteSize then .error (.nameTooLong p)
    else .ok (place ++ [part])

/-- The components from the root that a path leads to. All but the last of them are
directories; the last need not be there. -/
def locate (t : Tree) (p : Path) : Except FileError (List String) :=
  if pathLimit ≤ p.text.utf8ByteSize then .error (.nameTooLong p)
  else p.parts.foldlM (t.enter p) (if p.root = "" then t.home else [])

/-- Whether there is a file or a directory. No file has a path with a NUL in it; a name
that is too long is an error. -/
def exists? (t : Tree) (p : Path) : Except FileError Bool :=
  if p.isUnnameable then .ok false
  else match t.locate p with
  | .ok place => .ok (t.find? place).isSome
  | .error (.nameTooLong p) => .error (.nameTooLong p)
  | .error _ => .ok false

def entryAt? (t : Tree) (p : Path) : Option Entry :=
  (t.locate p).toOption.bind t.find?

def isDirectory (t : Tree) (p : Path) : Bool :=
  (t.entryAt? p).any Entry.isDirectory

def read? (t : Tree) (p : Path) : Option ByteArray :=
  match t.entryAt? p with
  | some (.file content) => some content
  | _ => none

def put (t : Tree) (place : List String) (entry : Entry) : Tree :=
  if t.entries.any fun e => e.1 = place then
    { t with entries := t.entries.map fun e => if e.1 = place then (place, entry) else e }
  else { t with entries := t.entries ++ [(place, entry)] }

/-- Writes a file in a directory that exists, over an old file if there is one. -/
def write (t : Tree) (p : Path) (content : String) : Except FileError Tree := do
  let place ← t.locate p
  match t.find? place with
  | some .directory => .error (.isDirectory p)
  | _ => .ok (t.put place (.file content.toUTF8))

/-- Makes a directory unless it is there already. -/
def makeDirectory (t : Tree) (p : Path) : Except FileError Tree := do
  let place ← t.locate p
  match t.find? place with
  | some .directory => .ok t
  | some (.file _) => .error (.exists' p)
  | none => .ok (t.put place .directory)

/-- The entries that a tree has and another tree lacks, or has otherwise. -/
def changesSince (t before : Tree) : List (List String × Entry) :=
  t.entries.filter fun (place, entry) => !(before.find? place).any entry.same

/-- The order of paths: by their components, by code point. -/
def inOrder : List String → List String → Bool
  | [], _ => true
  | _ :: _, [] => false
  | a :: as, b :: bs => a < b || (a = b && inOrder as bs)

/-- What stands below a directory, by its components from there on. -/
def below? (directory place : List String) : Option (List String) :=
  match directory, place with
  | [], rest => some rest
  | d :: ds, p :: ps => if d = p then below? ds ps else none
  | _ :: _, [] => none

/-- The files below a directory whose names end as given, in order. -/
def filesBelow (t : Tree) (p : Path) (extension : String) : List Path :=
  match t.locate p with
  | .error _ => []
  | .ok directory =>
    let found := t.entries.filterMap fun (place, entry) =>
      match entry with
      | .directory => none
      | .file _ => (below? directory place).filter fun rest =>
          (rest.getLast?.getD "").endsWith extension
    (found.mergeSort inOrder).map p.append

end Tree

end ApiTypes.Files
