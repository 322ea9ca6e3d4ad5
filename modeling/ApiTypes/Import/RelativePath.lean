import ApiTypes.Text.Split

/-! Relative paths between modules of one package. Paths are rooted, with slashes
between their components; a path is normal when it has no empty component and
no dots. -/

namespace ApiTypes.Import.RelativePath

open Text (Split.split Split.join Split.trimRight)

/-- Walks one component further from a place, given last component first. A
double dot goes up, and stays at the root. -/
def walk (place : List (List Char)) (component : List Char) : List (List Char) :=
  if component = [] || component = ['.'] then place
  else if component = ['.', '.'] then place.drop 1
  else component :: place

/-- The components of a rooted path after all dots are worked off. -/
def components (path : List Char) : List (List Char) :=
  ((Split.split '/' path).foldl walk []).reverse

/-- Appends a path to another; one that starts at the root stands alone. -/
def join (base path : List Char) : List Char :=
  if path.head? = some '/' then path
  else if base = [] || base.getLast? = some '/' then base ++ path
  else base ++ '/' :: path

/-- What stands behind the last slash. -/
def basename (path : List Char) : List Char :=
  (Split.split '/' path).getLast?.getD []

/-- What stands before the last slash, without slashes at its end unless it
consists of them. -/
def dirname (path : List Char) : List Char :=
  let head := path.take (path.length - (basename path).length)
  match Split.trimRight (· = '/') head with
  | [] => head
  | trimmed => trimmed

def commonLength : List (List Char) → List (List Char) → Nat
  | x :: xs, y :: ys => if x = y then commonLength xs ys + 1 else 0
  | _, _ => 0

/-- The way from one rooted directory to another: up to the last common ancestor,
then down. -/
def between (start target : List (List Char)) : List Char :=
  let common := commonLength start target
  let steps := List.replicate (start.length - common) ['.', '.'] ++ target.drop common
  if steps.isEmpty then ['.'] else Split.join '/' steps

/-- The directory that all modules of a package lie below. -/
def root : List Char := "/src".toList

/-- The path by which the module at `importer` refers to the one at `target`. A
way that does not begin with a dot gets one in front. -/
def relative (importer target : List Char) : List Char :=
  let here := join root (dirname importer)
  let dest := join root target
  let directory := between (components here) (components (dirname dest))
  let directory := if directory.head? = some '.' then directory else '.' :: '/' :: directory
  directory ++ '/' :: basename dest

end ApiTypes.Import.RelativePath
