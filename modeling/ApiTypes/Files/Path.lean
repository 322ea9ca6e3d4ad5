import ApiTypes.Text.Split

/-! File paths: a root, or none, and components. Writing a path leaves out empty
components and single dots; double dots stay. -/

namespace ApiTypes.Files

open Text (Split.split)

structure Path where
  root : String := ""
  parts : List String := []
  deriving DecidableEq, Repr

namespace Path

/-- Exactly two slashes in front make a root of their own. -/
def rootOf : List Char → String
  | '/' :: '/' :: '/' :: _ => "/"
  | '/' :: '/' :: _ => "//"
  | '/' :: _ => "/"
  | _ => ""

def ofString (s : String) : Path :=
  let pieces := (Split.split '/' s.toList).filter fun piece => piece ≠ [] ∧ piece ≠ ['.']
  { root := rootOf s.toList, parts := pieces.map String.ofList }

def text (p : Path) : String :=
  if p.root = "" ∧ p.parts = [] then "." else p.root ++ "/".intercalate p.parts

/-- A path with a NUL in it, which no file can have. -/
def isUnnameable (p : Path) : Bool :=
  p.text.toList.contains '\x00'

def append (p : Path) (parts : List String) : Path :=
  { p with parts := p.parts ++ parts }

/-- A name without its extension: what stands before the last point, unless that
point is the first or the last character. -/
def stem (name : List Char) : List Char :=
  let extension := name.reverse.takeWhile (· ≠ '.')
  let kept := name.take (name.length - extension.length - 1)
  if extension = [] ∨ kept = [] then name else kept

/-- Changes the extension of the last component, or adds one. -/
def withExtension (p : Path) (extension : String) : Path :=
  match p.parts.getLast? with
  | none => p
  | some name =>
    { p with parts := p.parts.dropLast ++ [String.ofList (stem name.toList) ++ extension] }

end Path

end ApiTypes.Files
