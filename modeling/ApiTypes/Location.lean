import ApiTypes.Document.Printer

/-! Places in schema documents: a file, a definition in it, a property of that
definition. Any part may be missing. -/

namespace ApiTypes

structure Location where
  file : Option Document := none
  definition : Option Document := none
  property : Option Document := none
  deriving Repr

namespace Location

def ofDefinition (name : Document) : Location :=
  { definition := some name }

def withProperty (at' : Location) (name : Document) : Location :=
  { at' with property := some name }

def withFile (at' : Location) (file : String) : Location :=
  { at' with file := some (.text file) }

/-- A part that is there and not empty. -/
def present? (part : Option Document) : Option Document :=
  part.filter Document.isTruthy

/-- The text of a part that is there and not empty. -/
def part? (part : Option Document) : Option String :=
  (present? part).map Document.plain

/-- The definition and its property, joined by a point. -/
def entry (at' : Location) : String :=
  let definition := (part? at'.definition).getD ""
  match part? at'.property with
  | some property => s!"{definition}.{property}"
  | none => definition

/-- The file and the entry, joined by a hash mark where both are there. -/
def text (at' : Location) : String :=
  match (part? at'.file).getD "", at'.entry with
  | "", "" => "<unknown location>"
  | file, "" => file
  | "", entry => entry
  | file, entry => s!"{file}#{entry}"

/-- The part that a location consists of, if it is a file or a definition alone. -/
def lone? (at' : Location) : Option Document :=
  match present? at'.file, present? at'.definition, present? at'.property with
  | some file, none, none => some file
  | none, some definition, none => some definition
  | _, _, _ => none

/-- The part that keeps a location from being written: a lone one is not joined with
texts, so it has to be a text itself. -/
def unwritable? (at' : Location) : Option Document :=
  at'.lone?.filter fun part => part.text?.isNone

end Location

end ApiTypes
