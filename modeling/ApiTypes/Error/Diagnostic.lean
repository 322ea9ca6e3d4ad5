import ApiTypes.Document.Reader
import ApiTypes.Kind
import ApiTypes.Location

/-! Diagnostics: what is wrong with a schema, and where. Each cause has a
category, whose code stands in front of the message. -/

namespace ApiTypes

/-- The categories of diagnostics; all but the general one blame the schema. -/
inductive Category where
  | general
  | schema
  | resourceMetadata
  | nestedResource
  | duplicateDeclaration
  | schemaFormat
  deriving DecidableEq, Repr

def Category.code : Category → String
  | general => "E0001"
  | schema => "E0001"
  | resourceMetadata => "E0101"
  | nestedResource => "E0102"
  | duplicateDeclaration => "E0103"
  | schemaFormat => "E0104"

def Category.blamesSchema : Category → Bool
  | general => false
  | _ => true

/-- The property of a resource that names its metadata type. -/
def metadataName : String := "metadata"

inductive Cause where
  | metadataCount (definition : Document) (found : Nat)
  | metadataKind (definition : Document) (found : Kind)
  | nestedResource
  | duplicateDeclaration (identifier : Document)
  | repeatedDependency (packages : List String)
  | expectedObject (field : String) (got : Document)
  | missingField (field : String)
  | unknownType (tag : Document)
  | invalidJson (reason : Document.Reader.Error)
  | stated (category : Category) (message : String)

namespace Cause

def category : Cause → Category
  | metadataCount .. | metadataKind .. => .resourceMetadata
  | nestedResource => .nestedResource
  | duplicateDeclaration _ => .duplicateDeclaration
  | repeatedDependency _ | expectedObject .. | missingField _ | unknownType _ | invalidJson _ =>
    .schemaFormat
  | stated category _ => category

def message : Cause → String
  | metadataCount definition found =>
    let name := definition.plain
    s!"{name}: expected exactly one '{metadataName}' property, found {found}"
  | metadataKind definition found =>
    let name := definition.plain
    s!"{name}: expected '{metadataName}' to be a reference, found {found.tag}"
  | nestedResource => "\"resource\" type is only allowed as the value of a definition"
  | duplicateDeclaration identifier =>
    let name := identifier.quoted
    s!"duplicate declaration of {name}"
  | repeatedDependency packages =>
    "dependency listed more than once: " ++ ", ".intercalate packages
  | expectedObject field got => s!"expected an object holding '{field}', got {got.typeName}"
  | missingField field => s!"missing '{field}'"
  | unknownType tag =>
    let shown := tag.quoted
    s!"unknown type {shown}"
  | invalidJson reason => s!"invalid JSON: {reason.message}"
  | stated _ message => message

end Cause

/-- The escape sequences of a terminal. -/
inductive Style where
  | bold
  | red
  | blue

def Style.sequence : Style → String
  | bold => "\x1b[1m"
  | red => "\x1b[31m"
  | blue => "\x1b[34m"

/-- A text in some styles, where colours are wanted. -/
def Style.paint (color : Bool) (styles : List Style) (text : String) : String :=
  if color then String.join (styles.map sequence) ++ text ++ "\x1b[0m" else text

structure Diagnostic where
  cause : Cause
  location : Option Location := none
  code : String := cause.category.code

namespace Diagnostic

def message (d : Diagnostic) : String :=
  d.cause.message

/-- The code and message, and on a second line the location if there is one. -/
def format (d : Diagnostic) (color : Bool) : String :=
  let heading := Style.paint color [.bold, .red] s!"error[{d.code}]" ++
    Style.paint color [.bold] s!": {d.message}"
  match d.location with
  | none => heading
  | some place => heading ++ "\n" ++ Style.paint color [.bold, .blue] " --> " ++ place.text

def text (d : Diagnostic) : String :=
  d.format false

/-- Adds the file to whatever location there is. -/
def inFile (d : Diagnostic) (file : String) : Diagnostic :=
  { d with location := some ((d.location.getD {}).withFile file) }

end Diagnostic

/-- All diagnostics of a run and a summary, with a blank line after each. -/
def Diagnostic.summarize (ds : List Diagnostic) (color : Bool) : String :=
  let plural := if ds.length = 1 then "" else "s"
  let summary := Style.paint color [.bold, .red] "error" ++
    Style.paint color [.bold] s!": aborting due to {ds.length} previous error{plural}"
  "\n\n".intercalate (ds.map (·.format color) ++ [summary])

/-- What decides on colours: two settings of the environment, and whether the
diagnostics go to a terminal. -/
structure ColorSettings where
  noColor : Option String := none
  wanted : Option String := none
  terminal : Bool := false

def ColorSettings.color (s : ColorSettings) : Bool :=
  if (s.noColor.getD "") ≠ "" then false
  else if ["0", "false", "no", "never"].contains (s.wanted.getD "").toLower then false
  else s.terminal

end ApiTypes
