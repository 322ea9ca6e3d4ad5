import ApiTypes.Document.Printer
import ApiTypes.Phase

/-! Defects: broken rules in the use of a module, its names and its imports.
Unlike a diagnostic a defect does not blame the schema. -/

namespace ApiTypes

namespace Defect

inductive Category where
  | general
  | unresolvedName
  | undeclaredName
  | importInvariant
  | phase
  deriving DecidableEq, Repr

def Category.code : Category → String
  | general => "E9999"
  | unresolvedName => "E9001"
  | undeclaredName => "E9002"
  | importInvariant => "E9003"
  | phase => "E9004"

inductive Cause where
  | unresolvedImport (member : Document)
  | unresolvedName (identifier : Document)
  | undeclaredName (identifier : Document)
  | valueImportedAsType (member : Document)
  | alreadyResolved (identifier spelling : Document)
  | lateName (identifier : Document)
  | namesResolved
  | lateImport (member : Document) (urn : String)
  | notApplied
  | lateMember (path : Document) (phase : Phase)
  | wrongPhase (action : String) (path : Document) (required actual : Phase)
  | stated (category : Category) (message : String)

namespace Cause

def category : Cause → Category
  | unresolvedImport _ | unresolvedName _ => .unresolvedName
  | undeclaredName _ => .undeclaredName
  | valueImportedAsType _ => .importInvariant
  | alreadyResolved .. | lateName _ | namesResolved | lateImport .. | notApplied | lateMember ..
  | wrongPhase .. => .phase
  | stated category _ => category

def message : Cause → String
  | unresolvedImport member => "import of " ++ member.quoted ++ " not yet named"
  | unresolvedName identifier => "name " ++ identifier.quoted ++ " not yet resolved"
  | undeclaredName identifier => "name " ++ identifier.quoted ++ " not declared in module"
  | valueImportedAsType member =>
    "cannot import value " ++ member.quoted ++ " via `import type`"
  | alreadyResolved identifier spelling =>
    "name " ++ identifier.quoted ++ " already resolved as " ++ spelling.quoted
  | lateName identifier =>
    "cannot add name " ++ identifier.quoted ++ " after names were resolved"
  | namesResolved => "names already resolved"
  | lateImport member urn =>
    "cannot import " ++ member.quoted ++ s!" from {urn} after imports were applied"
  | notApplied => "apply() was not called"
  | lateMember path phase =>
    "cannot add members to module " ++ path.quoted ++ " in phase " ++ phase.text
  | wrongPhase action path required actual =>
    s!"{action} in module " ++ path.quoted ++
      s!" requires phase {required.text}, module is {actual.text}"
  | stated _ message => message

end Cause

end Defect

structure Defect where
  cause : Defect.Cause
  code : String := cause.category.code

namespace Defect

def message (d : Defect) : String :=
  d.cause.message

def text (d : Defect) : String :=
  s!"[{d.code}] {d.message}"

end Defect

end ApiTypes
