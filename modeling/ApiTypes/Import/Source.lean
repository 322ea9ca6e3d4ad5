import ApiTypes.Context
import ApiTypes.Event
import ApiTypes.Import.RelativePath

/-! Where imported members come from: a generated package, the fixed support
library, or another module of the same package. A source has an identity, which
the import table goes by, and in each context a path, which import statements
show. -/

namespace ApiTypes

inductive Source (τ : Type) where
  | api (package : τ) (path : Option τ)
  | library (package : τ) (path : Option τ)
  | sibling (path : τ)
  deriving Repr

namespace Source

variable {τ : Type} [Label τ]

def isLocal : Source τ → Bool
  | sibling _ => true
  | _ => false

/-- The identity of a package, or of a path inside it; an empty path leads to the
package itself. -/
def remoteUrn (kind : String) (package : τ) (path : Option τ) : Except Error String := do
  let name ← Label.requireText package
  let inside ← (Label.present? path).toList.mapM Label.requireText
  return ":".intercalate (["kure", kind, name] ++ inside)

/-- The identity of a source. -/
def urn : Source τ → Except Error String
  | api package path => remoteUrn "api" package path
  | library package path => remoteUrn "lib" package path
  | sibling path => .ok ("/" ++ Label.plain path)

/-- The package of the core API, whose hosted URL leaves it unnamed. -/
def corePackage : String := "kubernetes"

/-- The version of every library package. -/
def libraryVersion : String := "0.1"

/-- The version that a source is imported at. -/
def version? (ctx : Context τ) : Source τ → Except Error (Option String)
  | api package _ => do
    return (Label.present? (← ctx.versionOf package)).map Label.plain
  | library .. => .ok (some libraryVersion)
  | sibling _ => .ok none

/-- A package without a version is worth a warning, the core package apart. -/
def warnings (ctx : Context τ) : Source τ → Except Error (List Event)
  | api package _ => do
    match ← ctx.versionOf package with
    | some _ => return []
    | none =>
      if Label.isText package corePackage then return []
      return [.unversioned (Label.document package)]
  | _ => .ok []

/-- A package under its URL; the core package is named by its version alone. -/
def hostedPath (kind package : String) (isCore : Bool) (version inside : Option String) :
    String :=
  let target := match version with
    | some v => (if isCore then "" else package) ++ "@" ++ v
    | none => package
  "https://kure.sh/" ++ kind ++ "/" ++ target ++ "/" ++ inside.getD ("mod" ++ moduleExtension)

/-- A package under its scope, slashes in its name replaced by hyphens. -/
def barePath (kind package : String) (inside : Option String) : String :=
  let name := package.map fun c => if c = '/' then '-' else c
  let specifier := "@kure-" ++ kind ++ "/" ++ name
  match inside with
  | some path => specifier ++ "/" ++ path
  | none => specifier

/-- The name of a package that is to be edited as a text. -/
def packageName (package : τ) : Except Error String :=
  match Label.text? package with
  | some name => .ok name
  | none => .error (.misfit (.editing (Label.document package)))

def remotePath (ctx : Context τ) (kind : String) (package : τ) (isCore : Bool)
    (version : Option String) (path : Option τ) : Except Error String :=
  let inside := (Label.present? path).map Label.plain
  match ctx.packaging with
  | .hosted => .ok (hostedPath kind (Label.plain package) isCore version inside)
  | .bare => do return barePath kind (← packageName package) inside

/-- The path of a module of the same package, which both modules need a text for. -/
def siblingPath (ctx : Context τ) (target : τ) : Except Error String := do
  let importer ← Label.requireText ctx.modulePath
  let target ← Label.requireText target
  return String.ofList (Import.RelativePath.relative importer.toList target.toList)

/-- The path that an import statement of the context's module shows. -/
def path (ctx : Context τ) (s : Source τ) : Except Error String := do
  let version ← s.version? ctx
  match s with
  | api package path =>
    remotePath ctx "api" package (Label.isText package corePackage) version path
  | library package path => remotePath ctx "lib" package false version path
  | sibling target => siblingPath ctx target

end Source

end ApiTypes
