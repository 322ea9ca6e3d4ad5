import ApiTypes.Label
import ApiTypes.Kind

/-! Schemas: one version of an API group, the packages it depends on, and its
definitions in order. The text fields of a schema are labels of one type, so a
schema over `String` is well typed. -/

namespace ApiTypes

/-- The name of an API group and the directory its modules lie in. -/
structure Group (τ : Type) where
  name : Option τ := none
  directory : Option τ := none
  deriving Repr

structure Dependency (τ : Type) where
  package : τ
  version : τ
  deriving Repr

/-- A version of another group, in this package or in a named one. -/
structure Scope (τ : Type) where
  group : Group τ
  version : τ
  package : Option τ := none
  deriving Repr

/-- A reference names a type of this module, or of the module of a scope. -/
structure Reference (τ : Type) where
  name : τ
  scope : Option (Scope τ) := none
  deriving Repr

mutual

inductive TypeExpr (τ : Type) where
  | string (choices : Option (List τ))
  | integer
  | float
  | boolean
  | unknown
  | array (items : TypeExpr τ)
  | map (values : TypeExpr τ)
  | union (variants : List (TypeExpr τ))
  | optional (value : TypeExpr τ)
  | reference (target : Reference τ)
  | object (properties : List (Property τ)) (parents : List (Reference τ))
  | resource (properties : List (Property τ)) (scope : τ)

inductive Property (τ : Type) where
  | mk (name : τ) (value : TypeExpr τ) (required : Bool) (description : Option τ)
      (deprecated : Bool)

end

variable {τ : Type}

def TypeExpr.kind : TypeExpr τ → Kind
  | string _ => .string
  | integer => .integer
  | float => .float
  | boolean => .boolean
  | unknown => .unknown
  | array _ => .array
  | map _ => .map
  | union _ => .union
  | optional _ => .optional
  | reference _ => .reference
  | object .. => .object
  | resource .. => .resource

def TypeExpr.isResource : TypeExpr τ → Bool
  | resource .. => true
  | _ => false

namespace Property

def name : Property τ → τ
  | mk name .. => name

def value : Property τ → TypeExpr τ
  | mk _ value .. => value

def required : Property τ → Bool
  | mk _ _ required .. => required

def description : Property τ → Option τ
  | mk _ _ _ description _ => description

def deprecated : Property τ → Bool
  | mk _ _ _ _ deprecated => deprecated

end Property

structure Definition (τ : Type) where
  name : τ
  value : TypeExpr τ
  description : Option τ := none
  deprecated : Bool := false

structure Schema (τ : Type) where
  group : Group τ
  version : τ
  dependencies : List (Dependency τ) := []
  definitions : List (Definition τ) := []

/-- The scope that a resource has unless it states another one. -/
def defaultScope : String := "namespace"

/-- The extension of generated modules. -/
def moduleExtension : String := ".ts"

variable [Label τ]

/-- Group and version with a slash between them; the unnamed core group shows
its version alone. -/
def Group.apiVersion (group : Group τ) (version : τ) : τ :=
  match Label.present? group.name with
  | some name =>
    Label.ofText (Label.plain name ++ "/" ++ Label.plain version)
  | none => version

/-- The path of the module of a group at a version. -/
def Group.modulePath (group : Group τ) (version : τ) : String :=
  match Label.present? group.directory with
  | some directory => Label.plain directory ++ "/" ++ Label.plain version ++ moduleExtension
  | none => Label.plain version ++ moduleExtension

namespace Schema

def apiVersion (s : Schema τ) : τ :=
  s.group.apiVersion s.version

def modulePath (s : Schema τ) : String :=
  s.group.modulePath s.version

end Schema

end ApiTypes
