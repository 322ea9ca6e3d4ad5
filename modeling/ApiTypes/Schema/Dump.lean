import ApiTypes.Schema.Basic
import ApiTypes.SExpr.Compact
import ApiTypes.SExpr.Layout

/-! Dumps: a schema as an S-expression, for reading and comparing. Tags and
keywords are symbols, labels are values. Every node states what generation reads
of it. -/

namespace ApiTypes

open SExpr (symbol tagged)

variable {τ : Type} [Label τ]

def Label.dump (a : τ) : SExpr :=
  SExpr.ofDocument (Label.document a)

/-- The marks of deprecation and documentation that an entry carries. -/
def SExpr.marks (description : Option τ) (deprecated : Bool) : List SExpr :=
  (if deprecated then [symbol ":deprecated"] else []) ++
    match Label.present? description with
    | some label => [symbol ":doc", Label.dump label]
    | none => []

def Reference.dump (r : Reference τ) : SExpr :=
  tagged "reference" <| Label.dump r.name ::
    match r.scope with
    | none => []
    | some scope =>
      symbol ":module" :: SExpr.text (scope.group.modulePath scope.version) ::
        match Label.present? scope.package with
        | some package => [symbol ":package", Label.dump package]
        | none => []

mutual

def TypeExpr.dump : TypeExpr τ → SExpr
  | .string choices =>
    match choices with
    | none | some [] => tagged "string" []
    | some (c :: cs) => tagged "string" (symbol ":enum" :: (c :: cs).map Label.dump)
  | .integer => tagged "integer" []
  | .float => tagged "float" []
  | .boolean => tagged "boolean" []
  | .unknown => tagged "unknown" []
  | .array items => tagged "array" [items.dump]
  | .map values => tagged "map" [values.dump]
  | .union variants => tagged "union" (TypeExpr.dumps variants)
  | .optional value => tagged "optional" [value.dump]
  | .reference target => target.dump
  | .object properties parents =>
    tagged "object" <|
      (if parents.isEmpty then [] else [tagged "inherit" (parents.map Reference.dump)]) ++
        Property.dumps properties
  | .resource properties scope =>
    tagged "resource" (symbol ":scope" :: Label.dump scope :: Property.dumps properties)

def TypeExpr.dumps : List (TypeExpr τ) → List SExpr
  | [] => []
  | t :: ts => t.dump :: TypeExpr.dumps ts

def Property.dump : Property τ → SExpr
  | .mk name value required description deprecated =>
    tagged "property" <| Label.dump name ::
      (if required then [symbol ":required"] else []) ++
        SExpr.marks description deprecated ++ [value.dump]

def Property.dumps : List (Property τ) → List SExpr
  | [] => []
  | p :: ps => p.dump :: Property.dumps ps

end

def Definition.dump (d : Definition τ) : SExpr :=
  tagged "definition" <| Label.dump d.name ::
    SExpr.marks d.description d.deprecated ++ [d.value.dump]

def Dependency.dump (d : Dependency τ) : SExpr :=
  tagged "dependency" [Label.dump d.package, Label.dump d.version]

def Schema.dump (s : Schema τ) : SExpr :=
  tagged "api-group-version"
    [symbol ":api-version", Label.dump s.apiVersion,
      symbol ":module", SExpr.text s.modulePath,
      tagged "dependencies" (s.dependencies.map Dependency.dump),
      tagged "definitions" (s.definitions.map Definition.dump)]

/-- The text of a dump, laid out for reading, or on one line as some printer writes it. -/
def Schema.dumpText (s : Schema τ) (pretty : Bool) (print : SExpr → String := SExpr.compact) :
    String :=
  if pretty then s.dump.pretty else print s.dump

end ApiTypes
