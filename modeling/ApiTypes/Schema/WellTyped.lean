import ApiTypes.Schema.Basic

/-! Well-typed schemas. A schema over raw values whose labels are all texts is a
schema over texts; this module finds it. -/

namespace ApiTypes

def Document.requireTexts? (xs : List Document) : Option (List String) :=
  xs.mapM Document.text?

/-- The text of a label that may be missing; a label that is there has to be one. -/
def Label.optionalText? : Option Document → Option (Option String)
  | none => some none
  | some doc => doc.text?.map some

open Label (optionalText?)

def Group.texts? (g : Group Document) : Option (Group String) := do
  return { name := ← optionalText? g.name, directory := ← optionalText? g.directory }

def Dependency.texts? (d : Dependency Document) : Option (Dependency String) := do
  return { package := ← d.package.text?, version := ← d.version.text? }

def Scope.texts? (s : Scope Document) : Option (Scope String) := do
  return { group := ← s.group.texts?, version := ← s.version.text?,
           package := ← optionalText? s.package }

def Reference.texts? (r : Reference Document) : Option (Reference String) := do
  let name ← r.name.text?
  match r.scope with
  | none => return { name }
  | some scope => return { name, scope := some (← scope.texts?) }

mutual

def TypeExpr.texts? : TypeExpr Document → Option (TypeExpr String)
  | .string none => some (.string none)
  | .string (some choices) => do return .string (some (← Document.requireTexts? choices))
  | .integer => some .integer
  | .float => some .float
  | .boolean => some .boolean
  | .unknown => some .unknown
  | .array items => do return .array (← items.texts?)
  | .map values => do return .map (← values.texts?)
  | .union variants => do return .union (← TypeExpr.allTexts? variants)
  | .optional value => do return .optional (← value.texts?)
  | .reference target => do return .reference (← target.texts?)
  | .object properties parents => do
    return .object (← Property.allTexts? properties) (← parents.mapM Reference.texts?)
  | .resource properties scope => do
    return .resource (← Property.allTexts? properties) (← scope.text?)

def TypeExpr.allTexts? : List (TypeExpr Document) → Option (List (TypeExpr String))
  | [] => some []
  | t :: ts => do return (← t.texts?) :: (← TypeExpr.allTexts? ts)

def Property.texts? : Property Document → Option (Property String)
  | .mk name value required description deprecated => do
    return .mk (← name.text?) (← value.texts?) required (← optionalText? description) deprecated

def Property.allTexts? : List (Property Document) → Option (List (Property String))
  | [] => some []
  | p :: ps => do return (← p.texts?) :: (← Property.allTexts? ps)

end

def Definition.texts? (d : Definition Document) : Option (Definition String) := do
  return { name := ← d.name.text?, value := ← d.value.texts?,
           description := ← optionalText? d.description, deprecated := d.deprecated }

/-- The schema over texts that a well-typed schema is. -/
def Schema.texts? (s : Schema Document) : Option (Schema String) := do
  return { group := ← s.group.texts?, version := ← s.version.text?,
           dependencies := ← s.dependencies.mapM Dependency.texts?,
           definitions := ← s.definitions.mapM Definition.texts? }

end ApiTypes
