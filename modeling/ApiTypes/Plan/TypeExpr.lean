import ApiTypes.Module.Member
import ApiTypes.Text.DocBlock
import ApiTypes.Text.PropertyKey

/-! The plans of type expressions. A plan requests one symbol for each reference
that its text shows, from left to right, and writes the text around them. Types
are written without parentheses: unions, optional types and choices are
alternatives, the parents of an object are joined to its block. A reference that
is joined to others has to be spelled by a text. -/

namespace ApiTypes

variable {τ : Type} [Label τ]

/-- Where the types of a scope are imported from. -/
def Scope.source (s : Scope τ) : Source τ :=
  let path := s.group.modulePath s.version
  match Label.present? s.package with
  | some package => .api package (some (Label.ofText path))
  | none => .sibling (Label.ofText path)

namespace Reference

def symbol (r : Reference τ) : Symbol τ :=
  match r.scope with
  | none => .declared r.name
  | some scope => .imported scope.source r.name

/-- A type of this module is looked up, one of another is imported as a type. -/
def request (r : Reference τ) : Request τ :=
  match r.scope with
  | none => .lookup r.name
  | some scope => .useMember scope.source r.name none true

def plan (r : Reference τ) : Plan τ :=
  { requests := [r.request], pieces := [.spelling r.symbol] }

end Reference

namespace Plan

/-- The plan that fails when it is rendered. -/
def failure (e : Error) : Plan τ :=
  { pieces := [.computed [] fun _ _ => .error e] }

/-- The documentation block of an entry. -/
def doc (description : Option τ) (deprecated : Bool) (indent : Nat) : Plan τ :=
  match Text.DocBlock.ofLabel description deprecated indent with
  | .ok block => ofText block
  | .error e => failure e

/-- A block of properties, one on each line. -/
def braced (properties : List (Plan τ)) : Plan τ :=
  if properties.isEmpty then ofText "\x7b\x7d"
  else ofText "\x7b\n" ++ intercalate "\n" properties ++ ofText "\n\x7d"

/-- One property: its documentation, its key with a mark unless it is required, and
its type. -/
def property (doc : Plan τ) (key : String) (required : Bool) (value : Plan τ) : Plan τ :=
  doc ++ ofText ("  " ++ key ++ (if required then ": " else "?: ")) ++ value ++ ofText ";"

end Plan

/-- The choices of a string type as literals. -/
def choicesText (choices : Option (List τ)) : String :=
  match choices with
  | none | some [] => "string"
  | some (c :: cs) => " | ".intercalate ((c :: cs).map Label.literal)

def TypeExpr.isOptional : TypeExpr τ → Bool
  | optional _ => true
  | _ => false

/-- The symbol that a type consists of, if it is a reference. -/
def TypeExpr.symbol? : TypeExpr τ → Option (Symbol τ)
  | reference target => some target.symbol
  | _ => none

mutual

/-- The plan of a type. As the body of a declaration an object leaves its parents to
the heading. -/
def TypeExpr.plan (declaration : Bool) : TypeExpr τ → Except Error (Plan τ)
  | .string choices => .ok (.ofText (choicesText choices))
  | .integer => .ok (.ofText "number")
  | .float => .ok (.ofText "number")
  | .boolean => .ok (.ofText "boolean")
  | .unknown => .ok (.ofText "unknown")
  | .array items => do
    return .ofText "Array<" ++ (← items.plan false) ++ .ofText ">"
  | .map values => do
    return .ofText "Record<string, " ++ (← values.plan false) ++ .ofText ">"
  | .union variants => do
    return .intercalate " | " (← TypeExpr.plans variants) ++
      .requireTexts (variants.filterMap TypeExpr.symbol?)
  | .optional value => do return (← value.plan false) ++ .ofText " | null"
  | .reference target => .ok target.plan
  | .object properties parents => do
    let body ← Property.plans properties
    let parents := if declaration then [] else parents
    return .intercalate " & " (parents.map Reference.plan ++ [.braced body]) ++
      .requireTexts (parents.map Reference.symbol)
  | .resource .. => .error (.ofCause .nestedResource)

def TypeExpr.plans : List (TypeExpr τ) → Except Error (List (Plan τ))
  | [] => .ok []
  | t :: ts => do return (← t.plan false) :: (← TypeExpr.plans ts)

/-- A property that is not required may also be null. -/
def Property.plan : Property τ → Except Error (Plan τ)
  | .mk name value required description deprecated => do
    let key ← Text.PropertyKey.ofLabel name
    let body ← value.plan false
    let body := if required || value.isOptional then body else body ++ .ofText " | null"
    return .property (.doc description deprecated 1) key required body

def Property.plans : List (Property τ) → Except Error (List (Plan τ))
  | [] => .ok []
  | p :: ps => do return (← p.plan) :: (← Property.plans ps)

end

end ApiTypes
