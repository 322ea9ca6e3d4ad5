import ApiTypes.Module.Basic
import ApiTypes.Plan.Definition
import ApiTypes.Schema.WellTyped

/-! Generation: from a schema to the text of its module. All plans are made before
anything is rendered, so a schema that cannot be planned fails early. -/

namespace ApiTypes

variable {τ : Type} [Label τ]

/-- What a generation answers, with what it noted on the way. -/
structure Generated (α : Type) where
  result : Except Error α
  events : List Event := []

namespace Schema

/-- The plans of a module: the header, the base type if there are resources, and
the definitions in order. -/
def plans (s : Schema τ) : Except Error (List (Plan τ)) := do
  let base ← basePlan? s.definitions
  let definitions ← s.definitions.mapM Definition.plan
  return .header :: base.toList ++ definitions

/-- The module of some plans, as it is before it renders. -/
def moduleOf (path : τ) (plans : List (Plan τ)) : Module τ :=
  { path, members := plans.map Plan.toMember }

/-- The event of a load. -/
def loaded (s : Schema τ) : Event :=
  .loaded (Label.plain s.apiVersion) s.definitions.length s.dependencies.length

/-- The text of the module of a schema. -/
def generate (s : Schema τ) (engine : Engine) (packaging : Option Packaging) :
    Generated String :=
  match s.plans with
  | .error e => { result := .error e }
  | .ok plans =>
    let start := Event.rendering s.modulePath (Label.plain s.apiVersion) s.definitions.length
    let path := Label.ofText s.modulePath
    match Context.ofSchema s path engine packaging with
    | .error e => { result := .error e, events := [start] }
    | .ok ctx =>
      let (result, m) := (Module.render ctx).run (moduleOf path plans)
      { result, events := start :: m.log }

/-- The text of the module of a loaded schema. A well-typed schema is generated over
texts; only a loose one needs its raw values. -/
def generateLoaded (s : Schema Document) (engine : Engine) (packaging : Option Packaging) :
    Generated String :=
  match s.texts? with
  | some t => t.generate engine packaging
  | none => s.generate engine packaging

end Schema

end ApiTypes
