/-! The phases of a module. A module is created, takes the registrations of its
members, fixes all spellings, renders, and is done; a failure in between ends
it. -/

namespace ApiTypes

inductive Phase where
  | created
  | applying
  | resolving
  | rendering
  | done
  | failed
  deriving DecidableEq, Repr

def Phase.text : Phase → String
  | created => "created"
  | applying => "applying"
  | resolving => "resolving"
  | rendering => "rendering"
  | done => "done"
  | failed => "failed"

end ApiTypes
