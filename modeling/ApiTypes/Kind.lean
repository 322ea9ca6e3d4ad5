/-! The kinds of types that a schema can write, with the tag that spells each
one in a document. -/

namespace ApiTypes

inductive Kind where
  | string
  | integer
  | float
  | boolean
  | array
  | map
  | object
  | union
  | optional
  | reference
  | resource
  | unknown
  deriving DecidableEq, Repr

namespace Kind

def tag : Kind → String
  | string => "string"
  | integer => "integer"
  | float => "float"
  | boolean => "boolean"
  | array => "array"
  | map => "map"
  | object => "object"
  | union => "union"
  | optional => "optional"
  | reference => "reference"
  | resource => "resource"
  | unknown => "unknown"

def all : List Kind :=
  [string, integer, float, boolean, array, map, object, union, optional, reference, resource,
    unknown]

def ofTag? (tag : String) : Option Kind :=
  all.find? fun kind => kind.tag = tag

theorem ofTag?_tag (kind : Kind) : ofTag? kind.tag = some kind := by
  cases kind <;> decide

end Kind

end ApiTypes
