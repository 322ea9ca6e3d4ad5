import ApiTypes.Number.Binary64

/-! Decoded documents: the values that a schema file can hold. Integers are
exact and floating-point numbers keep their sign of zero; the fields of an
object stand in the order of their first appearance. -/

namespace ApiTypes

open Number (Binary64)

inductive Document where
  | null
  | bool (value : Bool)
  | integer (value : Int)
  | real (value : Binary64)
  | text (value : String)
  | list (items : List Document)
  | object (fields : List (String × Document))
  deriving Repr, Inhabited

namespace Document

/-- The name of a value's type, as messages give it. -/
def typeName : Document → String
  | null => "NoneType"
  | bool _ => "bool"
  | integer _ => "int"
  | real _ => "float"
  | text _ => "str"
  | list _ => "list"
  | object _ => "dict"

def isObject : Document → Bool
  | object _ => true
  | _ => false

def text? : Document → Option String
  | text s => some s
  | _ => none

/-- Null, false, zero and whatever is empty count as false. -/
def isTruthy : Document → Bool
  | null => false
  | bool b => b
  | integer n => n ≠ 0
  | real x => !x.isZero
  | text s => !s.isEmpty
  | list xs => !xs.isEmpty
  | object fields => !fields.isEmpty

def lookup (key : String) : List (String × Document) → Option Document
  | [] => none
  | (k, v) :: rest => if k = key then some v else lookup key rest

/-- Sets a field in its place; a new field goes to the end. -/
def insert (key : String) (value : Document) :
    List (String × Document) → List (String × Document)
  | [] => [(key, value)]
  | (k, v) :: rest => if k = key then (k, value) :: rest else (k, v) :: insert key value rest

/-- The field of an object; a value of another type has no fields. -/
def field? (doc : Document) (key : String) : Option Document :=
  match doc with
  | object fields => lookup key fields
  | _ => none

/-- What a list, a text or an object yields in turn: its items, its characters,
the names of its fields. -/
def elements? : Document → Option (List Document)
  | list xs => some xs
  | text s => some (s.toList.map fun c => text (String.singleton c))
  | object fields => some (fields.map fun f => text f.1)
  | _ => none

/-- Whether two numbers have one value, whatever their types. -/
def sameNumber : Document → Document → Option Bool
  | integer m, integer n => some (m = n)
  | integer m, real y => some (y.isInteger m)
  | real x, integer n => some (x.isInteger n)
  | real x, real y => some (x.same y)
  | _, _ => none

/-- A truth value counts as zero or one where numbers are compared. -/
def asNumber : Document → Document
  | bool b => integer (if b then 1 else 0)
  | other => other

mutual

/-- Sameness of values: numbers by value whatever their type, objects without
regard to order. Every value is the same as itself. -/
def same : Document → Document → Bool
  | null, null => true
  | text s, text t => s = t
  | list xs, list ys => sameItems xs ys
  | object fields, object others => fields.length = others.length && sameFields fields others
  | a, b => (sameNumber a.asNumber b.asNumber).getD false

def sameItems : List Document → List Document → Bool
  | [], [] => true
  | x :: xs, y :: ys => same x y && sameItems xs ys
  | _, _ => false

def sameFields : List (String × Document) → List (String × Document) → Bool
  | [], _ => true
  | (k, v) :: rest, others =>
    (match lookup k others with
      | some w => same v w
      | none => false) && sameFields rest others

end

def isNan : Document → Bool
  | real .nan => true
  | _ => false

/-- Equality in a comparison: `nan` equals nothing, all else equals what is the same. -/
def equal (a b : Document) : Bool :=
  same a b && !a.isNan

/-- Lists and objects cannot serve as keys of a table. -/
def isKey : Document → Bool
  | list _ => false
  | object _ => false
  | _ => true

/-- The order of texts by code point and of numbers by value; `nan` has no place in
it. -/
def less (a b : Document) : Bool :=
  match a, b with
  | text s, text t => s < t
  | _, _ =>
    match a.asNumber, b.asNumber with
    | integer m, integer n => m < n
    | integer m, real y => y.integerLess m
    | real x, integer n => x.lessInteger n
    | real x, real y => x.less y
    | _, _ => false

/-- Texts compare with texts and numbers with numbers; nothing else is ordered. -/
def isOrdered (a b : Document) : Bool :=
  match a, b with
  | text _, text _ => true
  | _, _ =>
    match a.asNumber, b.asNumber with
    | integer _, integer _ | integer _, real _ | real _, integer _ | real _, real _ => true
    | _, _ => false

end Document

end ApiTypes
