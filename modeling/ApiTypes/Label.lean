import ApiTypes.Error.Basic
import ApiTypes.Sorting.Natural

/-! Labels: what stands in the text fields of a schema. In a well-typed schema
every label is a text; in a loose one it is whatever value the document holds.
Generation is written once for both, over the document that a label is. -/

namespace ApiTypes

class Label (τ : Type) where
  document : τ → Document
  ofText : String → τ

instance : Label String where
  document := Document.text
  ofText := id

instance : Label Document where
  document := id
  ofText := Document.text

namespace Label

variable {τ : Type} [Label τ]

/-- The label in running text. -/
def plain (a : τ) : String :=
  (document a).plain

/-- The label in a message. -/
def quoted (a : τ) : String :=
  (document a).quoted

/-- The label as a literal. -/
def literal (a : τ) : String :=
  (document a).literal

def isTruthy (a : τ) : Bool :=
  (document a).isTruthy

/-- A label that counts as present: one that is there and not empty. -/
def present? (a : Option τ) : Option τ :=
  a.filter isTruthy

def same (a b : τ) : Bool :=
  (document a).same (document b)

/-- Equality of labels in a comparison. -/
def equal (a b : τ) : Bool :=
  (document a).equal (document b)

/-- The label of a text. -/
def isText (a : τ) (s : String) : Bool :=
  (document a).same (.text s)

def text? (a : τ) : Option String :=
  (document a).text?

def isNull (a : τ) : Bool :=
  match document a with
  | .null => true
  | _ => false

/-- A label that is to serve as the key of a table. -/
def requireKey (a : τ) : Except Error Unit :=
  if (document a).isKey then .ok () else .error (.misfit (.key (document a)))

/-- The text of a label that is to be joined with texts or matched as one. -/
def requireText (a : τ) : Except Error String :=
  match text? a with
  | some s => .ok s
  | none => .error (.misfit (.joining (document a)))

def less (a b : τ) : Bool :=
  (document a).less (document b)

def isNan (a : τ) : Bool :=
  (document a).isNan

/-- The first pair of neighbours that cannot be compared. -/
def unordered? : List Document → Option (Document × Document)
  | a :: b :: rest => if a.isOrdered b then unordered? (b :: rest) else some (a, b)
  | _ => none

/-- Sorts by a label: texts by code point and numbers by value, but not texts
among numbers. Among numbers `nan` stays where the merging of runs leaves it. -/
def sortBy {α : Type} (key : α → τ) (xs : List α) : Except Error (List α) :=
  match unordered? (xs.map fun x => document (key x)) with
  | some (a, b) => .error (.misfit (.order a b))
  | none =>
    .ok (if xs.any fun x => isNan (key x) then
        Sorting.naturalMerge (fun x y => less (key x) (key y)) xs
      else xs.mergeSort fun x y => !less (key y) (key x))

@[simp] theorem plain_string (s : String) : plain s = s := rfl

@[simp] theorem isTruthy_string (s : String) : isTruthy s = !s.isEmpty := rfl

@[simp] theorem isNull_string (s : String) : isNull s = false := rfl

@[simp] theorem requireKey_string (s : String) : requireKey s = .ok () := rfl

@[simp] theorem requireText_string (s : String) : requireText s = .ok s := rfl

@[simp] theorem isNan_string (s : String) : isNan s = false := rfl

@[simp] theorem same_string (s t : String) : same s t = decide (s = t) := by
  simp [same, document, Document.same]

@[simp] theorem equal_string (s t : String) : equal s t = decide (s = t) := by
  simp [equal, document, Document.equal, Document.same, Document.isNan]

end Label

end ApiTypes
