import ApiTypes.Proofs.SExpr.Lexemes
import ApiTypes.Proofs.Document.OneLine

/-! Where a layout breaks. A form decides for itself, by the length of what it is on one line: a
form that is short enough has short items, and none of them has broken before it. The decision
stays the same wherever the form stands, and around a form that is broken every other form is
broken too. -/

namespace ApiTypes.SExpr

open Text

mutual

/-- A tree on one line. -/
def flat : SExpr → List Char
  | symbol name => name.toList
  | text s => (Literal.literal .unicode s).toList
  | value doc => doc.plain.toList
  | form items => flatForm (flats items)

def flats : List SExpr → List (List Char)
  | [] => []
  | item :: rest => flat item :: flats rest

end

/-- A form with one item left out. -/
structure Frame where
  before : List SExpr
  after : List SExpr

namespace Frame

/-- The lexemes in front of the missing item. -/
def opening (f : Frame) : List (List Char) :=
  ['('] :: allLexemes f.before

def closing (f : Frame) : List (List Char) :=
  allLexemes f.after ++ [[')']]

end Frame

end ApiTypes.SExpr
