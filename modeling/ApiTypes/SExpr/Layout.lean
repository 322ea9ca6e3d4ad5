import ApiTypes.SExpr.Basic
import ApiTypes.Text.Split

/-! The wide layout of S-expressions. A form that fits the width stands on one
line. One that does not keeps its head on the opening line and puts each
argument on a line of its own, one indent deeper; its closing parenthesis stands
alone at its own indent. -/

namespace ApiTypes.SExpr

open Text

/-- The margin of an indent: two blanks for each step, and none for a negative one. -/
def margin (indent : Int) : List Char :=
  List.replicate (2 * indent).toNat ' '

def flatForm (items : List (List Char)) : List Char :=
  '(' :: Split.join ' ' items ++ [')']

def brokenForm (indent : Int) : List (List Char) → List Char
  | [] => []
  | head :: arguments =>
    '(' :: head ++ arguments.flatMap (fun a => '\n' :: margin (indent + 1) ++ a) ++
      '\n' :: margin indent ++ [')']

/-- The layout of a form whose items are laid out already. -/
def layoutForm (indent width : Int) (items : List (List Char)) : List Char :=
  let flat := flatForm items
  if items.isEmpty || (flat.length ≤ width && !flat.contains '\n') then flat
  else brokenForm indent items

mutual

def layout (indent width : Int) : SExpr → List Char
  | symbol name => name.toList
  | text s => (Literal.literal .unicode s).toList
  | value doc => doc.plain.toList
  | form items => layoutForm indent width (layouts (indent + 1) width items)

def layouts (indent width : Int) : List SExpr → List (List Char)
  | [] => []
  | item :: rest => layout indent width item :: layouts indent width rest

end

/-- The width that dumps are laid out for. -/
def standardWidth : Int := 100

def pretty (e : SExpr) (indent : Int := 0) (width : Int := standardWidth) : String :=
  String.ofList (layout indent width e)

end ApiTypes.SExpr
