import ApiTypes.Label
import ApiTypes.Text.Blank
import ApiTypes.Text.Split

/-! Documentation blocks. A description is trimmed on the right and keeps its
lines; a deprecated entry gets one line more. Inside a line every end of comment
is broken by a backslash, so the block ends where its last line says. -/

namespace ApiTypes.Text.DocBlock

/-- Puts a backslash into every end of comment. -/
def escapeEnd : List Char → List Char
  | '*' :: '/' :: rest => '*' :: '\\' :: '/' :: escapeEnd rest
  | c :: rest => c :: escapeEnd rest
  | [] => []

def deprecatedLine : List Char := "@deprecated".toList

/-- The lines to write: none for an empty description that is not deprecated. -/
def linesOf (description : List Char) (deprecated : Bool) : List (List Char) :=
  (if description.isEmpty then []
    else Split.split '\n' (Split.trimRight Blank.isBlank description)) ++
      (if deprecated then [deprecatedLine] else [])

/-- The block of some lines, each behind a star, at an indent. No lines make no
block. -/
def ofLines (indent : Nat) (lines : List (List Char)) : List Char :=
  if lines.isEmpty then []
  else
    let margin := List.replicate (2 * indent) ' '
    margin ++ "/**\n".toList ++
      lines.flatMap (fun line => margin ++ " * ".toList ++ escapeEnd line ++ ['\n']) ++
      margin ++ " */\n".toList

def block (description : String) (deprecated : Bool) (indent : Nat) : String :=
  String.ofList (ofLines indent (linesOf description.toList deprecated))

/-- The block of a description that may be missing; one that is there and not
empty has to be a text. -/
def ofLabel {τ : Type} [Label τ] (description : Option τ) (deprecated : Bool) (indent : Nat) :
    Except Error String :=
  match Label.present? description with
  | none => .ok (block "" deprecated indent)
  | some label =>
    match Label.text? label with
    | some s => .ok (block s deprecated indent)
    | none => .error (.misfit (.editing (Label.document label)))

end ApiTypes.Text.DocBlock
