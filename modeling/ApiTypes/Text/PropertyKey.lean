import ApiTypes.Label

/-! Property keys of a generated type. A plain identifier, which is an ASCII
letter followed by ASCII letters, digits and underscores, stands bare; any other
name is quoted as a literal. -/

namespace ApiTypes.Text.PropertyKey

def isLetter (c : Char) : Bool :=
  ('a' ≤ c && c ≤ 'z') || ('A' ≤ c && c ≤ 'Z')

def isWordChar (c : Char) : Bool :=
  isLetter c || ('0' ≤ c && c ≤ '9') || c = '_'

def isIdentifier : List Char → Bool
  | [] => false
  | c :: rest => isLetter c && rest.all isWordChar

def key (name : String) : String :=
  if isIdentifier name.toList then name else Literal.literal .unicode name

/-- The key of a label, which has to be a text. -/
def ofLabel {τ : Type} [Label τ] (name : τ) : Except Error String :=
  (Label.requireText name).map key

end ApiTypes.Text.PropertyKey
