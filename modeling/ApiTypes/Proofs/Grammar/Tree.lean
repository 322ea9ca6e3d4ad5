import ApiTypes.Proofs.Text.Exports

/-! The grammar of type expressions. A type is a row of alternatives, an alternative joins
one or more parts, and a part is a keyword, a literal, a name, an array, a record, or a block
of fields on lines of their own. There are no parentheses, and joining binds tighter than
the choice. A tree says how a text is read in this grammar; a tree with gaps also has
alternatives without parts, which only texts outside of the grammar have. -/

namespace ApiTypes.Grammar

open Text Scan

inductive Keyword where
  | string
  | number
  | boolean
  | unknown
  | null
  deriving DecidableEq, Repr

def Keyword.text : Keyword → String
  | string => "string"
  | number => "number"
  | boolean => "boolean"
  | unknown => "unknown"
  | null => "null"

/-- The key of a field: bare, or as a literal by what stands between its quotes. -/
inductive Key where
  | bare (x : String)
  | quoted (body : List Char)

mutual

/-- A part of an alternative. Literals and documentation are given by what stands between
their marks. -/
inductive Atom where
  | keyword (k : Keyword)
  | literal (body : List Char)
  | name (x : String)
  | array (items : List (List Atom))
  | record (values : List (List Atom))
  | block (fields : List Field)

inductive Field where
  | mk (doc : Option (List Char)) (key : Key) (optional : Bool) (value : List (List Atom))

end

/-- The parts of an alternative. -/
abbrev Conjunction := List Atom

/-- A type, by its alternatives. -/
abbrev Alternatives := List Conjunction

/-! ### The text of a tree -/

/-- Texts with a separator between neighbours. -/
def joined (separator : List Char) : List (List Char) → List Char
  | [] => []
  | x :: rest => x ++ rest.flatMap (separator ++ ·)

def quotedChars (body : List Char) : List Char :=
  '\x22' :: (body ++ ['\x22'])

def commentChars (body : List Char) : List Char :=
  '/' :: '*' :: (body ++ ['*', '/'])

def Key.chars : Key → List Char
  | bare x => x.toList
  | quoted body => quotedChars body

/-- What stands between alternatives. -/
def bar : List Char := [' ', '|', ' ']

/-- What stands between the parts of an alternative. -/
def ampersand : List Char := [' ', '&', ' ']

/-- The beginning of a line in a block. -/
def margin : List Char := ['\n', ' ', ' ']

def oneOf (alternatives : List (List Char)) : List Char :=
  joined bar alternatives

def allOf (parts : List (List Char)) : List Char :=
  joined ampersand parts

def arrayChars (items : List Char) : List Char :=
  ['A', 'r', 'r', 'a', 'y'] ++ '<' :: (items ++ ['>'])

def recordChars (values : List Char) : List Char :=
  ['R', 'e', 'c', 'o', 'r', 'd'] ++
    '<' :: (['s', 't', 'r', 'i', 'n', 'g', ',', ' '] ++ values ++ ['>'])

/-- The line of a field, behind its documentation. -/
def fieldChars (doc : Option (List Char)) (key : Key) (optional : Bool) (value : List Char) :
    List Char :=
  (doc.elim [] fun body => commentChars body ++ margin) ++ key.chars ++
    (if optional then ['?', ':', ' '] else [':', ' ']) ++ value ++ [';']

/-- Lines in braces, each behind two blanks; without lines the braces alone. -/
def blockChars (lines : List (List Char)) : List Char :=
  if lines.isEmpty then ['\x7b', '\x7d']
  else '\x7b' :: (margin ++ joined margin lines ++ ['\n', '\x7d'])

mutual

def Atom.chars : Atom → List Char
  | .keyword k => k.text.toList
  | .literal body => quotedChars body
  | .name x => x.toList
  | .array items => arrayChars (oneOf (Conjunction.texts items))
  | .record values => recordChars (oneOf (Conjunction.texts values))
  | .block fields => blockChars (Field.texts fields)

def Atom.texts : List Atom → List (List Char)
  | [] => []
  | a :: rest => a.chars :: Atom.texts rest

def Conjunction.texts : List (List Atom) → List (List Char)
  | [] => []
  | c :: rest => allOf (Atom.texts c) :: Conjunction.texts rest

def Field.chars : Field → List Char
  | .mk doc key optional value => fieldChars doc key optional (oneOf (Conjunction.texts value))

def Field.texts : List Field → List (List Char)
  | [] => []
  | f :: rest => f.chars :: Field.texts rest

end

def Conjunction.chars (c : Conjunction) : List Char :=
  allOf (Atom.texts c)

def Alternatives.chars (t : Alternatives) : List Char :=
  oneOf (Conjunction.texts t)

theorem Atom.texts_eq (as : List Atom) : Atom.texts as = as.map Atom.chars := by
  induction as with
  | nil => rfl
  | cons a rest ih => rw [Atom.texts, ih, List.map_cons]

theorem Conjunction.texts_eq (cs : List Conjunction) :
    Conjunction.texts cs = cs.map Conjunction.chars := by
  induction cs with
  | nil => rfl
  | cons c rest ih =>
    rw [Conjunction.texts, ih, List.map_cons]
    rfl

theorem Field.texts_eq (fs : List Field) : Field.texts fs = fs.map Field.chars := by
  induction fs with
  | nil => rfl
  | cons f rest ih => rw [Field.texts, ih, List.map_cons]

/-! ### Trees of the grammar -/

/-- What may stand between the quotes of a literal: quotes, backslashes and control
characters are escaped. -/
structure IsLiteral (body : List Char) : Prop where
  escaped : Escaped body
  printed : ∀ c ∈ body, 0x20 ≤ c.toNat

/-- What may stand between the marks of documentation. -/
structure IsDoc (body : List Char) : Prop where
  starred : body.head? = some '*'
  closed : ¬ endOfComment <:+: body

/-- An identifier: characters of names, of which the first one is no digit. -/
structure IsIdentifier (x : String) : Prop where
  nonempty : x ≠ ""
  chars : Over (Export.isNameChar · = true) x
  start : ∀ c ∈ x.toList.head?, c.isDigit = false

/-- An identifier that is no keyword of the grammar. -/
structure IsName (x : String) : Prop where
  identifier : IsIdentifier x
  other : ∀ k : Keyword, x ≠ k.text

def Key.Valid : Key → Prop
  | bare x => PropertyKey.isIdentifier x.toList = true
  | quoted body => IsLiteral body

section

variable (gaps : Bool)

mutual

/-- Parts of the grammar, with gaps or without. -/
def Atom.Valid : Atom → Prop
  | .keyword _ => True
  | .literal body => IsLiteral body
  | .name x => IsName x
  | .array items => items ≠ [] ∧ Conjunction.AllValid items
  | .record values => values ≠ [] ∧ Conjunction.AllValid values
  | .block fields => Field.AllValid fields

def Atom.AllValid : List Atom → Prop
  | [] => True
  | a :: rest => a.Valid ∧ Atom.AllValid rest

def Conjunction.AllValid : List (List Atom) → Prop
  | [] => True
  | c :: rest => ((gaps = true ∨ c ≠ []) ∧ Atom.AllValid c) ∧ Conjunction.AllValid rest

def Field.Valid : Field → Prop
  | .mk doc key _ value =>
    (∀ body ∈ doc, IsDoc body) ∧ key.Valid ∧ value ≠ [] ∧ Conjunction.AllValid value

def Field.AllValid : List Field → Prop
  | [] => True
  | f :: rest => f.Valid ∧ Field.AllValid rest

end

/-- A conjunction of the grammar. -/
def Conjunction.Valid (c : Conjunction) : Prop :=
  (gaps = true ∨ c ≠ []) ∧ Atom.AllValid gaps c

/-- A type of the grammar. -/
def Alternatives.Valid (t : Alternatives) : Prop :=
  t ≠ [] ∧ Conjunction.AllValid gaps t

end

/-- A tree reads a text: it is one of the grammar, and the text is its own. -/
def Derives (t : Alternatives) (text : String) : Prop :=
  t.Valid false ∧ t.chars = text.toList

end ApiTypes.Grammar
