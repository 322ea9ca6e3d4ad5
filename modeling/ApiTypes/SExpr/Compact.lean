import ApiTypes.SExpr.Basic
import ApiTypes.Text.Split

/-! One printer of S-expressions on a line. How an expression looks on one line is up to a
printer from outside, which dumps take as a parameter; this one stands in for it where a
program runs. A symbol escapes whatever a reader would take for punctuation, and a text only
what its quotes need; truth is the symbol `t`, and null and falsehood are the empty form. -/

namespace ApiTypes.SExpr

/-- The characters that a symbol cannot hold bare. -/
def isPunctuation (c : Char) : Bool :=
  c = '\\' || c = '\x27' || c = '\x60' || c = '\x22' || c = '(' || c = ')' || c = '[' || c = ']' ||
    c = ' ' || c = ',' || c = '?' || c = ';' || c = '#'

def symbolText (name : String) : List Char :=
  name.toList.flatMap fun c => if isPunctuation c then ['\\', c] else [c]

/-- A character of a text; only those that have a letter are escaped. -/
def compactEscape (c : Char) : List Char :=
  match Text.Literal.shortEscape? c with
  | some letter => ['\\', letter]
  | none => [c]

def compactText (s : String) : List Char :=
  '\x22' :: s.toList.flatMap compactEscape ++ ['\x22']

def compactForm (items : List (List Char)) : List Char :=
  '(' :: Text.Split.join ' ' items ++ [')']

mutual

def compactValue : Document → List Char
  | .null | .bool false => ['(', ')']
  | .bool true => ['t']
  | .text s => compactText s
  | .list xs => compactForm (compactValues xs)
  | .object fields => compactForm (compactFields fields)
  | other => other.plain.toList

def compactValues : List Document → List (List Char)
  | [] => []
  | x :: xs => compactValue x :: compactValues xs

def compactFields : List (String × Document) → List (List Char)
  | [] => []
  | (key, v) :: rest => symbolText (":" ++ key) :: compactValue v :: compactFields rest

end

mutual

def compactChars : SExpr → List Char
  | symbol name => symbolText name
  | text s => compactText s
  | value doc => compactValue doc
  | form items => compactForm (compactItems items)

def compactItems : List SExpr → List (List Char)
  | [] => []
  | item :: rest => compactChars item :: compactItems rest

end

/-- The printer that dumps are run with, unless they are given another one. -/
def compact (e : SExpr) : String :=
  String.ofList (compactChars e)

end ApiTypes.SExpr
