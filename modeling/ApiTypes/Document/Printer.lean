import ApiTypes.Document.Basic
import ApiTypes.Number.Shortest
import ApiTypes.Text.Quoted

/-! Three texts of a document. The quoted form is the one of messages and shows
the type of every value; the plain form differs from it only in a text, which
stands for itself; the literal form is JSON with Unicode kept as it is. -/

namespace ApiTypes.Document

open Number (Binary64 Shortest.text)
open Text

/-- How a form spells what is not finite. -/
structure Spellings where
  infinite : String
  nan : String

def realText (names : Spellings) : Binary64 → String
  | .finite negative mantissa exponent => Shortest.text negative mantissa exponent
  | .infinite negative => if negative then "-" ++ names.infinite else names.infinite
  | .nan => names.nan

def messageReals : Spellings := ⟨"inf", "nan"⟩
def literalReals : Spellings := ⟨"Infinity", "NaN"⟩

mutual

/-- The form of messages. -/
def quoted : Document → String
  | null => "None"
  | bool b => if b then "True" else "False"
  | integer n => toString n
  | real x => realText messageReals x
  | text s => Quoted.quoted s
  | list xs => "[" ++ ", ".intercalate (quotedItems xs) ++ "]"
  | object fields => "\x7b" ++ ", ".intercalate (quotedFields fields) ++ "\x7d"

def quotedItems : List Document → List String
  | [] => []
  | x :: xs => quoted x :: quotedItems xs

def quotedFields : List (String × Document) → List String
  | [] => []
  | (k, v) :: rest => (Quoted.quoted k ++ ": " ++ quoted v) :: quotedFields rest

end

/-- The form of running text. -/
def plain : Document → String
  | text s => s
  | other => other.quoted

mutual

/-- The form of literals. -/
def literal : Document → String
  | null => "null"
  | bool b => if b then "true" else "false"
  | integer n => toString n
  | real x => realText literalReals x
  | text s => Literal.literal .unicode s
  | list xs => "[" ++ ", ".intercalate (literalItems xs) ++ "]"
  | object fields => "\x7b" ++ ", ".intercalate (literalFields fields) ++ "\x7d"

def literalItems : List Document → List String
  | [] => []
  | x :: xs => literal x :: literalItems xs

def literalFields : List (String × Document) → List String
  | [] => []
  | (k, v) :: rest => (Literal.literal .unicode k ++ ": " ++ literal v) :: literalFields rest

end

@[simp] theorem plain_text (s : String) : plain (text s) = s := rfl

@[simp] theorem literal_text (s : String) : literal (text s) = Literal.literal .unicode s := by
  simp [literal]

end ApiTypes.Document
