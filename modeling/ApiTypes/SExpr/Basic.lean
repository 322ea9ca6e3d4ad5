import ApiTypes.Document.Printer

/-! S-expressions: symbols, texts, other plain values, and forms, which are lists
of expressions. -/

namespace ApiTypes

inductive SExpr where
  | symbol (name : String)
  | text (value : String)
  | value (doc : Document)
  | form (items : List SExpr)
  deriving Inhabited

namespace SExpr

/-- A form that begins with a symbol. -/
def tagged (tag : String) (arguments : List SExpr) : SExpr :=
  form (symbol tag :: arguments)

mutual

/-- A list becomes a form and a text a text; every other value stands for itself. -/
def ofDocument : Document → SExpr
  | .text s => text s
  | .list xs => form (ofDocuments xs)
  | other => value other

def ofDocuments : List Document → List SExpr
  | [] => []
  | x :: xs => ofDocument x :: ofDocuments xs

end

end SExpr

end ApiTypes
