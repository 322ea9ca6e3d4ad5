/-! How a module uses an identifier. A declaration outweighs an import, so it is
the one that keeps its spelling. -/

namespace ApiTypes

inductive Usage where
  | declaration
  | imported
  deriving DecidableEq, Repr

namespace Usage

def weight : Usage → Nat
  | declaration => 0
  | imported => 1

def text : Usage → String
  | declaration => "declaration"
  | imported => "import"

end Usage

end ApiTypes
