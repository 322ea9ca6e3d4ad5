import ApiTypes.Import.Source
import ApiTypes.Name.Usage

/-! The members of a module. A member first registers what it needs and later
renders its text. A plan does no more than that: it makes a fixed list of
requests, and its text is put together from pieces that depend on the context
and on spellings alone. A member in general is a script, which may ask anything
of its module at either time. -/

namespace ApiTypes

/-- What a member may ask for while its module is applied. -/
inductive Request (τ : Type) where
  | name (identifier : τ) (usage : Usage)
  | useMember (source : Source τ) (member : τ) (localName : Option τ) (typeOnly : Bool)
  | lookup (identifier : τ)

/-- A thing of the module with a spelling: a declaration, or an imported member. -/
inductive Symbol (τ : Type) where
  | declared (identifier : τ)
  | imported (source : Source τ) (member : τ)

/-- A piece of text: fixed, the spelling of a symbol, or computed from the context
and some spellings, which are read in order first. -/
inductive Piece (τ : Type) where
  | text (s : String)
  | spelling (symbol : Symbol τ)
  | computed (symbols : List (Symbol τ))
      (text : Context τ → List τ → Except Error String)

structure Plan (τ : Type) where
  requests : List (Request τ) := []
  pieces : List (Piece τ) := []

mutual

inductive Member (τ : Type) where
  | script (apply : List (Action τ)) (render : List (Part τ))

/-- What a script may do. Requests collect bindings, in order; `read` reads one, which
a negative index counts from the end. -/
inductive Action (τ : Type) where
  | request (r : Request τ)
  | read (index : Int)
  | add (member : Member τ)
  | render
  | resolve
  | use (source : Source τ) (member : τ)
  | observe

inductive Part (τ : Type) where
  | piece (p : Piece τ)
  | binding (index : Int)
  | action (a : Action τ)

end

variable {τ : Type} [Label τ]

/-- The text of a piece, given the spellings of symbols. -/
def Piece.render (ctx : Context τ) (spell : Symbol τ → Except Error τ) :
    Piece τ → Except Error String
  | text s => .ok s
  | spelling symbol => (spell symbol).map Label.plain
  | computed symbols f => do f ctx (← symbols.mapM spell)

namespace Plan

/-- One plan after the other. -/
def append (p q : Plan τ) : Plan τ :=
  { requests := p.requests ++ q.requests, pieces := p.pieces ++ q.pieces }

instance : Append (Plan τ) := ⟨append⟩

def ofText (s : String) : Plan τ :=
  { pieces := [.text s] }

/-- The plan that reads some symbols and writes nothing. -/
def check (symbols : List (Symbol τ)) : Plan τ :=
  { pieces := [.computed symbols fun _ _ => .ok ""] }

/-- The plan that writes nothing and fails unless the spellings of some symbols are
texts. -/
def requireTexts (symbols : List (Symbol τ)) : Plan τ :=
  { pieces := [.computed symbols fun _ spellings => do
      spellings.forM fun s => discard (Label.requireText s)
      return ""] }

/-- Plans in order, with a fixed text between neighbours. -/
def intercalate (separator : String) : List (Plan τ) → Plan τ
  | [] => {}
  | [p] => p
  | p :: rest => p ++ ofText separator ++ intercalate separator rest

/-- The text of a plan. -/
def render (ctx : Context τ) (spell : Symbol τ → Except Error τ) (p : Plan τ) :
    Except Error String := do
  return String.join (← p.pieces.mapM (Piece.render ctx spell))

def toMember (p : Plan τ) : Member τ :=
  .script (p.requests.map .request) (p.pieces.map .piece)

end Plan

end ApiTypes
