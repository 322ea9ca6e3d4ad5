/-! Cutting a text at a separator, joining pieces with one, and trimming a text on
the right. A text has one piece more than it has separators, and joining its
pieces gives it back. -/

namespace ApiTypes.Text.Split

def split (separator : Char) : List Char → List (List Char)
  | [] => [[]]
  | c :: rest =>
    if c = separator then [] :: split separator rest
    else
      match split separator rest with
      | [] => [[c]]
      | piece :: others => (c :: piece) :: others

def join (separator : Char) : List (List Char) → List Char
  | [] => []
  | [piece] => piece
  | piece :: rest => piece ++ separator :: join separator rest

/-- Drops the longest end whose characters all satisfy a test. -/
def trimRight (drop : Char → Bool) : List Char → List Char
  | [] => []
  | c :: rest =>
    match trimRight drop rest with
    | [] => if drop c then [] else [c]
    | kept => c :: kept

theorem split_ne_nil (separator : Char) (cs : List Char) : split separator cs ≠ [] := by
  cases cs with
  | nil => simp [split]
  | cons c rest =>
    rw [split]
    split
    · simp
    · split <;> simp

end ApiTypes.Text.Split
