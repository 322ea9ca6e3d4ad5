/-! Blank characters. Blank is the Unicode property of white space, together with
the four separators of the ASCII control block; the zero-width characters are
not blank. -/

namespace ApiTypes.Text.Blank

/-- Blank code points from U+0080 on that stand alone or form a range. -/
def wide : List (Nat × Nat) :=
  [(0x85, 0x85), (0xa0, 0xa0), (0x1680, 0x1680), (0x2000, 0x200a),
    (0x2028, 0x2029), (0x202f, 0x202f), (0x205f, 0x205f), (0x3000, 0x3000)]

def isBlank (c : Char) : Bool :=
  let n := c.toNat
  (9 ≤ n && n ≤ 13) || (0x1c ≤ n && n ≤ 0x20) ||
    wide.any fun range => range.1 ≤ n && n ≤ range.2

end ApiTypes.Text.Blank
