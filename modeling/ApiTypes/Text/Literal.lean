/-! Quoted literals, spelled as JSON strings. A quote, a backslash and every
control character are escaped; what else stands for itself depends on the
alphabet of the output. -/

namespace ApiTypes.Text.Literal

/-- Which characters an output may hold raw: all of Unicode, or the printable
ASCII characters alone. -/
inductive Alphabet where
  | unicode
  | ascii
  deriving DecidableEq, Repr

def hexDigit (n : Nat) : Char :=
  if n < 10 then Char.ofNat (0x30 + n) else Char.ofNat (0x57 + n)

/-- The low sixteen bits as four hexadecimal digits. -/
def hex4 (n : Nat) : List Char :=
  [hexDigit (n / 4096 % 16), hexDigit (n / 256 % 16), hexDigit (n / 16 % 16), hexDigit (n % 16)]

def unitEscape (n : Nat) : List Char :=
  '\\' :: 'u' :: hex4 n

/-- A character by its code units of sixteen bits: one, or a surrogate pair. -/
def codeEscape (c : Char) : List Char :=
  let n := c.toNat
  if n < 0x10000 then unitEscape n
  else unitEscape (0xd800 + (n - 0x10000) / 0x400) ++ unitEscape (0xdc00 + (n - 0x10000) % 0x400)

def shortEscape? (c : Char) : Option Char :=
  if c = '\x22' then some '\x22'
  else if c = '\\' then some '\\'
  else if c = '\n' then some 'n'
  else if c = '\r' then some 'r'
  else if c = '\t' then some 't'
  else if c = '\x08' then some 'b'
  else if c = '\x0c' then some 'f'
  else none

def Alphabet.isRaw (a : Alphabet) (c : Char) : Bool :=
  0x20 ≤ c.toNat && (a = .unicode || c.toNat < 0x7f)

def escapeChar (a : Alphabet) (c : Char) : List Char :=
  match shortEscape? c with
  | some letter => ['\\', letter]
  | none => if a.isRaw c then [c] else codeEscape c

def body (a : Alphabet) (cs : List Char) : List Char :=
  cs.flatMap (escapeChar a)

def literal (a : Alphabet) (s : String) : String :=
  String.ofList ('\x22' :: body a s.toList ++ ['\x22'])

end ApiTypes.Text.Literal
