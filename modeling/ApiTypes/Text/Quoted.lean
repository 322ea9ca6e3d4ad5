import ApiTypes.Text.Printable
import ApiTypes.Text.Literal

/-! Quoting of a text inside a message. The quote mark is the apostrophe,
unless the text holds an apostrophe and no double quote; the mark, the
backslash and every unprintable character are escaped. -/

namespace ApiTypes.Text.Quoted

open Literal (hexDigit hex4)

/-- The mark that needs the fewer escapes, the apostrophe being preferred. -/
def mark (cs : List Char) : Char :=
  if cs.contains '\x27' && !cs.contains '\x22' then '\x22' else '\x27'

/-- The code point in the shortest of three fixed widths. -/
def codeEscape (c : Char) : List Char :=
  let n := c.toNat
  if n < 0x100 then '\\' :: 'x' :: [hexDigit (n / 16 % 16), hexDigit (n % 16)]
  else if n < 0x10000 then '\\' :: 'u' :: hex4 n
  else '\\' :: 'U' :: hex4 (n / 0x10000) ++ hex4 n

def escapeChar (quote c : Char) : List Char :=
  if c = quote || c = '\\' then ['\\', c]
  else if c = '\n' then ['\\', 'n']
  else if c = '\r' then ['\\', 'r']
  else if c = '\t' then ['\\', 't']
  else if Printable.isPrintable c then [c]
  else codeEscape c

def quoted (s : String) : String :=
  let cs := s.toList
  String.ofList (mark cs :: cs.flatMap (escapeChar (mark cs)) ++ [mark cs])

end ApiTypes.Text.Quoted
