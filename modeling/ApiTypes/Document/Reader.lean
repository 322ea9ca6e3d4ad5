import ApiTypes.Document.Basic

/-! Reading a document from its JSON text. The reader works on the characters
that are left; an error remembers what was left where it arose, which gives its
offset, line and column. The names of what is not finite are accepted, a
repeated field keeps its first place and takes its last value, and a byte order
mark is refused. An integer may be long and lists and objects may be nested, but
only up to a limit.

A text holds characters, and half of a surrogate pair is none. So an escape of one
half alone, which a text of sixteen-bit units could keep, is read as the replacement
character. -/

namespace ApiTypes.Document.Reader

open Number (Binary64)

/-- Why a text is not a document. -/
inductive Cause where
  | byteOrderMark
  | extraData
  | expectedValue
  | expectedFieldName
  | expectedColon
  | expectedComma
  | unterminatedText
  | controlCharacter
  | invalidEscape
  | invalidCodeEscape
  | tooManyDigits
  | tooDeep
  deriving DecidableEq, Repr

/-- Whether the text is no JSON; otherwise it goes beyond a limit of the reader. -/
def Cause.isSyntax : Cause → Bool
  | tooManyDigits | tooDeep => false
  | _ => true

def Cause.message : Cause → String
  | byteOrderMark => "Unexpected UTF-8 BOM (decode using utf-8-sig)"
  | extraData => "Extra data"
  | expectedValue => "Expecting value"
  | expectedFieldName => "Expecting property name enclosed in double quotes"
  | expectedColon => "Expecting ':' delimiter"
  | expectedComma => "Expecting ',' delimiter"
  | unterminatedText => "Unterminated string starting at"
  | controlCharacter => "Invalid control character at"
  | invalidEscape => "Invalid \\escape"
  | invalidCodeEscape => "Invalid \\uXXXX escape"
  | tooManyDigits => "Integer has too many digits"
  | tooDeep => "Nested too deeply"

/-- A cause and what was left of the text where it arose. -/
structure Failure where
  cause : Cause
  rest : List Char

/-- A cause and the offset, from zero, of the character where it arose, with the
line and column, from one, of that character. -/
structure Error where
  cause : Cause
  line : Nat
  column : Nat
  offset : Nat
  deriving DecidableEq, Repr

def Error.message (e : Error) : String :=
  s!"{e.cause.message}: line {e.line} column {e.column} (char {e.offset})"

/-- The line and column after a piece of text. -/
def position : List Char → Nat × Nat → Nat × Nat
  | [], at' => at'
  | c :: rest, (line, column) =>
    position rest (if c = '\n' then (line + 1, 1) else (line, column + 1))

def Failure.locate (whole : List Char) (f : Failure) : Error :=
  let offset := whole.length - f.rest.length
  let (line, column) := position (whole.take offset) (1, 1)
  ⟨f.cause, line, column, offset⟩

def isSpace (c : Char) : Bool :=
  c = ' ' || c = '\t' || c = '\n' || c = '\r'

def skipSpace (cs : List Char) : List Char :=
  cs.dropWhile isSpace

def hexValue? (c : Char) : Option Nat :=
  if '0' ≤ c && c ≤ '9' then some (c.toNat - 0x30)
  else if 'a' ≤ c && c ≤ 'f' then some (c.toNat - 0x57)
  else if 'A' ≤ c && c ≤ 'F' then some (c.toNat - 0x37)
  else none

/-- Four hexadecimal digits with at least one character after them. -/
def codeUnit? : List Char → Option (Nat × List Char)
  | a :: b :: c :: d :: next :: rest => do
    let value := (((← hexValue? a) * 16 + (← hexValue? b)) * 16 + (← hexValue? c)) * 16 +
      (← hexValue? d)
    return (value, next :: rest)
  | _ => none

def isHigh (unit : Nat) : Bool := 0xd800 ≤ unit && unit < 0xdc00
def isLow (unit : Nat) : Bool := 0xdc00 ≤ unit && unit < 0xe000

/-- The character of one code unit. Half of a pair is no character and becomes the
replacement character, so a text with one half alone is not told from a text with
that character. -/
def ofUnit (unit : Nat) : Char :=
  if isHigh unit || isLow unit then '\ufffd' else Char.ofNat unit

def ofPair (high low : Nat) : Char :=
  Char.ofNat (0x10000 + (high - 0xd800) * 0x400 + (low - 0xdc00))

/-- The code after `\u`. A high half takes the low half that follows it; another
escape that follows it is left for its own turn. -/
def codeEscape (atLetter rest : List Char) : Except Failure (Char × List Char) :=
  match codeUnit? rest with
  | none => .error ⟨.invalidCodeEscape, atLetter⟩
  | some (high, after) =>
    match after with
    | '\\' :: 'u' :: a :: b :: c :: d :: next :: more =>
      if isHigh high then
        match codeUnit? (a :: b :: c :: d :: next :: more) with
        | none => .error ⟨.invalidCodeEscape, 'u' :: a :: b :: c :: d :: next :: more⟩
        | some (low, beyond) =>
          if isLow low then .ok (ofPair high low, beyond) else .ok (ofUnit high, after)
      else .ok (ofUnit high, after)
    | _ => .ok (ofUnit high, after)

def simpleEscape? (c : Char) : Option Char :=
  match c with
  | '\x22' => some '\x22'
  | '\\' => some '\\'
  | '/' => some '/'
  | 'b' => some '\x08'
  | 'f' => some '\x0c'
  | 'n' => some '\n'
  | 'r' => some '\r'
  | 't' => some '\t'
  | _ => none

/-- A text from behind its opening quote, which is where `start` begins. A character
costs one unit of fuel. -/
def textBody (start : List Char) : Nat → List Char → List Char →
    Except Failure (String × List Char)
  | 0, _, _ => .error ⟨.unterminatedText, start⟩
  | _ + 1, _, [] => .error ⟨.unterminatedText, start⟩
  | fuel + 1, done, c :: rest =>
    if c = '\x22' then .ok (String.ofList done.reverse, rest)
    else if c = '\\' then
      match rest with
      | [] => .error ⟨.unterminatedText, start⟩
      | letter :: after =>
        if letter = 'u' then
          match codeEscape rest after with
          | .error e => .error e
          | .ok (decoded, beyond) => textBody start fuel (decoded :: done) beyond
        else
          match simpleEscape? letter with
          | some decoded => textBody start fuel (decoded :: done) after
          | none => .error ⟨.invalidEscape, c :: rest⟩
    else if c.toNat < 0x20 then .error ⟨.controlCharacter, c :: rest⟩
    else textBody start fuel (c :: done) rest

def decimalValue (digits : List Char) : Nat :=
  digits.foldl (fun n c => n * 10 + (c.toNat - 0x30)) 0

/-- An exponent mark with its sign and at least one digit. -/
def exponent? (cs : List Char) : Option (Int × List Char) :=
  match cs with
  | mark :: rest =>
    if mark = 'e' || mark = 'E' then
      let (negative, rest) := match rest with
        | '-' :: more => (true, more)
        | '+' :: more => (false, more)
        | same => (false, same)
      let digits := rest.takeWhile Char.isDigit
      if digits.isEmpty then none
      else
        let value : Int := decimalValue digits
        some (if negative then -value else value, rest.dropWhile Char.isDigit)
    else none
  | [] => none

/-- A point with at least one digit after it. -/
def fraction? (cs : List Char) : Option (List Char × List Char) :=
  match cs with
  | '.' :: rest =>
    let digits := rest.takeWhile Char.isDigit
    if digits.isEmpty then none else some (digits, rest.dropWhile Char.isDigit)
  | _ => none

/-- The integer part: a lone zero, or digits that do not start with zero. -/
def whole? (cs : List Char) : Option (List Char × List Char) :=
  match cs with
  | '0' :: rest => some (['0'], rest)
  | c :: _ =>
    if c.isDigit then some (cs.takeWhile Char.isDigit, cs.dropWhile Char.isDigit) else none
  | [] => none

/-- The digits that an integer has at most. -/
def digitLimit : Nat := 4300

/-- The lists and objects that a value stands in at most, itself included. Reading
alone has this limit of a recursion. Loading, compiling and dumping recurse as well,
and a runtime may stop them at some depth; here they have no limit. -/
def depthLimit : Nat := 988

/-- A number is an integer unless it has a fraction or an exponent. -/
def number (cs : List Char) : Except Failure (Document × List Char) :=
  let (negative, unsigned) := match cs with
    | '-' :: rest => (true, rest)
    | same => (false, same)
  match whole? unsigned with
  | none => .error ⟨.expectedValue, cs⟩
  | some (digits, rest) =>
    let part := fraction? rest
    let (decimals, rest) := part.getD ([], rest)
    let power := exponent? rest
    let (scale, rest) := power.getD (0, rest)
    if part.isSome || power.isSome then
      .ok (real (Binary64.ofDecimal negative (decimalValue (digits ++ decimals))
        (scale - decimals.length)), rest)
    else if digitLimit < digits.length then .error ⟨.tooManyDigits, cs⟩
    else
      let value : Int := decimalValue digits
      .ok (integer (if negative then -value else value), rest)

/-- The fixed words of the format. -/
def words : List (List Char × Document) :=
  [("null".toList, null), ("true".toList, bool true), ("false".toList, bool false),
    ("NaN".toList, real .nan), ("Infinity".toList, real (.infinite false)),
    ("-Infinity".toList, real (.infinite true))]

def word? (cs : List Char) : Option (Document × List Char) :=
  words.findSome? fun (word, value) =>
    if word.isPrefixOf cs then some (value, cs.drop word.length) else none

/-- What is to be read next. -/
inductive Goal where
  | value
  | items (done : List Document)
  | fields (done : List (String × Document))

/-- Reads a value, the items of a list from an item on, or the fields of an object
from a field on. One step more of depth or breadth costs one unit of fuel, which is
always more than there are characters left. The second number says how many lists
and objects deeper it may get. -/
def read : Nat → Nat → Goal → List Char → Except Failure (Document × List Char)
  | 0, _, _, cs => .error ⟨.expectedValue, cs⟩
  | fuel + 1, depth, .value, cs =>
    match cs with
    | [] => .error ⟨.expectedValue, cs⟩
    | c :: rest =>
      if c = '\x22' then do
        let (s, after) ← textBody cs fuel [] rest
        return (text s, after)
      else if (c = '[' || c = '\x7b') && depth = 0 then .error ⟨.tooDeep, cs⟩
      else if c = '[' then
        match skipSpace rest with
        | ']' :: after => .ok (list [], after)
        | first => read fuel (depth - 1) (.items []) first
      else if c = '\x7b' then
        match skipSpace rest with
        | '\x7d' :: after => .ok (object [], after)
        | first => read fuel (depth - 1) (.fields []) first
      else
        match word? cs with
        | some found => .ok found
        | none => number cs
  | fuel + 1, depth, .items done, cs => do
    let (item, after) ← read fuel depth .value cs
    match skipSpace after with
    | ']' :: rest => return (list (done ++ [item]), rest)
    | ',' :: rest => read fuel depth (.items (done ++ [item])) (skipSpace rest)
    | other => .error ⟨.expectedComma, other⟩
  | fuel + 1, depth, .fields done, cs =>
    match cs with
    | '\x22' :: body => do
      let (key, after) ← textBody cs fuel [] body
      match skipSpace after with
      | ':' :: rest =>
        let (value, after) ← read fuel depth .value (skipSpace rest)
        let done := insert key value done
        match skipSpace after with
        | '\x7d' :: rest => return (object done, rest)
        | ',' :: rest => read fuel depth (.fields done) (skipSpace rest)
        | other => .error ⟨.expectedComma, other⟩
      | other => .error ⟨.expectedColon, other⟩
    | other => .error ⟨.expectedFieldName, other⟩

def readAll (cs : List Char) : Except Failure Document :=
  match cs with
  | '\ufeff' :: _ => .error ⟨.byteOrderMark, cs⟩
  | _ => do
    let (value, after) ← read (2 * cs.length + 1) depthLimit .value (skipSpace cs)
    match skipSpace after with
    | [] => return value
    | other => .error ⟨.extraData, other⟩

/-- The document that a text spells. -/
def document (s : String) : Except Error Document :=
  (readAll s.toList).mapError (Failure.locate s.toList)

end ApiTypes.Document.Reader
