import ApiTypes.Number.Binary64

/-! The text of a floating-point number: the fewest decimal digits that read
back as the same number, of those the nearest to it, laid out positionally for
moderate exponents and in scientific form otherwise. -/

namespace ApiTypes.Number.Shortest

open Binary64 (scaled twoPow tenPow)

/-- The digits `d₁ d₂ … dₙ` of `0.d₁d₂…dₙ * 10 ^ (exponent + 1)`. -/
structure Digits where
  digits : List Char
  exponent : Int

/-- The value `mantissa * 2 ^ exponent` and the ends of the interval of reals that
round to it, over one denominator. -/
structure Interval where
  low : Nat
  value : Nat
  high : Nat
  den : Nat
  closed : Bool

/-- Each end lies half way to a neighbour; below a power of two the gap is half as
wide. -/
def intervalOf (mantissa : Nat) (exponent : Int) : Interval :=
  let narrow := mantissa = twoPow 52 ∧ Binary64.leastExponent < exponent
  let (unit, den) := scaled 1 4 exponent
  { low := (4 * mantissa - if narrow then 1 else 2) * unit
    value := 4 * mantissa * unit
    high := (4 * mantissa + 2) * unit
    den := den
    closed := mantissa % 2 = 0 }

def Interval.holds (i : Interval) (num den : Nat) : Bool :=
  if i.closed then i.low * den ≤ num * i.den && num * i.den ≤ i.high * den
  else i.low * den < num * i.den && num * i.den < i.high * den

def decimalLength (n : Nat) : Nat :=
  (Nat.toDigits 10 n).length

/-- The power of ten at or below a positive quotient. -/
def decimalExponent (num den : Nat) : Int :=
  if den ≤ num then (decimalLength (num / den) : Int) - 1
  else
    let size := decimalLength (den / num)
    if den ≤ num * tenPow (size - 1) then 1 - (size : Int) else -(size : Int)

/-- `10 ^ power` as a quotient. -/
def tenPower (power : Int) : Nat × Nat :=
  match power with
  | .ofNat k => (tenPow k, 1)
  | .negSucc k => (1, tenPow (k + 1))

/-- The multiple of `10 ^ power` next to the value that reads back, if one
does. Of two the nearer wins, and a tie goes to the even digit. -/
def gridPoint? (i : Interval) (power : Int) : Option Nat :=
  let (up, down) := tenPower power
  let below := i.value * down / (i.den * up)
  let holdsAt (k : Nat) := i.holds (k * up) down
  let twice := 2 * i.value * down
  let middle := (2 * below + 1) * i.den * up
  match holdsAt below, holdsAt (below + 1) with
  | true, false => some below
  | false, true => some (below + 1)
  | true, true =>
    some (if twice < middle then below else if middle < twice then below + 1
      else if below % 2 = 0 then below else below + 1)
  | false, false => none

/-- Searches the decimal grids from the coarsest on; seventeen digits always
suffice. -/
def search (i : Interval) (exponent : Int) : Nat → Nat → Nat × Int
  | 0, size => (i.value / i.den, size)
  | fuel + 1, size =>
    match gridPoint? i (exponent - size + 1) with
    | some k => (k, exponent - size + 1)
    | none => search i exponent fuel (size + 1)

/-- The shortest digits of a positive finite number, without trailing zeros. -/
def digitsOf (mantissa : Nat) (exponent : Int) : Digits :=
  let i := intervalOf mantissa exponent
  let (k, power) := search i (decimalExponent i.value i.den) 17 1
  let digits := Nat.toDigits 10 k
  let kept := (digits.reverse.dropWhile (· = '0')).reverse
  { digits := kept, exponent := power + digits.length - 1 }

/-- Where positional notation begins and ends, as decimal exponents, and the
least number of digits in a written exponent. -/
structure Layout where
  least : Int
  bound : Int
  exponentDigits : Nat

/-- Numbers from `0.0001` up to below ten to the sixteenth are written
positionally, always with a point; an exponent has a sign and two digits. -/
def standard : Layout := ⟨-4, 16, 2⟩

def padded (width : Nat) (n : Nat) : List Char :=
  let digits := Nat.toDigits 10 n
  List.replicate (width - digits.length) '0' ++ digits

def Layout.positional (ds : List Char) (exponent : Int) : List Char :=
  match exponent with
  | .negSucc k => '0' :: '.' :: List.replicate k '0' ++ ds
  | .ofNat k =>
    if ds.length ≤ k + 1 then ds ++ List.replicate (k + 1 - ds.length) '0' ++ ['.', '0']
    else ds.take (k + 1) ++ '.' :: ds.drop (k + 1)

def Layout.scientific (layout : Layout) (ds : List Char) (exponent : Int) : List Char :=
  let fraction := match ds with
    | first :: second :: rest => first :: '.' :: second :: rest
    | short => short
  fraction ++ 'e' :: (if exponent < 0 then '-' else '+') ::
    padded layout.exponentDigits exponent.natAbs

def Layout.write (layout : Layout) (d : Digits) : List Char :=
  if layout.least ≤ d.exponent ∧ d.exponent < layout.bound then
    Layout.positional d.digits d.exponent
  else layout.scientific d.digits d.exponent

/-- The text of a finite number. -/
def text (negative : Bool) (mantissa : Nat) (exponent : Int) : String :=
  let magnitude :=
    if mantissa = 0 then ['0', '.', '0'] else standard.write (digitsOf mantissa exponent)
  String.ofList (if negative then '-' :: magnitude else magnitude)

end ApiTypes.Number.Shortest
