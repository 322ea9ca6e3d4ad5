/-! Binary floating-point numbers with 53 bits of precision, as exact values:
a finite number is a sign, an integer mantissa and a power of two. Decimals are
read by rounding the exact quotient to the nearest number, a tie going to the
even mantissa. -/

namespace ApiTypes.Number

/-- A finite number is `mantissa * 2 ^ exponent` with its sign. The mantissa is
below `2 ^ 53`, and at least `2 ^ 52` unless the exponent is the least one. -/
inductive Binary64 where
  | finite (negative : Bool) (mantissa : Nat) (exponent : Int)
  | infinite (negative : Bool)
  | nan
  deriving DecidableEq, Repr

namespace Binary64

/-- The powers of two. -/
def twoPow (k : Nat) : Nat := Nat.pow 2 k

/-- The powers of ten. -/
def tenPow (k : Nat) : Nat := Nat.pow 10 k

def leastExponent : Int := -1074
def greatestExponent : Int := 971

def isZero : Binary64 → Bool
  | finite _ mantissa _ => mantissa = 0
  | _ => false

/-- The quotient rounded to the nearest integer, a tie going to the even one. -/
def roundDiv (num den : Nat) : Nat :=
  let q := num / den
  let r := num % den
  if 2 * r < den then q
  else if den < 2 * r then q + 1
  else if q % 2 = 0 then q else q + 1

/-- `num / den` scaled by a power of two, as a quotient of naturals. -/
def scaled (num den : Nat) (shift : Int) : Nat × Nat :=
  match shift with
  | .ofNat k => (num * twoPow k, den)
  | .negSucc k => (num, den * twoPow (k + 1))

/-- The exponent at which the quotient has a mantissa of 53 bits. -/
def normalExponent (num den : Nat) : Int :=
  let guess : Int := (Nat.log2 num : Int) - Nat.log2 den - 52
  let (n, d) := scaled num den (-guess)
  if n < twoPow 52 * d then guess - 1 else guess

def ofQuotient (negative : Bool) (num den : Nat) : Binary64 :=
  if num = 0 then finite negative 0 leastExponent
  else
    let exponent := max leastExponent (normalExponent num den)
    let (n, d) := scaled num den (-exponent)
    let mantissa := roundDiv n d
    let (mantissa, exponent) :=
      if mantissa = twoPow 53 then (twoPow 52, exponent + 1) else (mantissa, exponent)
    if greatestExponent < exponent then infinite negative
    else finite negative mantissa exponent

/-- `digits * 10 ^ power`, rounded. Beyond the powers that any number reaches
the answer is an infinity or a zero, and no large power is computed. -/
def ofDecimal (negative : Bool) (digits : Nat) (power : Int) : Binary64 :=
  let size : Int := (Nat.toDigits 10 digits).length
  if digits = 0 ∨ size + power < -400 then finite negative 0 leastExponent
  else if 400 < size + power then infinite negative
  else
    match power with
    | .ofNat k => ofQuotient negative (digits * tenPow k) 1
    | .negSucc k => ofQuotient negative digits (tenPow (k + 1))

/-- A finite number as an exact fraction. -/
def fraction (negative : Bool) (mantissa : Nat) (exponent : Int) : Int × Nat :=
  let (num, den) := scaled mantissa 1 exponent
  (if negative then -(num : Int) else num, den)

/-- Whether a number has exactly the value of an integer. -/
def isInteger (x : Binary64) (n : Int) : Bool :=
  match x with
  | finite negative mantissa exponent =>
    let (num, den) := fraction negative mantissa exponent
    num = n * den
  | _ => false

/-- Sameness of values: the two zeros are the same, and `nan` is the same as itself. -/
def same : Binary64 → Binary64 → Bool
  | finite s m e, finite s' m' e' => (m = 0 && m' = 0) || (s = s' && m = m' && e = e')
  | infinite s, infinite s' => s = s'
  | nan, nan => true
  | _, _ => false

/-- The order of values; `nan` is below nothing and above nothing. -/
def less : Binary64 → Binary64 → Bool
  | nan, _ => false
  | _, nan => false
  | infinite s, infinite s' => s && !s'
  | infinite s, finite .. => s
  | finite .., infinite s => !s
  | finite s m e, finite s' m' e' =>
    let (a, b) := fraction s m e
    let (c, d) := fraction s' m' e'
    a * d < c * b

/-- Whether a number is below an integer. -/
def lessInteger (x : Binary64) (n : Int) : Bool :=
  match x with
  | finite negative mantissa exponent =>
    let (num, den) := fraction negative mantissa exponent
    num < n * den
  | infinite negative => negative
  | nan => false

/-- Whether an integer is below a number. -/
def integerLess (n : Int) (x : Binary64) : Bool :=
  match x with
  | finite negative mantissa exponent =>
    let (num, den) := fraction negative mantissa exponent
    n * den < num
  | infinite negative => !negative
  | nan => false

end Binary64

end ApiTypes.Number
