/-!
# Floating-point numbers of 64 bits

A finite number is held by the shortest decimal that reads back as it: `digits * 10 ^ exponent`,
where `digits` is no multiple of ten unless it is zero, and zero has exponent zero. Two finite
numbers of one sign are therefore equal exactly when these decimals are. The number itself is the
binary fraction nearest to the decimal (`Binary64.dyadic`), which is what a comparison with an
integer needs. Not-a-number is no value of this type, because it is not equal to itself.
-/

set_option autoImplicit false
set_option relaxedAutoImplicit false

namespace DottedPath

/-- An infinity, or a finite number by its sign and its shortest decimal. -/
inductive Binary64
  | infinite (negative : Bool)
  | finite (negative : Bool) (digits : Nat) (exponent : Int)
  deriving DecidableEq

namespace Binary64

/-- The decimal without zeros at the end of its digits. At most `fuel` zeros are removed, and a
positive number has fewer of them than its value. -/
def strip : Nat → Nat → Int → Nat × Int
  | 0, digits, exponent => (digits, exponent)
  | fuel + 1, digits, exponent =>
    if digits % 10 = 0 then strip fuel (digits / 10) (exponent + 1) else (digits, exponent)

/-- The finite number whose shortest decimal is the given one up to zeros at the end. -/
def ofDecimal (negative : Bool) (digits : Nat) (exponent : Int) : Binary64 :=
  if digits = 0 then finite negative 0 0
  else
    let decimal := strip (Nat.log2 digits) digits exponent
    finite negative decimal.1 decimal.2

/-! ### The binary fraction -/

/-- The quotient rounded to the nearest integer, a tie going to the even one. -/
def roundQuotient (numerator denominator : Nat) : Nat :=
  let quotient := numerator / denominator
  let twice := 2 * (numerator % denominator)
  if twice < denominator ∨ (twice = denominator ∧ quotient % 2 = 0) then quotient
  else quotient + 1

/-- The quotient of two positive numbers as a significand of at most 53 bits and a power of two, no
power being below the one of the smallest subnormal number. -/
def nearestDyadic (numerator denominator : Nat) : Nat × Int :=
  let guess : Int := (Nat.log2 numerator : Int) - Nat.log2 denominator - 52
  let scaled (power : Int) : Nat × Nat :=
    (numerator * Nat.pow 2 (-power).toNat, denominator * Nat.pow 2 power.toNat)
  let below := (scaled guess).1 / (scaled guess).2 < Nat.pow 2 52
  let power := max (if below then guess - 1 else guess) (-1074)
  (roundQuotient (scaled power).1 (scaled power).2, power)

/-- The magnitude of the number `digits * 10 ^ exponent` as an integer times a power of two. -/
def dyadic (digits : Nat) (exponent : Int) : Nat × Int :=
  nearestDyadic (digits * Nat.pow 10 exponent.toNat) (Nat.pow 10 (-exponent).toNat)

/-- Equality of an integer and a number, as exact numbers. -/
def eqInt (n : Int) : Binary64 → Bool
  | infinite _ => false
  | finite negative digits exponent =>
    if digits = 0 then n == 0
    else
      let magnitude := dyadic digits exponent
      (n < 0 : Bool) == negative &&
        n.natAbs * Nat.pow 2 (-magnitude.2).toNat == magnitude.1 * Nat.pow 2 magnitude.2.toNat

/-- The integer part of a finite number. -/
def integerPart? : Binary64 → Option Int
  | infinite _ => none
  | finite negative digits exponent =>
    let magnitude := dyadic digits exponent
    let whole : Int := magnitude.1 * Nat.pow 2 magnitude.2.toNat / Nat.pow 2 (-magnitude.2).toNat
    some (if negative then -whole else whole)

/-- The integer that a number equals, if there is one. -/
def toInt? (x : Binary64) : Option Int :=
  x.integerPart?.filter fun n ↦ x.eqInt n

theorem eqInt_of_toInt? {x : Binary64} {n : Int} (h : x.toInt? = some n) : x.eqInt n = true :=
  (Option.filter_eq_some_iff.mp h).2

/-- Equality of numbers, where both zeros are equal. -/
def eq : Binary64 → Binary64 → Bool
  | finite s digits exponent, finite t digits' exponent' =>
    (digits == 0 && digits' == 0) || (s == t && digits == digits' && exponent == exponent')
  | infinite s, infinite t => s == t
  | _, _ => false

/-! ### Written form -/

/-- The decimal digits of a number as a list of characters. -/
def decimalDigits (n : Nat) : List Char :=
  Nat.toDigits 10 n

/-- The exponent in scientific notation: a sign and at least two digits. -/
def renderExponent (exponent : Int) : List Char :=
  let digits := decimalDigits exponent.natAbs
  let padded := if digits.length < 2 then '0' :: digits else digits
  'e' :: (if exponent < 0 then '-' else '+') :: padded

/-- A decimal is positional when its first digit stands between the fourth place after the point and
the sixteenth place before it, and scientific otherwise. A positional integer keeps `.0`. -/
def renderDecimal (digits : Nat) (exponent : Int) : List Char :=
  let figures := decimalDigits digits
  let point : Int := figures.length + exponent
  if -4 < point ∧ point ≤ 16 then
    if 0 ≤ exponent then figures ++ List.replicate exponent.toNat '0' ++ ['.', '0']
    else if 0 < point then
      figures.take point.toNat ++ '.' :: figures.drop point.toNat
    else '0' :: '.' :: List.replicate (-point).toNat '0' ++ figures
  else
    match figures with
    | [] => []
    | [figure] => figure :: renderExponent (point - 1)
    | figure :: more => figure :: '.' :: more ++ renderExponent (point - 1)

/-- The shortest text that reads back as the number. -/
def render : Binary64 → String
  | infinite negative => if negative then "-inf" else "inf"
  | finite negative digits exponent =>
    String.ofList ((if negative then ['-'] else []) ++ renderDecimal digits exponent)

/-! ### Reading -/

/-- The number that a list of decimal digits writes. -/
def ofDigits (cs : List Char) : Nat :=
  cs.foldl (fun n c ↦ 10 * n + (c.toNat - '0'.toNat)) 0

/-- A non-empty list of decimal digits. -/
def digits? (cs : List Char) : Option Nat :=
  if cs ≠ [] ∧ cs.all Char.isDigit then some (ofDigits cs) else none

/-- The exponent of a decimal, zero when nothing is written. -/
def readExponent? : List Char → Option Int
  | [] => some 0
  | 'e' :: '-' :: cs => (digits? cs).map fun n ↦ -(n : Int)
  | 'e' :: '+' :: cs => (digits? cs).map fun n ↦ (n : Int)
  | 'e' :: cs => (digits? cs).map fun n ↦ (n : Int)
  | _ => none

/-- The magnitude of a number, given its sign. -/
def readMagnitude? (negative : Bool) (cs : List Char) : Option Binary64 :=
  if cs = ['i', 'n', 'f'] then some (infinite negative)
  else
    let whole := cs.takeWhile Char.isDigit
    let afterWhole := cs.dropWhile Char.isDigit
    let (places, rest) :=
      match afterWhole with
      | '.' :: more => (more.takeWhile Char.isDigit, more.dropWhile Char.isDigit)
      | _ => ([], afterWhole)
    do
      let digits ← digits? (whole ++ places)
      let exponent ← readExponent? rest
      return ofDecimal negative digits (exponent - places.length)

/-- The number that a text in positional or scientific notation writes. -/
def read? (s : String) : Option Binary64 :=
  match s.toList with
  | '-' :: cs => readMagnitude? true cs
  | cs => readMagnitude? false cs

end Binary64

end DottedPath
