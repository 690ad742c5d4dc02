/-!
# Binary floating point numbers and their decimals

A settings file may hold a number with a fraction.  Such a number is kept in
double precision, so it is rounded when it is read, and it is written with the
fewest digits that read back to the same number.

Both directions are exact integer arithmetic.  A finite number is
`significand · 2 ^ exponent`, with a significand below `2 ^ 53` and an exponent of
at least `-1074`.  Reading a decimal rounds a quotient of natural numbers to
nearest, ties to even.  Writing looks for a decimal in the interval of numbers
that would be rounded to this one, first with one digit, then with two, and so on;
seventeen always suffice.
-/

namespace Restyle

/-- A double precision number. -/
inductive Binary64 where
  /-- Not a number. -/
  | nan
  /-- Plus or minus infinity. -/
  | infinite (negative : Bool)
  /-- Plus or minus `significand · 2 ^ exponent`. -/
  | finite (negative : Bool) (significand : Nat) (exponent : Int)
deriving Repr, DecidableEq

namespace Binary64

/-- The least exponent of a finite number. -/
def minExponent : Int := -1074

/-- The largest exponent of a finite number with 53 binary digits. -/
def maxExponent : Int := 971

/-- The least significand with 53 binary digits, which is `2 ^ 52`. -/
def leastNormal : Nat := 4503599627370496

/-- The quotient `n / d` rounded to the nearest whole number, ties to even. -/
def roundDiv (n d : Nat) : Nat :=
  let q := n / d
  let twice := 2 * (n % d)
  if twice < d then q
  else if d < twice then q + 1
  else if q % 2 = 0 then q else q + 1

/-- `n · base ^ e` as a quotient of natural numbers. -/
def scale (base n : Nat) (e : Int) : Nat × Nat :=
  if 0 ≤ e then (n * Nat.pow base e.toNat, 1) else (n, Nat.pow base (-e).toNat)

/-! ## Reading -/

/-- The number nearest to `n / d`. -/
def ofQuotient (negative : Bool) (n d : Nat) : Binary64 :=
  if n = 0 then .finite negative 0 0
  else
    let guess : Int := (n.log2 : Int) - (d.log2 : Int) - 52
    let fits (e : Int) : Bool := let (p, q) := scale 2 d e; leastNormal * p ≤ n * q
    let e := max (if fits guess then guess else guess - 1) minExponent
    let (p, q) := scale 2 d e
    let m := roundDiv (n * q) p
    let (m, e) := if m = 2 * leastNormal then (leastNormal, e + 1) else (m, e)
    if maxExponent < e then .infinite negative else .finite negative m e

/-- The number nearest to `digits · 10 ^ e`.  A decimal that is out of all range
is not worked out. -/
def ofDecimal (negative : Bool) (digits : Nat) (e : Int) : Binary64 :=
  let magnitude : Int := (Nat.toDigits 10 digits).length + e
  if digits = 0 || magnitude < -400 then .finite negative 0 0
  else if 400 < magnitude then .infinite negative
  else
    let (n, d) := scale 10 digits e
    ofQuotient negative n d

/-! ## Writing -/

/-- The numbers that round to `m · 2 ^ e`: twice the lower end, twice the number
and twice the upper end, over a common denominator. -/
structure Interval where
  /-- The lower end. -/
  lower : Nat
  /-- The number itself. -/
  middle : Nat
  /-- The upper end. -/
  upper : Nat
  /-- The denominator. -/
  denominator : Nat
  /-- Whether the ends belong to the interval. -/
  closed : Bool

/-- The interval of a significand and an exponent.  Below a power of two the
numbers lie twice as close. -/
def interval (m : Nat) (e : Int) : Interval :=
  let below := if m = leastNormal && minExponent < e then 1 else 2
  let (p, q) := scale 2 1 (e - 2)
  ⟨(4 * m - below) * p, 4 * m * p, (4 * m + 2) * p, q, m % 2 = 0⟩

namespace Interval

/-- Whether `digits · 10 ^ e` lies in the interval. -/
def contains (i : Interval) (digits : Nat) (e : Int) : Bool :=
  let (n, d) := scale 10 digits e
  let x := n * i.denominator
  if i.closed then i.lower * d ≤ x && x ≤ i.upper * d else i.lower * d < x && x < i.upper * d

/-- The exponent of the leading decimal digit of the number. -/
def leading (i : Interval) : Int :=
  let guess : Int :=
    (Nat.toDigits 10 i.middle).length - (Nat.toDigits 10 i.denominator).length
  let (n, d) := scale 10 1 guess
  if n * i.denominator ≤ i.middle * d then guess else guess - 1

/-- The nearest decimal with an exponent that lies in the interval. -/
def decimalAt? (i : Interval) (e : Int) : Option Nat :=
  let (n, d) := scale 10 i.denominator e
  let low := i.middle * d / n
  let nearest := roundDiv (i.middle * d) n
  if i.contains nearest e then some nearest
  else if i.contains low e then some low
  else if i.contains (low + 1) e then some (low + 1)
  else none

/-- The decimal with the fewest digits, starting with `17 - more` of them. -/
def shortestFrom (i : Interval) : Nat → Nat × Int
  | 0 => let e := i.leading - 16; ((i.decimalAt? e).getD 0, e)
  | more + 1 =>
    let e := i.leading - (16 - (more + 1 : Nat) : Int)
    match i.decimalAt? e with
    | some digits => (digits, e)
    | none => shortestFrom i more

end Interval

/-- The fewest digits that read back to `m · 2 ^ e`, and their exponent. -/
def shortest (m : Nat) (e : Int) : Nat × Int := (interval m e).shortestFrom 16

/-- Digits with a point where the exponent says.  A whole number gets a point and
a zero. -/
def positional (digits : Nat) (e : Int) : String :=
  let ds := Nat.toDigits 10 digits
  if 0 ≤ e then String.ofList (ds ++ List.replicate e.toNat '0') ++ ".0"
  else
    let places := (-e).toNat
    let padded := List.replicate (places + 1 - ds.length) '0' ++ ds
    let whole := padded.take (padded.length - places)
    let fraction := padded.drop (padded.length - places)
    let fraction := (fraction.reverse.dropWhile (· == '0')).reverse
    String.ofList whole ++ "." ++ (if fraction.isEmpty then "0" else String.ofList fraction)

/-- A number without an exponent, in the fewest digits that read back. -/
def text : Binary64 → String
  | nan => "nan"
  | infinite negative => if negative then "-inf" else "inf"
  | finite negative m e =>
    (if negative then "-" else "") ++
      if m = 0 then "0.0" else let (digits, e) := shortest m e; positional digits e

end Binary64
end Restyle
