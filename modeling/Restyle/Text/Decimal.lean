/-!
# Decimal numbers that fit in a machine word

Counts that a user gives, such as an indent width or a number of workers, are
read as 64-bit words: decimal digits with at most one `+` in front, and nothing
else.  A number that does not fit is refused rather than cut down.
-/

namespace Restyle
namespace Text

/-- The value of a decimal digit. -/
def digit? (c : Char) : Option Nat :=
  if '0' ≤ c ∧ c ≤ '9' then some (c.toNat - '0'.toNat) else none

/-- The value of a list of decimal digits read after `n`. -/
def digitsFrom? (n : Nat) : List Char → Option Nat
  | [] => some n
  | c :: rest => (digit? c).bind fun d => digitsFrom? (10 * n + d) rest

/-- The largest number that a machine word of 64 bits holds. -/
def maxWord : Nat := 18446744073709551615

/-- A machine word, if it is written in at least one digit, after an optional
`+`, and is not too large. -/
def word? (s : String) : Option Nat :=
  let digits := match s.toList with
    | '+' :: rest => rest
    | cs => cs
  match digits with
  | [] => none
  | cs => (digitsFrom? 0 cs).filter (· ≤ maxWord)

end Text
end Restyle
