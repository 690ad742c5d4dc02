import Restyle.Text.Decimal
import Restyle.Toml.Value

/-!
# Reading the plain values of a TOML document

Numbers, truth values, dates and times are words: nothing but letters, digits and
a few signs.  A word is read as a whole, so a word that only starts like a number
is none.  Texts are read from their opening quote to their closing one.
-/

namespace Restyle
namespace Toml

/-! ## Numbers -/

/-- The digits of a group in which underscores stand only between two digits. -/
def digitGroup? (isDigit : Char → Bool) : List Char → Option (List Char)
  | [] => none
  | [c] => if isDigit c then some [c] else none
  | c :: '_' :: rest => if isDigit c then (digitGroup? isDigit rest).map (c :: ·) else none
  | c :: rest => if isDigit c then (digitGroup? isDigit rest).map (c :: ·) else none

/-- The value of a digit in a base. -/
def digitIn? (base : Nat) (c : Char) : Option Nat :=
  let n :=
    if '0' ≤ c && c ≤ '9' then c.toNat - '0'.toNat
    else if 'a' ≤ c && c ≤ 'f' then c.toNat - 'a'.toNat + 10
    else if 'A' ≤ c && c ≤ 'F' then c.toNat - 'A'.toNat + 10
    else base
  if n < base then some n else none

/-- The value of digits in a base. -/
def number (base : Nat) (digits : List Char) : Nat :=
  digits.foldl (fun n c => base * n + (digitIn? base c).getD 0) 0

/-- The value of a group of digits in a base. -/
def groupValue? (base : Nat) (cs : List Char) : Option Nat :=
  (digitGroup? (fun c => (digitIn? base c).isSome) cs).map (number base)

/-- A sign, if there is one, and the rest: whether the sign is a minus. -/
def sign : List Char → Bool × List Char
  | '-' :: rest => (true, rest)
  | '+' :: rest => (false, rest)
  | cs => (false, cs)

/-- The digits of a whole number, which does not start with a zero unless it is
zero. -/
def wholeDigits? (cs : List Char) : Option (List Char) :=
  match digitGroup? (fun c => (digitIn? 10 c).isSome) cs with
  | some ('0' :: _ :: _) => none
  | other => other

/-- A whole number of 64 bits with a sign. -/
def inRange? (n : Int) : Option Value :=
  if -9223372036854775808 ≤ n && n ≤ 9223372036854775807 then some (.integer n) else none

/-- A whole number: decimal with an optional sign, or in another base. -/
def integer? (cs : List Char) : Option Value :=
  match cs with
  | '0' :: 'x' :: rest => (groupValue? 16 rest).bind fun n => inRange? n
  | '0' :: 'o' :: rest => (groupValue? 8 rest).bind fun n => inRange? n
  | '0' :: 'b' :: rest => (groupValue? 2 rest).bind fun n => inRange? n
  | _ =>
    let (negative, rest) := sign cs
    (wholeDigits? rest).bind fun digits =>
      let n : Int := number 10 digits
      inRange? (if negative then -n else n)

/-- The exponent of a number, with its mark: none at all counts as zero. -/
def exponent? : List Char → Option Int
  | [] => some 0
  | c :: rest =>
    if c = 'e' || c = 'E' then
      let (negative, digits) := sign rest
      (groupValue? 10 digits).map fun n => if negative then -(n : Int) else n
    else none

/-- The fraction of a number, with its point: none at all counts as empty. -/
def fraction? : List Char → Option (List Char)
  | [] => some []
  | c :: rest =>
    if c = '.' then digitGroup? (fun c => (digitIn? 10 c).isSome) rest else none

/-- A number with a fraction or an exponent.  A positive number that is too large
is refused. -/
def float? (cs : List Char) : Option Value :=
  let (negative, body) := sign cs
  if body = ['i', 'n', 'f'] then some (.float (.infinite negative))
  else if body = ['n', 'a', 'n'] then some (.float .nan)
  else
    let whole := body.takeWhile fun c => c != '.' && c != 'e' && c != 'E'
    let rest := body.drop whole.length
    let point := rest.takeWhile fun c => c != 'e' && c != 'E'
    match rest, wholeDigits? whole, fraction? point, exponent? (rest.drop point.length) with
    | _ :: _, some digits, some places, some e =>
      let x := Binary64.ofDecimal negative (number 10 (digits ++ places)) (e - places.length)
      if x = .infinite false then none else some (.float x)
    | _, _, _, _ => none

/-! ## Dates and times -/

/-- A number of exactly so many digits at the start of a text, and the rest. -/
def fixed? (width : Nat) (cs : List Char) : Option (Nat × List Char) :=
  let digits := cs.take width
  if digits.length = width && digits.all (fun c => (digitIn? 10 c).isSome) then
    some (number 10 digits, cs.drop width)
  else none

/-- A number within bounds, of exactly so many digits. -/
def bounded? (width low high : Nat) (cs : List Char) : Option (Nat × List Char) :=
  (fixed? width cs).filter fun (n, _) => low ≤ n && n ≤ high

/-- The rest of a text after a character. -/
def after? (c : Char) : List Char → Option (List Char)
  | d :: rest => if c = d then some rest else none
  | [] => none

/-- A number with zeros in front up to a width. -/
def padded (width n : Nat) : String :=
  let digits := Nat.toDigits 10 n
  String.ofList (List.replicate (width - digits.length) '0' ++ digits)

/-- The number of days in a month. -/
def daysIn (year month : Nat) : Nat :=
  if month = 2 then
    if year % 4 = 0 && (year % 100 != 0 || year % 400 = 0) then 29 else 28
  else if month = 4 || month = 6 || month = 9 || month = 11 then 30
  else 31

/-- A date, and the rest. -/
def date? (cs : List Char) : Option (String × List Char) := do
  let (year, cs) ← fixed? 4 cs
  let cs ← after? '-' cs
  let (month, cs) ← bounded? 2 1 12 cs
  let cs ← after? '-' cs
  let (day, cs) ← bounded? 2 1 (daysIn year month) cs
  return (padded 4 year ++ "-" ++ padded 2 month ++ "-" ++ padded 2 day, cs)

/-- The fraction of a second, to at most nine places and without zeros at the
end. -/
def secondFraction (digits : List Char) : String :=
  match ((digits.take 9).reverse.dropWhile (· == '0')).reverse with
  | [] => ""
  | places => "." ++ String.ofList places

/-- A time of day, and the rest. -/
def time? (cs : List Char) : Option (String × List Char) := do
  let (hour, cs) ← bounded? 2 0 23 cs
  let cs ← after? ':' cs
  let (minute, cs) ← bounded? 2 0 59 cs
  let cs ← after? ':' cs
  let (second, cs) ← bounded? 2 0 60 cs
  let clock := padded 2 hour ++ ":" ++ padded 2 minute ++ ":" ++ padded 2 second
  match cs with
  | '.' :: rest =>
    let digits := rest.takeWhile fun c => (digitIn? 10 c).isSome
    if digits.isEmpty then none
    else return (clock ++ secondFraction digits, rest.drop digits.length)
  | _ => return (clock, cs)

/-- The distance of a time from the prime meridian, up to the end of the text. -/
def offset? (cs : List Char) : Option String :=
  match cs with
  | [] => some ""
  | ['Z'] | ['z'] => some "Z"
  | mark :: rest =>
    if mark != '+' && mark != '-' then none
    else do
      let (hours, cs) ← bounded? 2 0 23 rest
      let cs ← after? ':' cs
      let (minutes, cs) ← bounded? 2 0 59 cs
      if !cs.isEmpty then none
      else
        let west := mark == '-' && (hours != 0 || minutes != 0)
        return (if west then "-" else "+") ++ padded 2 hours ++ ":" ++ padded 2 minutes

/-- Whether a character stands between a date and a time. -/
def isDateEnd (c : Char) : Bool := c == 'T' || c == 't' || c == ' '

/-- A date, a time, or a date with a time. -/
def moment? (cs : List Char) : Option Value :=
  match date? cs with
  | some (date, []) => some (.moment date)
  | some (date, c :: rest) =>
    if !isDateEnd c then none
    else do
      let (time, rest) ← time? rest
      let offset ← offset? rest
      return .moment (date ++ "T" ++ time ++ offset)
  | none => match time? cs with
    | some (time, []) => some (.moment time)
    | _ => none

/-! ## Words -/

/-- Whether a character can stand in a word. -/
def isWordChar (c : Char) : Bool :=
  c.isAlphanum || c == '_' || c == '+' || c == '-' || c == '.' || c == ':'

/-- The value that a word stands for. -/
def word? (cs : List Char) : Option Value :=
  if cs = ['t', 'r', 'u', 'e'] then some (.boolean true)
  else if cs = ['f', 'a', 'l', 's', 'e'] then some (.boolean false)
  else (moment? cs).orElse fun _ => (float? cs).orElse fun _ => integer? cs

/-- The word at the start of a text.  A date goes on after a space if a digit
follows there. -/
def wordLength (cs : List Char) : Nat :=
  let first := cs.takeWhile isWordChar
  match date? first, cs.drop first.length with
  | some (_, []), ' ' :: c :: rest =>
    if c.isDigit then first.length + 1 + ((c :: rest).takeWhile isWordChar).length
    else first.length
  | _, _ => first.length

/-- The value at the start of a text that is a word, and the rest. -/
def scalar? (cs : List Char) : Option (Value × List Char) :=
  let n := wordLength cs
  (word? (cs.take n)).map fun v => (v, cs.drop n)

/-! ## Texts -/

/-- Whether a character can stand in a text as it is. -/
def isPlain (c : Char) : Bool := c == '\t' || !isControl c

/-- The character with a code, in hexadecimal digits. -/
def codePoint? (digits : List Char) : Option Char :=
  if digits.all (fun c => (digitIn? 16 c).isSome) then
    let n := number 16 digits
    if n.isValidChar then some (Char.ofNat n) else none
  else none

/-- The character that an escape of one letter stands for. -/
def simpleEscape? (c : Char) : Option Char :=
  match c with
  | 'b' => some '\x08'
  | 't' => some '\t'
  | 'n' => some '\n'
  | 'f' => some '\x0c'
  | 'r' => some '\r'
  | '"' => some '"'
  | '\\' => some '\\'
  | _ => none

/-- The character that an escape after a backslash stands for, and how many
characters the escape takes. -/
def escape? : List Char → Option (Char × Nat)
  | 'u' :: rest => if 4 ≤ rest.length then (codePoint? (rest.take 4)).map (·, 5) else none
  | 'U' :: rest => if 8 ≤ rest.length then (codePoint? (rest.take 8)).map (·, 9) else none
  | c :: _ => (simpleEscape? c).map (·, 1)
  | [] => none

/-- Reads on after a text has been given one more character. -/
def prepend (c : Char) : Option (List Char × List Char) → Option (List Char × List Char)
  | some (text, rest) => some (c :: text, rest)
  | none => none

/-- The rest of a text between double quotes, and what follows it. -/
def basicTail? (fuel : Nat) (cs : List Char) : Option (List Char × List Char) :=
  match fuel, cs with
  | 0, _ | _, [] => none
  | fuel + 1, c :: rest =>
    if c = '"' then some ([], rest)
    else if c = '\\' then
      (escape? rest).bind fun (d, n) => prepend d (basicTail? fuel (rest.drop n))
    else if isPlain c then prepend c (basicTail? fuel rest)
    else none

/-- The rest of a text between single quotes, and what follows it. -/
def literalTail? : List Char → Option (List Char × List Char)
  | [] => none
  | c :: rest =>
    if c = '\x27' then some ([], rest)
    else if isPlain c then prepend c (literalTail? rest)
    else none

/-- The rest of a text after a linebreak. -/
def newline? : List Char → Option (List Char)
  | '\n' :: rest => some rest
  | '\r' :: '\n' :: rest => some rest
  | _ => none

/-- Drops spaces, tabs and linebreaks. -/
def skipBlank (fuel : Nat) (cs : List Char) : List Char :=
  match fuel, cs with
  | 0, _ | _, [] => cs
  | fuel + 1, c :: rest =>
    if c == ' ' || c == '\t' then skipBlank fuel rest
    else match newline? (c :: rest) with
      | some after => skipBlank fuel after
      | none => c :: rest

/-- The rest of a text of several lines that ends with three of the given quotes,
and what follows it.  One or two more quotes before those belong to the text.  With
`escapes`, a backslash starts an escape, or joins two lines. -/
def longTail? (quote : Char) (escapes : Bool) (fuel : Nat) (cs : List Char) :
    Option (List Char × List Char) :=
  match fuel, cs with
  | 0, _ | _, [] => none
  | fuel + 1, c :: rest =>
    if c = quote then
      let quotes := ((c :: rest).takeWhile (· == quote)).length
      if 3 ≤ quotes then
        let inside := min quotes 5 - 3
        some (List.replicate inside quote, (c :: rest).drop (inside + 3))
      else prepend c (longTail? quote escapes fuel rest)
    else if c = '\\' && escapes then
      match newline? (rest.dropWhile fun c => c == ' ' || c == '\t') with
      | some after => longTail? quote escapes fuel (skipBlank after.length after)
      | none => (escape? rest).bind fun (d, n) =>
          prepend d (longTail? quote escapes fuel (rest.drop n))
    else match newline? (c :: rest) with
      | some after => prepend '\n' (longTail? quote escapes fuel after)
      | none => if isPlain c then prepend c (longTail? quote escapes fuel rest) else none

/-- What follows a linebreak right after the opening quotes of a long text. -/
def skipFirstNewline (cs : List Char) : List Char := (newline? cs).getD cs

/-- A text at the start of the input, in any of the four notations, and the
rest. -/
def string? (cs : List Char) : Option (String × List Char) :=
  let made := match cs with
    | '"' :: '"' :: '"' :: rest => longTail? '"' true (cs.length + 1) (skipFirstNewline rest)
    | '\x27' :: '\x27' :: '\x27' :: rest => longTail? '\x27' false (cs.length + 1) (skipFirstNewline rest)
    | '"' :: rest => basicTail? (cs.length + 1) rest
    | '\x27' :: rest => literalTail? rest
    | _ => none
  made.map fun (text, rest) => (String.ofList text, rest)

end Toml
end Restyle
