import Restyle.StringMap.Basic

/-!
# Maps as JSON

A map is written as a JSON object, an entry on each line, in the order of the
keys.  Of the characters of a text, only quotes, backslashes and control
characters are escaped.

Reading takes any JSON object of texts, however it is laid out and escaped.  Of
two entries with the same key the later one counts.  Anything else, such as a
number among the values, is no map.
-/

namespace Restyle
namespace StringMap

/-! ## Writing -/

/-- A character between quotes. -/
def escapeChar (c : Char) : List Char :=
  if c = '"' then ['\\', '"']
  else if c = '\\' then ['\\', '\\']
  else if c = '\x08' then ['\\', 'b']
  else if c = '\x0c' then ['\\', 'f']
  else if c = '\n' then ['\\', 'n']
  else if c = '\r' then ['\\', 'r']
  else if c = '\t' then ['\\', 't']
  else if c < ' ' then
    ['\\', 'u', '0', '0', Nat.digitChar (c.toNat / 16), Nat.digitChar (c.toNat % 16)]
  else [c]

/-- A text with its quotes. -/
def quote (s : String) : List Char := '"' :: (s.toList.flatMap escapeChar ++ ['"'])

/-- The lines of entries, without the commas. -/
def entryLine (e : String × String) : List Char :=
  ' ' :: ' ' :: (quote e.1 ++ ':' :: ' ' :: quote e.2)

/-- Entries, each on a line after a linebreak, with commas between them. -/
def entryLines : List (String × String) → List Char
  | [] => []
  | [e] => '\n' :: entryLine e
  | e :: rest => '\n' :: (entryLine e ++ ',' :: entryLines rest)

/-- A map as JSON. -/
def toJson (m : StringMap) : String :=
  match m.entries with
  | [] => "\x7b\x7d"
  | entries => String.ofList ('{' :: (entryLines entries ++ ['\n', '}']))

/-! ## Reading -/

/-- The value of a hexadecimal digit. -/
def hexValue? (c : Char) : Option Nat :=
  if '0' ≤ c && c ≤ '9' then some (c.toNat - '0'.toNat)
  else if 'a' ≤ c && c ≤ 'f' then some (c.toNat - 'a'.toNat + 10)
  else if 'A' ≤ c && c ≤ 'F' then some (c.toNat - 'A'.toNat + 10)
  else none

/-- The value of four hexadecimal digits. -/
def hexWord? (a b c d : Char) : Option Nat := do
  return (← hexValue? a) * 4096 + (← hexValue? b) * 256 + (← hexValue? c) * 16 + (← hexValue? d)

/-- Whether a code is the first half of a pair. -/
def isHighHalf (n : Nat) : Bool := 0xd800 ≤ n && n < 0xdc00

/-- Whether a code is the second half of a pair. -/
def isLowHalf (n : Nat) : Bool := 0xdc00 ≤ n && n < 0xe000

/-- The character of an escaped code, and how many characters follow the first
code in the escape: none, or six if the code is half of a pair. -/
def codeChar? (n : Nat) (rest : List Char) : Option (Char × Nat) :=
  if isLowHalf n then none
  else if isHighHalf n then
    match rest with
    | '\\' :: 'u' :: a :: b :: c :: d :: _ =>
      (hexWord? a b c d).bind fun m =>
        if isLowHalf m then
          some (Char.ofNat (0x10000 + (n - 0xd800) * 0x400 + (m - 0xdc00)), 6)
        else none
    | _ => none
  else some (Char.ofNat n, 0)

/-- The character that an escape after a backslash stands for, and how many
characters the escape takes. -/
def escape? : List Char → Option (Char × Nat)
  | 'u' :: a :: b :: c :: d :: rest =>
    (hexWord? a b c d).bind fun n => (codeChar? n rest).map fun (x, more) => (x, 5 + more)
  | c :: _ =>
    match c with
    | '"' => some ('"', 1)
    | '\\' => some ('\\', 1)
    | '/' => some ('/', 1)
    | 'b' => some ('\x08', 1)
    | 'f' => some ('\x0c', 1)
    | 'n' => some ('\n', 1)
    | 'r' => some ('\r', 1)
    | 't' => some ('\t', 1)
    | _ => none
  | [] => none

/-- The rest of a text after its opening quote, and what follows it. -/
def textTail? (cs : List Char) : Option (List Char × List Char) :=
  match cs with
  | [] => none
  | c :: rest =>
    if c = '"' then some ([], rest)
    else if c = '\\' then
      match escape? rest with
      | none => none
      | some (d, n) => (textTail? (rest.drop n)).map fun (text, after) => (d :: text, after)
    else if c < ' ' then none
    else (textTail? rest).map fun (text, after) => (c :: text, after)
termination_by cs.length
decreasing_by all_goals simp only [List.length_cons, List.length_drop]; omega

/-- A text, and what follows it. -/
def text? : List Char → Option (String × List Char)
  | '"' :: rest => (textTail? rest).map fun (text, after) => (String.ofList text, after)
  | _ => none

/-- Drops blanks. -/
def skipBlanks (cs : List Char) : List Char :=
  cs.dropWhile fun c => c == ' ' || c == '\n' || c == '\r' || c == '\t'

/-- What follows a character, after blanks. -/
def after? (c : Char) (cs : List Char) : Option (List Char) :=
  match skipBlanks cs with
  | d :: rest => if c = d then some rest else none
  | [] => none

/-- The entries of an object up to its closing brace, and what follows it.  The
fuel bounds their number. -/
def entries? (fuel : Nat) (cs : List Char) : Option (List (String × String) × List Char) :=
  match fuel with
  | 0 => none
  | fuel + 1 => do
    let (key, rest) ← text? (skipBlanks cs)
    let rest ← after? ':' rest
    let (value, rest) ← text? (skipBlanks rest)
    match skipBlanks rest with
    | ',' :: rest =>
      let (others, rest) ← entries? fuel rest
      return ((key, value) :: others, rest)
    | '}' :: rest => return ([(key, value)], rest)
    | _ => none

/-- The map that a JSON text spells, if it is an object of texts. -/
def ofJson? (s : String) : Option StringMap := do
  let rest ← after? '{' s.toList
  let (entries, rest) ← match skipBlanks rest with
    | '}' :: rest => some ([], rest)
    | rest => entries? (rest.length + 1) rest
  if (skipBlanks rest).isEmpty then some (empty.insertAll entries) else none

end StringMap
end Restyle
