import Restyle.Number.Binary64

/-!
# Values of a TOML document

The values of a document, with the entries of a table in the order of their keys,
and the way a value is written on one line.  What a table writes last are the
tables in it.

A text is written between double quotes with escapes, unless it holds a quote or
a backslash and can stand between single quotes as it is.  A text of several
lines is written over several lines.
-/

namespace Restyle
namespace Toml

/-- A value. -/
inductive Value where
  /-- A text. -/
  | text (s : String)
  /-- A whole number. -/
  | integer (n : Int)
  /-- A number with a fraction or an exponent. -/
  | float (x : Binary64)
  /-- A truth value. -/
  | boolean (b : Bool)
  /-- A date, a time of day, or both, as it is written. -/
  | moment (s : String)
  /-- A list of values. -/
  | array (items : List Value)
  /-- Values by key. -/
  | table (entries : List (String × Value))
deriving Repr

/-! ## Writing texts -/

/-- A hexadecimal digit in upper case. -/
def hexDigit (n : Nat) : Char := (Nat.digitChar n).toUpper

/-- A control character as an escape of four hexadecimal digits. -/
def codeEscape (c : Char) : List Char :=
  let n := c.toNat
  ['\\', 'u', '0', '0', hexDigit (n / 16), hexDigit (n % 16)]

/-- Whether a character cannot stand in a text unescaped. -/
def isControl (c : Char) : Bool := c < ' ' || c == '\x7f'

/-- A character between double quotes. -/
def escapeChar (c : Char) : List Char :=
  if c = '\x08' then ['\\', 'b']
  else if c = '\t' then ['\\', 't']
  else if c = '\n' then ['\\', 'n']
  else if c = '\x0c' then ['\\', 'f']
  else if c = '\r' then ['\\', 'r']
  else if c = '"' then ['\\', '"']
  else if c = '\\' then ['\\', '\\']
  else if isControl c then codeEscape c
  else [c]

/-- The length of the longest run of single quotes. -/
def longestQuoteRun (cs : List Char) : Nat :=
  (cs.foldl (fun ((run, most) : Nat × Nat) c =>
    if c = '\x27' then (run + 1, max most (run + 1)) else (0, most)) (0, 0)).2

/-- Whether a text is better written between single quotes: it holds what would
be escaped otherwise, and nothing that has to be. -/
def prefersLiteral (cs : List Char) : Bool :=
  cs.any (fun c => c == '"' || c == '\\')
    && cs.all (fun c => c == '\t' || c == '\n' || !isControl c)
    && longestQuoteRun cs < 3
    && cs.getLast? != some '\x27'

/-- A text as it is written in a document. -/
def quoted (s : String) : String :=
  let cs := s.toList
  let lines := cs.contains '\n'
  if prefersLiteral cs then
    if lines then "'''\n" ++ s ++ "'''"
    else if cs.contains '\x27' then "'''" ++ s ++ "'''"
    else "'" ++ s ++ "'"
  else if lines then
    let body := cs.flatMap fun c => if c = '\n' then ['\n'] else escapeChar c
    "\"\"\"\n" ++ String.ofList body ++ "\"\"\""
  else "\"" ++ String.ofList (cs.flatMap escapeChar) ++ "\""

/-- A text on one line, with an escape for a linebreak.  It stands between single
quotes if it holds what would be escaped otherwise, and nothing that has to be. -/
def quotedOnLine (s : String) : String :=
  let cs := s.toList
  if cs.any (fun c => c == '"' || c == '\\')
      && cs.all (fun c => c == '\t' || (!isControl c && c != '\x27')) then
    "'" ++ s ++ "'"
  else "\"" ++ String.ofList (cs.flatMap escapeChar) ++ "\""

/-- Whether a character can stand in a key without quotes. -/
def isBareKeyChar (c : Char) : Bool := c.isAlphanum || c == '_' || c == '-'

/-- A key as it is written in a document. -/
def keyText (key : String) : String :=
  if !key.isEmpty && key.toList.all isBareKeyChar then key else quotedOnLine key

/-! ## Writing values -/

/-- Whether a value is a table. -/
def Value.isTable : Value → Bool
  | .table _ => true
  | _ => false

/-- Whether a value is a list with a table in it. -/
def Value.holdsTable : Value → Bool
  | .array items => items.any Value.isTable
  | _ => false

/-- Entries that are marked with their values, in the order in which a table writes
them: tables come last, and lists with tables in them right before those. -/
def tablesLast (entries : List (Value × String)) : List String :=
  let plain := entries.filter fun e => !e.1.isTable && !e.1.holdsTable
  let lists := entries.filter fun e => e.1.holdsTable
  let tables := entries.filter fun e => e.1.isTable
  (plain ++ lists ++ tables).map Prod.snd

mutual

/-- A value on one line. -/
def Value.inline : Value → String
  | .text s => quoted s
  | .integer n => toString n
  | .float x => x.text
  | .boolean b => if b then "true" else "false"
  | .moment s => s
  | .array items => "[" ++ ", ".intercalate (inlineItems items) ++ "]"
  | .table [] => "\x7b\x7d"
  | .table entries => "\x7b " ++ ", ".intercalate (tablesLast (inlineEntries entries)) ++ " \x7d"

/-- The items of an array, each on one line. -/
def inlineItems : List Value → List String
  | [] => []
  | v :: rest => v.inline :: inlineItems rest

/-- The entries of a table, each on one line and marked with its value. -/
def inlineEntries : List (String × Value) → List (Value × String)
  | [] => []
  | (key, v) :: rest => (v, keyText key ++ " = " ++ v.inline) :: inlineEntries rest

end

/-- The key under which a moment that stands alone is written. -/
def momentKey : String := "$__toml_private_datetime"

/-- A value that stands alone.  A text is taken as it is, and a moment is written
as a table with one key. -/
def Value.alone : Value → String
  | .text s => s
  | .moment s => (Value.table [(momentKey, .text s)]).inline
  | v => v.inline

end Toml
end Restyle
