import Restyle.Text.Numerals
import Restyle.Token.Basic
import Restyle.Token.Keyword

/-!
# Reading tokens

`Token.scan` reads a source text into tokens.  It never fails: where it cannot
go on it puts everything that is left into one last token of kind `error`, so
the texts of the tokens always join up to the source.

## How a token is found

`lexeme c rest` looks at a text that starts with `c` and says what stands there.
A complete token is described by its kind and by *how many further characters*
belong to it.  The driver then takes that many characters and drops as many, so
that nothing is lost or read twice whatever the number is; the measure of the
recursion is the length of what is left, and it falls because `c` at least is
consumed.

There are two ways to stop early.  An `unfinished` block comment or multi-line
string runs to the end of the text and becomes a token of its own kind, followed
by an error with no text.  An `unexpected` character, and any literal that has to
close on its own line and does not, turns the rest of the text into the error.

## Brackets

The driver keeps the brackets that are open, innermost first.  A closing bracket
that does not match the innermost one is unexpected; a bracket that is still open
when the text ends gives an error with no text.
-/

namespace Restyle
namespace Token

/-! ## Classes of characters -/

/-- The four characters that make up a space. -/
def isSpaceChar (c : Char) : Bool := c == ' ' || c == '\t' || c == '\x0b' || c == '\x0c'

/-- The two characters that end a line. -/
def isLineEnd (c : Char) : Bool := c == '\n' || c == '\r'

/-- An ASCII digit, which starts a number. -/
def isDigit (c : Char) : Bool := '0' ≤ c && c ≤ '9'

/-- A character that starts a name. -/
def startsName (c : Char) : Bool := Text.isLetter c || c == '_' || c == '$'

/-- A character that continues a name. -/
def continuesName (c : Char) : Bool := Text.isLetterOrNumeral c || c == '_' || c == '$'

/-- A character that continues a directive, an attribute or a number. -/
def continuesWord (c : Char) : Bool := Text.isLetterOrNumeral c || c == '_'

/-- The characters that operators are made of. -/
def operatorChars : List Char :=
  ['/', '=', '-', '+', '!', '*', '%', '<', '>', '&', '|', '^', '~', '?', '.']

/-- Whether a character can stand in an operator. -/
def isOperatorChar (c : Char) : Bool := operatorChars.contains c

/-- Whether a slash before this text opens a comment. -/
def opensComment : List Char → Bool
  | '/' :: _ => true
  | '*' :: _ => true
  | _ => false

/-- Whether a text starts with a digit. -/
def startsWithDigit : List Char → Bool
  | c :: _ => isDigit c
  | [] => false

/-! ## How far a token reaches -/

/-- The number of leading characters that satisfy `p`. -/
def run (p : Char → Bool) (cs : List Char) : Nat := (cs.takeWhile p).length

/-- The length of a block comment after its opening, up to and including the
closing that belongs to it.  `depth` counts the nested comments that are open. -/
def commentTail? (depth : Nat) : List Char → Option Nat
  | '/' :: '*' :: rest => (commentTail? (depth + 1) rest).map (· + 2)
  | '*' :: '/' :: rest =>
    match depth with
    | 0 => some 2
    | outer + 1 => (commentTail? outer rest).map (· + 2)
  | _ :: rest => (commentTail? depth rest).map (· + 1)
  | [] => none

/-- The length of a multi-line string after its opening quotes.  A backslash
protects the character after it, whatever that is. -/
def longStringTail? : List Char → Option Nat
  | '\\' :: _ :: rest => (longStringTail? rest).map (· + 2)
  | '"' :: '"' :: '"' :: _ => some 3
  | _ :: rest => (longStringTail? rest).map (· + 1)
  | [] => none

/-- The length of a string after its opening quote.  `depth` counts the round
brackets that are open inside an interpolation, which `\(` starts; outside one, a
backslash protects the character after it.  A string must close on its line. -/
def stringTail? (depth : Nat) : List Char → Option Nat
  | [] => none
  | c :: rest =>
    match depth with
    | 0 =>
      if c = '"' then some 1
      else if c = '\\' then
        match rest with
        | [] => none
        | '(' :: inner => (stringTail? 1 inner).map (· + 2)
        | _ :: after => (stringTail? 0 after).map (· + 2)
      else if isLineEnd c then none
      else (stringTail? 0 rest).map (· + 1)
    | outer + 1 =>
      if isLineEnd c then none
      else if c = '(' then (stringTail? (outer + 2) rest).map (· + 1)
      else if c = ')' then (stringTail? outer rest).map (· + 1)
      else (stringTail? (outer + 1) rest).map (· + 1)

/-- The length of a quoted name after its opening back quote.  The name is not
empty and stays on its line. -/
def quotedNameTail? (cs : List Char) : Option Nat :=
  let n := run (fun c => !(c == '\x60' || isLineEnd c)) cs
  if n = 0 then none else if cs[n]? = some '\x60' then some (n + 1) else none

/-- The length of a number after its first digit.  A point belongs to it only
before another digit, so `1.5` is one number and `1..<5` starts with `1`. -/
def numberTail : List Char → Nat
  | [] => 0
  | c :: rest =>
    if c = '.' then if startsWithDigit rest then numberTail rest + 1 else 0
    else if continuesWord c then numberTail rest + 1
    else 0

/-- The length of an operator after its first character.  It ends before a
comment. -/
def operatorTail : List Char → Nat
  | [] => 0
  | c :: rest =>
    if !isOperatorChar c then 0
    else if c = '/' && opensComment rest then 0
    else operatorTail rest + 1

/-! ## What stands at the front of a text -/

/-- What stands at the front of a text. -/
inductive Lexeme where
  /-- A token with this many characters after its first. -/
  | complete (kind : Kind) (more : Nat)
  /-- A token that runs to the end of the text without being closed. -/
  | unfinished (kind : Kind)
  /-- Nothing that can be read. -/
  | unexpected
deriving Repr, DecidableEq

/-- A token if its length is known, and nothing readable otherwise. -/
def Lexeme.ofLength? (kind : Kind) : Option Nat → Lexeme
  | some more => .complete kind more
  | none => .unexpected

/-- A token if its length is known, and an unfinished one otherwise. -/
def Lexeme.orUnfinished (kind : Kind) : Option Nat → Lexeme
  | some more => .complete kind more
  | none => .unfinished kind

/-- What a slash starts. -/
def slashLexeme : List Char → Lexeme
  | '/' :: rest => .complete .comment (run (!isLineEnd ·) rest + 1)
  | '*' :: rest => .orUnfinished .comment ((commentTail? 0 rest).map (· + 1))
  | rest => .complete .operator (operatorTail rest)

/-- What a double quote starts. -/
def quoteLexeme : List Char → Lexeme
  | '"' :: '"' :: rest => .orUnfinished .stringLiteral ((longStringTail? rest).map (· + 2))
  | rest => .ofLength? .stringLiteral (stringTail? 0 rest)

/-- A name, which is a keyword if it is reserved. -/
def nameLexeme (c : Char) (rest : List Char) : Lexeme :=
  let more := run continuesName rest
  if isReserved (String.ofList (c :: rest.take more)) then .complete .keyword more
  else .complete .identifier more

/-- What a `#` or an `@` starts. -/
def markedLexeme (rest : List Char) : Lexeme :=
  match run continuesWord rest with
  | 0 => .unexpected
  | more => .complete .keyword more

/-- What stands at the front of the text `c :: rest`. -/
def lexeme (c : Char) (rest : List Char) : Lexeme :=
  if isSpaceChar c then .complete .space (run isSpaceChar rest)
  else if c = '\n' then .complete .linebreak 0
  else if c = '\r' then .complete .linebreak (if rest.head? = some '\n' then 1 else 0)
  else if c = '/' then slashLexeme rest
  else if c = '"' then quoteLexeme rest
  else if c = '\x60' then .ofLength? .identifier (quotedNameTail? rest)
  else if isDigit c then .complete .number (numberTail rest)
  else if startsName c then nameLexeme c rest
  else if c = '#' || c = '@' then markedLexeme rest
  else if isOperatorChar c then .complete .operator (operatorTail rest)
  else if c = '(' || c = '[' || c = '{' then .complete .startOfScope 0
  else if c = ')' || c = ']' || c = '}' then .complete .endOfScope 0
  else if c = ',' || c = ';' || c = ':' then .complete .delimiter 0
  else .unexpected

/-! ## The whole text -/

/-- The bracket that a closing bracket closes. -/
def opener (c : Char) : Char :=
  if c = ')' then '(' else if c = ']' then '[' else '{'

/-- The open brackets after a token of the given kind that starts with `c`, or
nothing if it closes a bracket that is not the innermost one. -/
def scopesAfter? (kind : Kind) (c : Char) (scopes : List Char) : Option (List Char) :=
  match kind with
  | .startOfScope => some (c :: scopes)
  | .endOfScope =>
    match scopes with
    | innermost :: outer => if innermost = opener c then some outer else none
    | [] => none
  | _ => some scopes

/-- The tokens of a text in which the given brackets are already open. -/
def scanFrom (scopes : List Char) (cs : List Char) : List Token :=
  match cs with
  | [] => if scopes.isEmpty then [] else [⟨.error, ""⟩]
  | c :: rest =>
    match lexeme c rest with
    | .unexpected => [⟨.error, String.ofList (c :: rest)⟩]
    | .unfinished kind => [⟨kind, String.ofList (c :: rest)⟩, ⟨.error, ""⟩]
    | .complete kind more =>
      match scopesAfter? kind c scopes with
      | none => [⟨.error, String.ofList (c :: rest)⟩]
      | some inner =>
        ⟨kind, String.ofList (c :: rest.take more)⟩ :: scanFrom inner (rest.drop more)
termination_by cs.length
decreasing_by simp only [List.length_drop, List.length_cons]; omega

/-- The tokens of a source text. -/
def scan (source : String) : List Token := scanFrom [] source.toList

end Token
end Restyle
