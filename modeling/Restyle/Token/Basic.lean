/-!
# Tokens

A token is a kind and the exact text it was read from.  Joining the texts of a
list of tokens gives a source text, with nothing added and nothing read again;
this is the view through which every statement about tokens and source meets.

The blanks of a source are tokens like any other.  A `space` is a run of
horizontal blanks, a `linebreak` is one line terminator, and everything else is
called code here, comments included.
-/

namespace Restyle

/-- What a token is. -/
inductive Kind where
  /-- A run of horizontal blanks. -/
  | space
  /-- One line terminator. -/
  | linebreak
  /-- A name that is not reserved, possibly between back quotes. -/
  | identifier
  /-- A reserved word, a `#` directive or an `@` attribute. -/
  | keyword
  /-- A number. -/
  | number
  /-- A string literal with its delimiters. -/
  | stringLiteral
  /-- A comment with its delimiters. -/
  | comment
  /-- An opening bracket. -/
  | startOfScope
  /-- A closing bracket. -/
  | endOfScope
  /-- A run of operator characters. -/
  | operator
  /-- A comma, a semicolon or a colon. -/
  | delimiter
  /-- What is left of a text that could not be read to its end. -/
  | error
deriving Repr, DecidableEq

/-- A lexical unit with its exact text. -/
structure Token where
  /-- What the token is. -/
  kind : Kind
  /-- The text it stands for. -/
  text : String
deriving Repr, DecidableEq

namespace Token

/-- The opening brace, as text. -/
def openBrace : String := "\x7b"

/-- The closing brace, as text. -/
def closeBrace : String := "\x7d"

/-- A single blank. -/
def oneSpace : Token := ⟨.space, " "⟩

/-- A horizontal blank. -/
def isSpace (t : Token) : Bool := t.kind == .space

/-- A line terminator. -/
def isLinebreak (t : Token) : Bool := t.kind == .linebreak

/-- A comment. -/
def isComment (t : Token) : Bool := t.kind == .comment

/-- The end of a text that could not be read. -/
def isError (t : Token) : Bool := t.kind == .error

/-- A blank of either kind. -/
def isLayout (t : Token) : Bool := t.isSpace || t.isLinebreak

/-- Anything that is not a blank. -/
def isCode (t : Token) : Bool := !t.isLayout

/-- Whether a token opens a scope with the given bracket. -/
def opens (bracket : String) (t : Token) : Bool := t.kind == .startOfScope && t.text == bracket

/-- Whether a token closes a scope with the given bracket. -/
def closes (bracket : String) (t : Token) : Bool := t.kind == .endOfScope && t.text == bracket

/-- Whether a token is the given delimiter. -/
def isDelimiter (mark : String) (t : Token) : Bool := t.kind == .delimiter && t.text == mark

/-- Whether a block can follow the token: it ends a name, a reserved word, or a
group in round or square brackets. -/
def endsBlockHead (t : Token) : Bool :=
  match t.kind with
  | .identifier | .keyword => true
  | .endOfScope => t.text == ")" || t.text == "]"
  | _ => false

/-- The source text that a list of tokens stands for. -/
def source (tokens : List Token) : String := String.join (tokens.map text)

/-- The tokens of a list that are not blanks. -/
def code (tokens : List Token) : List Token := tokens.filter isCode

@[simp] theorem source_nil : source [] = "" := rfl

end Token
end Restyle
