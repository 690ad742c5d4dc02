/-!
# Styles

A style says how a formatted text looks: how deep a level is indented, which
line terminator is used, where the braces of a block stand, and so on.  A style
is fixed for a run.
-/

namespace Restyle

/-- What one level of indentation is made of. -/
inductive Indent where
  /-- A number of spaces. -/
  | spaces (width : Nat)
  /-- One tab. -/
  | tab
deriving Repr, DecidableEq

namespace Indent

/-- The text of one level. -/
def unit : Indent → String
  | spaces width => String.ofList (List.replicate width ' ')
  | tab => "\t"

/-- The text of a number of levels. -/
def levels (i : Indent) (n : Nat) : String := String.join (List.replicate n i.unit)

/-- How an indent is written in options. -/
def name : Indent → String
  | spaces width => toString width
  | tab => "tab"

end Indent

/-- A line terminator. -/
inductive Linebreak where
  /-- Line feed. -/
  | lf
  /-- Carriage return and line feed. -/
  | crlf
  /-- Carriage return. -/
  | cr
deriving Repr, DecidableEq

namespace Linebreak

/-- The characters of a line terminator. -/
def text : Linebreak → String
  | lf => "\n"
  | crlf => "\r\n"
  | cr => "\r"

/-- How a line terminator is written in options. -/
def name : Linebreak → String
  | lf => "lf"
  | crlf => "crlf"
  | cr => "cr"

/-- Every line terminator, the preferred one first. -/
def all : List Linebreak := [lf, crlf, cr]

/-- The line terminator with the given characters. -/
def ofText? (s : String) : Option Linebreak := all.find? (·.text == s)

/-- The line terminator with the given name. -/
def ofName? (s : String) : Option Linebreak := all.find? (·.name == s)

end Linebreak

/-- On which lines trailing blanks are removed. -/
inductive Trim where
  /-- On every line. -/
  | always
  /-- On every line that has something else on it. -/
  | nonblankLines
deriving Repr, DecidableEq

namespace Trim

/-- How the choice is written in options. -/
def name : Trim → String
  | always => "always"
  | nonblankLines => "nonblank-lines"

/-- Both choices. -/
def all : List Trim := [always, nonblankLines]

/-- The choice with the given name. -/
def ofName? (s : String) : Option Trim := all.find? (·.name == s)

end Trim

/-- How a formatted text looks. -/
structure Style where
  /-- What one level of indentation is made of. -/
  indent : Indent := .spaces 4
  /-- The line terminator. -/
  linebreak : Linebreak := .lf
  /-- Whether the opening brace of a block stands on a line of its own. -/
  allman : Bool := false
  /-- How many blank lines may follow each other. -/
  maxBlankLines : Nat := 1
  /-- On which lines trailing blanks are removed. -/
  trim : Trim := .always
  /-- Whether experimental rules belong to the default rules. -/
  experimental : Bool := false
  /-- Whether the text may be a piece of a file. -/
  fragment : Bool := false
deriving Repr, DecidableEq

namespace Style

/-- The widest indent that is accepted. -/
def maxIndent : Nat := 16

/-- The largest number of blank lines that can be asked for. -/
def blankLineLimit : Nat := 10

/-- What is wrong with the indent of a style, if anything. -/
def indentComplaint? : Indent → Option String
  | .tab => none
  | .spaces n =>
    if n = 0 then some "indent must be at least 1"
    else if n > maxIndent then
      some s!"indent {n} exceeds maximum of {maxIndent}"
    else none

/-- What is wrong with a style, if anything: the indent is looked at first. -/
def complaint? (s : Style) : Option String :=
  match indentComplaint? s.indent with
  | some complaint => some complaint
  | none =>
    if s.maxBlankLines > blankLineLimit then
      some s!"maxblanklines {s.maxBlankLines} exceeds maximum of {blankLineLimit}"
    else none

end Style
end Restyle
