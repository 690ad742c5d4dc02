import Restyle.Fault
import Restyle.Style.Basic
import Restyle.Text.Blank
import Restyle.Text.Decimal

/-!
# The fields of a style by name

On the command line and in settings files a style is given field by field, as
pairs of a name and a text.  This module is the one place that knows the names,
what values each field takes, and how a value is written.

Writing and reading are inverse: `Field.value` gives a text that `Field.set`
reads back to the same value.  `Style.serialized` joins all fields in a fixed
order, so it identifies a style.
-/

namespace Restyle

/-- A field of a style. -/
inductive Field where
  /-- The width of a level. -/
  | indent
  /-- The line terminator. -/
  | linebreaks
  /-- Where opening braces stand. -/
  | allman
  /-- The number of blank lines kept. -/
  | maxBlankLines
  /-- Where trailing blanks are removed. -/
  | trimWhitespace
  /-- Whether experimental rules run. -/
  | experimental
  /-- Whether the input is a piece of a file. -/
  | fragment
deriving Repr, DecidableEq

namespace Field

/-- Every field, in the order in which a style is written. -/
def all : List Field :=
  [indent, linebreaks, allman, maxBlankLines, trimWhitespace, experimental, fragment]

/-- The name of a field. -/
def name : Field → String
  | indent => "indent"
  | linebreaks => "linebreaks"
  | allman => "allman"
  | maxBlankLines => "maxblanklines"
  | trimWhitespace => "trimwhitespace"
  | experimental => "experimental"
  | fragment => "fragment"

/-- What the values of a field look like. -/
def valueName : Field → String
  | indent => "N|tab"
  | linebreaks => "lf|crlf|cr"
  | maxBlankLines => "N"
  | trimWhitespace => "always|nonblank-lines"
  | allman | experimental | fragment => "BOOL"

/-- What a field is for. -/
def help : Field → String
  | indent => "Number of spaces to indent, or \"tab\" [default: 4]"
  | linebreaks => "Linebreak character to use [default: lf]"
  | allman => "Place opening braces on their own line [default: false]"
  | maxBlankLines => "Maximum consecutive blank lines [default: 1]"
  | trimWhitespace =>
    "Trim trailing space on all lines or non-blank lines only [default: always]"
  | experimental => "Enable experimental rules [default: false]"
  | fragment => "Input is a fragment of a file [default: false]"

/-- The field with a given name. -/
def ofName? (s : String) : Option Field := all.find? (·.name == s)

/-- How a switch is written. -/
def switchText (b : Bool) : String := if b then "true" else "false"

/-- How the value of a field is written. -/
def value (s : Style) : Field → String
  | indent => s.indent.name
  | linebreaks => s.linebreak.name
  | allman => switchText s.allman
  | maxBlankLines => toString s.maxBlankLines
  | trimWhitespace => s.trim.name
  | experimental => switchText s.experimental
  | fragment => switchText s.fragment

/-- The words that turn a switch on. -/
def onWords : List String := ["true", "enabled", "yes", "on"]

/-- The words that turn a switch off. -/
def offWords : List String := ["false", "disabled", "no", "off"]

/-- A switch, in a word of either case. -/
def switch? (s : String) : Option Bool :=
  let word := Text.lowercase s
  if onWords.contains word then some true
  else if offWords.contains word then some false
  else none

/-- An indent: `tab`, `tabs`, or a width. -/
def indent? (s : String) : Option Indent :=
  let word := Text.lowercase s
  if word = "tab" || word = "tabs" then some .tab
  else (Text.word? word).map .spaces

/-- The style with a field set to a value that has no blanks around it, if the
field has such a value. -/
def set? (s : Style) (v : String) : Field → Option Style
  | indent => (indent? v).map fun i => { s with indent := i }
  | linebreaks => (Linebreak.ofName? (Text.lowercase v)).map fun l => { s with linebreak := l }
  | allman => (switch? v).map fun b => { s with allman := b }
  | maxBlankLines => (Text.word? v).map fun n => { s with maxBlankLines := n }
  | trimWhitespace => (Trim.ofName? (Text.lowercase v)).map fun t => { s with trim := t }
  | experimental => (switch? v).map fun b => { s with experimental := b }
  | fragment => (switch? v).map fun b => { s with fragment := b }

/-- The fault of a value that a field does not take. -/
def unsupported (f : Field) (v : String) : Fault :=
  ⟨.options, s!"Unsupported --{f.name} value '{v}', expected {f.valueName}"⟩

/-- The style with a field set to a value.  Blanks around the value do not
count, and are left out of the fault. -/
def set (f : Field) (s : Style) (v : String) : Except Fault Style :=
  let v := Text.trim v
  match f.set? s v with
  | some s' => .ok s'
  | none => .error (f.unsupported v)

end Field

namespace Style

/-- The style as command-line arguments, every field in order. -/
def serialized (s : Style) : String :=
  " ".intercalate (Field.all.map fun f => s!"--{f.name} {f.value s}")

end Style
end Restyle
