import Restyle.Rule.Catalog
import Restyle.Text.Blank
import Restyle.Token.Lexer

/-!
# Formatting

Formatting applies rules until they have nothing more to do.  A pass applies
every rule once, in order; passes repeat until one leaves the tokens as they
were.  Rules that are still at work in the tenth pass are taken to be working
against each other, and the text is refused with their names.

A text that could not be read to its end is refused before any rule runs, unless
the style says that it is a fragment.
-/

namespace Restyle
namespace Formatting

/-- Why a text could not be formatted. -/
inductive Failure where
  /-- The text ended too early. -/
  | endOfFile
  /-- Something stands where it cannot stand. -/
  | unexpected (word : String)
  /-- The named rules did not come to rest. -/
  | restless (rules : List String)
deriving Repr, DecidableEq

/-- The number of passes after which rules are given up on. -/
def maxPasses : Nat := 10

namespace Failure

/-- What the user is told. -/
def message : Failure → String
  | endOfFile => "unexpected end of file"
  | unexpected word => s!"unexpected token '{word}'"
  | restless rules =>
    s!"rules failed to converge after {maxPasses} passes (still changing: "
      ++ ", ".intercalate rules ++ ")"

/-- The failure as a fault. -/
def fault (f : Failure) : Fault := ⟨.parsing, f.message⟩

end Failure

/-- The failure that the unread rest of a text stands for: its first word, if
there is one. -/
def unreadable (rest : String) : Failure :=
  match Text.firstWord? rest with
  | some word => .unexpected word
  | none => .endOfFile

/-- Why some tokens are refused before any rule runs. -/
def refusal? (style : Style) (tokens : List Token) : Option Failure :=
  if style.fragment then none
  else match tokens.getLast? with
    | some t => if t.isError then some (unreadable t.text) else none
    | none => none

/-! ## Passes -/

/-- The tokens after a pass, and the names of the rules that edited them. -/
structure Pass where
  /-- The tokens. -/
  tokens : List Token
  /-- The names of the rules that made an edit, in order. -/
  active : List String
deriving Repr, DecidableEq

/-- Applies every rule once, in order. -/
def pass (style : Style) (tokens : List Token) : List Rule → Pass
  | [] => ⟨tokens, []⟩
  | r :: rules =>
    let b := r.apply style ⟨tokens, false⟩
    let after := pass style b.tokens rules
    ⟨after.tokens, if b.edited then r.name :: after.active else after.active⟩

/-- Repeats passes until one changes nothing.  After the first pass, at most
`more` further passes are made. -/
def settle (style : Style) (rules : List Rule) : Nat → List Token → Except Failure (List Token)
  | more, tokens =>
    let after := pass style tokens rules
    if after.tokens = tokens then .ok tokens
    else match more with
      | 0 => .error (.restless after.active)
      | more + 1 => settle style rules more after.tokens

/-- Applies rules to tokens until they have nothing more to do. -/
def applyRules (style : Style) (rules : List Rule) (tokens : List Token) :
    Except Failure (List Token) :=
  match refusal? style tokens with
  | some failure => .error failure
  | none => settle style rules (maxPasses - 1) tokens

/-- The formatted form of a source text. -/
def format (style : Style) (rules : List Rule) (source : String) : Except Failure String :=
  (applyRules style rules (Token.scan source)).map Token.source

end Formatting
end Restyle
