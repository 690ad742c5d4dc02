import Restyle.Rule.Basic

/-!
# Semicolons

A semicolon is dropped when nothing but spaces follows it on its line.  A
semicolon between two statements, or before a comment, stays.
-/

namespace Restyle
namespace Semicolons

/-- A semicolon. -/
def isSemicolon (t : Token) : Bool := t.isDelimiter ";"

/-- Whether nothing but spaces is left on the line. -/
def endsLine (tokens : List Token) : Bool :=
  match tokens.dropWhile Token.isSpace with
  | t :: _ => t.isLinebreak
  | [] => true

/-- Removes the semicolons that end a line.  Each is judged by what follows it,
so the last one of several in a row goes first. -/
def dropTrailing : List Token → List Token
  | [] => []
  | t :: rest =>
    if isSemicolon t && endsLine rest then dropTrailing rest else t :: dropTrailing rest

end Semicolons

namespace Rule

/-- No semicolon at the end of a line. -/
def semicolons : Rule :=
  (ofTransform "semicolons" "Remove semicolons at the end of a line"
    fun _ => Semicolons.dropTrailing).asExperimental

end Rule
end Restyle
