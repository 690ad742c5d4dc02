import Restyle.Buffer.Basic

/-!
# Finding one's way in a buffer

Positions of tokens before and after a position, and the lines of a buffer.  A
line is the range of positions between two linebreaks; the linebreak itself
belongs to no line.  There is one line more than there are linebreaks, so an
empty buffer has one line, which is empty.
-/

namespace Restyle
namespace Buffer

/-- The token at a position. -/
def token? (b : Buffer) (i : Nat) : Option Token := b.tokens[i]?

/-- The first position after `i` whose token satisfies `p`. -/
def next? (b : Buffer) (i : Nat) (p : Token → Bool) : Option Nat :=
  ((b.tokens.drop (i + 1)).findIdx? p).map (i + 1 + ·)

/-- The last position in a list whose token satisfies `p`. -/
def lastIndex? (p : Token → Bool) (tokens : List Token) : Option Nat :=
  (tokens.reverse.findIdx? p).map (tokens.length - 1 - ·)

/-- The last position before `i` whose token satisfies `p`. -/
def previous? (b : Buffer) (i : Nat) (p : Token → Bool) : Option Nat :=
  lastIndex? p (b.tokens.take i)

/-- The first position of the line that holds `i`. -/
def startOfLine (b : Buffer) (i : Nat) : Nat :=
  match b.previous? i Token.isLinebreak with
  | some j => j + 1
  | none => 0

/-- The position of the linebreak that ends the line that holds `i`, or the
length of the buffer for the last line.  No line holds a position beyond the
end. -/
def endOfLine? (b : Buffer) (i : Nat) : Option Nat :=
  if i ≤ b.tokens.length then
    some (i + ((b.tokens.drop i).takeWhile (!·.isLinebreak)).length)
  else none

/-- The lines of a list of tokens that starts at position `start`, where the
current line began at `lineStart`. -/
def linesFrom (lineStart start : Nat) : List Token → List (Nat × Nat)
  | [] => [(lineStart, start)]
  | t :: rest =>
    if t.isLinebreak then (lineStart, start) :: linesFrom (start + 1) (start + 1) rest
    else linesFrom lineStart (start + 1) rest

/-- The lines of a buffer, each as its first position and the one after its
last. -/
def lines (b : Buffer) : List (Nat × Nat) := linesFrom 0 0 b.tokens

/-- Whether a range holds spaces only. -/
def isBlank? (b : Buffer) (start stop : Nat) : Option Bool :=
  if start ≤ stop ∧ stop ≤ b.tokens.length then
    some (((b.tokens.take stop).drop start).all Token.isSpace)
  else none

/-- The leading blanks of the line that starts at a position. -/
def indentOfLine (b : Buffer) (lineStart : Nat) : String :=
  match b.tokens[lineStart]? with
  | some t => if t.isSpace then t.text else ""
  | none => ""

end Buffer
end Restyle
