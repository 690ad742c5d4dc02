import Restyle.Style.Basic
import Restyle.Token.Basic

/-!
# Reading a style off existing texts

Every text votes on three questions: how deep a level is indented, which line
terminator is used, and where the opening brace of a block stands.  The style is
what most votes are for; whatever is not asked about keeps its default.

The votes of a text are a list, and the votes of several texts are the lists
joined up, so a result depends only on how often each vote was cast.  Ties go to
the smaller indent and to the preferred line terminator.
-/

namespace Restyle
namespace Inference

/-- One observation about a text. -/
inductive Vote where
  /-- A line that is this many columns deeper than the one before it. -/
  | step (width : Nat)
  /-- A line that is indented with a tab. -/
  | tabbed
  /-- A line terminator. -/
  | linebreak (l : Linebreak)
  /-- A block whose brace stands on a line of its own. -/
  | ownLine
  /-- A block whose brace stands on the line of its head. -/
  | sameLine
deriving Repr, DecidableEq

/-! ## The votes of a text -/

/-- The vote for the step from one width to the next.  A step that is wider than
any indent is an alignment and says nothing. -/
def stepVotes (previous : Option Nat) (width : Nat) : List Vote :=
  match previous with
  | some p => if p < width && width - p ≤ Style.maxIndent then [.step (width - p)] else []
  | none => []

/-- What has been seen of a text so far. -/
structure Reader where
  /-- The width of the last line that was indented without a tab, or not at all. -/
  width : Option Nat := none
  /-- Whether the next token is the first of its line. -/
  atLineStart : Bool := true
  /-- The last code token. -/
  head : Option Token := none
  /-- Whether a linebreak has come after it. -/
  broken : Bool := false

namespace Reader

/-- The votes of a token at the start of a line, before the given tokens, and the
width of the line. -/
def indentVotes (r : Reader) (t : Token) (rest : List Token) : List Vote × Option Nat :=
  if !r.atLineStart then ([], r.width)
  else if t.isSpace then
    if rest.head?.all Token.isLinebreak then ([], r.width)
    else if t.text.toList.contains '\t' then ([.tabbed], r.width)
    else (stepVotes r.width t.text.utf8ByteSize, some t.text.utf8ByteSize)
  else (stepVotes r.width 0, some 0)

/-- The vote of an opening brace on where it stands. -/
def braceVotes (r : Reader) (t : Token) : List Vote :=
  if t.opens Token.openBrace && r.head.any Token.endsBlockHead then
    [if r.broken then .ownLine else .sameLine]
  else []

/-- The reader after a token that is not a linebreak. -/
def advance (r : Reader) (t : Token) (width : Option Nat) : Reader :=
  if t.isSpace then { r with width := width, atLineStart := false }
  else { width := width, atLineStart := false, head := some t, broken := false }

end Reader

/-- The votes of the tokens that a reader has before it. -/
def votesFrom (r : Reader) : List Token → List Vote
  | [] => []
  | t :: rest =>
    if t.isLinebreak then
      (Linebreak.ofText? t.text).toList.map .linebreak
        ++ votesFrom { r with atLineStart := true, broken := true } rest
    else
      let (indent, width) := r.indentVotes t rest
      indent ++ r.braceVotes t ++ votesFrom (r.advance t width) rest

/-- The votes of a text. -/
def votes (tokens : List Token) : List Vote := votesFrom {} tokens

/-! ## Counting -/

/-- The first of the candidates with the most votes, unless nobody voted for
any. -/
def winner? (ballots : List Vote) (vote : α → Vote) : List α → Option α
  | [] => none
  | a :: rest =>
    match winner? ballots vote rest with
    | none => if ballots.contains (vote a) then some a else none
    | some b => if ballots.count (vote b) ≤ ballots.count (vote a) then some a else some b

/-- Whether a vote is for an indent in spaces. -/
def Vote.isStep : Vote → Bool
  | step _ => true
  | _ => false

/-- The indent with the most votes. -/
def indent (ballots : List Vote) : Indent :=
  if ballots.countP Vote.isStep < ballots.count .tabbed then .tab
  else match winner? ballots .step (List.range (Style.maxIndent + 1)) with
    | some width => .spaces width
    | none => ({} : Style).indent

/-- The line terminator with the most votes. -/
def linebreak (ballots : List Vote) : Linebreak :=
  (winner? ballots .linebreak Linebreak.all).getD .lf

/-- The style that most of the texts are written in. -/
def style (corpus : List (List Token)) : Style :=
  let ballots := corpus.flatMap votes
  { indent := indent ballots
    linebreak := linebreak ballots
    allman := decide (ballots.count .sameLine < ballots.count .ownLine) }

end Inference
end Restyle
