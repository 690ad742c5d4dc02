import Restyle.Rule.Basic

/-!
# Spaces within a line

The rules on spaces around operators, commas, brackets and braces, on runs of
spaces, and on spaces at the end of a line.  The blanks that a line starts with
are its indentation, which is the business of another rule.

Each rule is one walk over the tokens.  What happens to a token depends on the
token before it, on the tokens after it and on the token itself, so the walks
carry the previous token along and look ahead in the list.
-/

namespace Restyle
namespace Spacing

/-- Whether a token is there and satisfies `p`. -/
def thereIs (p : Token → Bool) : Option Token → Bool
  | some t => p t
  | none => false

/-- Whether the token, or the absence of one, marks the edge of a line. -/
def isLineEdge : Option Token → Bool
  | some t => t.isLinebreak
  | none => true

/-! ## Operators -/

/-- The operators that stand between two operands whatever surrounds them. -/
def spacedOperators : List String :=
  [ "=", "==", "!=", "===", "!==", "+=", "-=", "*=", "/=", "%=", "&=", "|=", "^=", "<<=", ">>=",
    "&&", "||", "->", "??", "<=", ">="]

/-- Whether a token is an operator that takes a space on both sides. -/
def isSpacedOperator (t : Token) : Bool :=
  t.kind == .operator && spacedOperators.contains t.text

/-- Whether an operator needs a space before it, after the given token.  The
first operand of a bracket needs none: there the operator is a value. -/
def needsSpaceBefore : Option Token → Bool :=
  thereIs fun t => t.isCode && t.kind != .startOfScope

/-- Whether an operator needs a space after it, before the given token. -/
def needsSpaceAfter : Option Token → Bool :=
  thereIs fun t => t.isCode && t.kind != .endOfScope && t.kind != .delimiter

/-- Adds the spaces that operators need.  `prev` is the last token written. -/
def aroundOperators (prev : Option Token) : List Token → List Token
  | [] => []
  | t :: rest =>
    if isSpacedOperator t then
      let before := if needsSpaceBefore prev then [Token.oneSpace] else []
      if needsSpaceAfter rest.head? then
        before ++ t :: Token.oneSpace :: aroundOperators (some Token.oneSpace) rest
      else before ++ t :: aroundOperators (some t) rest
    else t :: aroundOperators (some t) rest

/-! ## Commas -/

/-- A comma. -/
def isComma (t : Token) : Bool := t.isDelimiter ","

/-- Whether a comma needs a space after it, before the given token. -/
def needsSpaceAfterComma : Option Token → Bool :=
  thereIs fun t => t.isCode && t.kind != .endOfScope

/-- Adds a space after every comma that has none. -/
def afterCommas : List Token → List Token
  | [] => []
  | t :: rest =>
    if isComma t && needsSpaceAfterComma rest.head? then
      t :: Token.oneSpace :: afterCommas rest
    else t :: afterCommas rest

/-- Removes the space before every comma, unless it is the indentation of the
line.  `prev` is the token before. -/
def beforeCommas (prev : Option Token) : List Token → List Token
  | [] => []
  | t :: rest =>
    if t.isSpace && thereIs isComma rest.head? && thereIs (!·.isLinebreak) prev then
      beforeCommas (some t) rest
    else t :: beforeCommas (some t) rest

/-! ## Round and square brackets -/

/-- An opening round or square bracket. -/
def isOpeningBracket (t : Token) : Bool := t.opens "(" || t.opens "["

/-- A closing round or square bracket. -/
def isClosingBracket (t : Token) : Bool := t.closes ")" || t.closes "]"

/-- Something on the same line that is not a comment. -/
def isPlain : Option Token → Bool := thereIs fun t => !t.isLinebreak && !t.isComment

/-- Removes a space just inside brackets, unless the line ends there or a
comment stands on the other side.  `prev` is the token before. -/
def insideBrackets (prev : Option Token) : List Token → List Token
  | [] => []
  | t :: rest =>
    if t.isSpace &&
        ((thereIs isOpeningBracket prev && isPlain rest.head?) ||
          (thereIs isClosingBracket rest.head? && isPlain prev)) then
      insideBrackets (some t) rest
    else t :: insideBrackets (some t) rest

/-! ## Braces -/

/-- A word that can follow a block on its line. -/
def isWord (t : Token) : Bool := t.kind == .keyword || t.kind == .identifier

/-- Adds a space between a brace and the head before it or the word after it.
`prev` is the token before. -/
def aroundBraces (prev : Option Token) : List Token → List Token
  | [] => []
  | t :: rest =>
    if t.opens Token.openBrace then
      if thereIs Token.endsBlockHead prev then
        Token.oneSpace :: t :: aroundBraces (some t) rest
      else t :: aroundBraces (some t) rest
    else if t.closes Token.closeBrace && thereIs isWord rest.head? then
      t :: Token.oneSpace :: aroundBraces (some Token.oneSpace) rest
    else t :: aroundBraces (some t) rest

/-! ## Runs of spaces -/

/-- Puts a token in front, joined to the first one if both are spaces. -/
def consJoined (t : Token) : List Token → List Token
  | [] => [t]
  | u :: rest =>
    if t.isSpace && u.isSpace then ⟨.space, t.text ++ u.text⟩ :: rest else t :: u :: rest

/-- Joins spaces that follow each other into one token. -/
def joinSpaces : List Token → List Token
  | [] => []
  | t :: rest => consJoined t (joinSpaces rest)

/-- Makes every space a single one that is neither at the start nor at the end
of its line.  `prev` is the token before. -/
def singleSpaces (prev : Option Token) : List Token → List Token
  | [] => []
  | t :: rest =>
    if t.isSpace && !isLineEdge prev && !isLineEdge rest.head? then
      Token.oneSpace :: singleSpaces (some t) rest
    else t :: singleSpaces (some t) rest

/-! ## Spaces at the end of a line -/

/-- Removes the last space of every line.  With `keepBlank`, a space that is all
there is on its line stays.  `prev` is the token before. -/
def trimLines (keepBlank : Bool) (prev : Option Token) : List Token → List Token
  | [] => []
  | t :: rest =>
    if t.isSpace && isLineEdge rest.head? && !(keepBlank && isLineEdge prev) then
      trimLines keepBlank (some t) rest
    else t :: trimLines keepBlank (some t) rest

end Spacing

namespace Rule

/-- A space on both sides of an operator. -/
def spaceAroundOperators : Rule :=
  ofTransform "spaceAroundOperators"
    "Add a single space around infix assignment, comparison and logical operators"
    fun _ => Spacing.aroundOperators none

/-- A space after a comma and none before it.

These are two edits, the insertions and then the removals, because a space that
is put between two commas is taken out again: the buffer is then edited without
being changed. -/
def spaceAroundCommas : Rule where
  name := "spaceAroundCommas"
  help := "Remove space before commas and add a space after them"
  apply := fun _ b => (b.transform Spacing.afterCommas).transform (Spacing.beforeCommas none)

/-- No space just inside brackets. -/
def spaceInsideParens : Rule :=
  ofTransform "spaceInsideParens" "Remove space just inside parentheses and square brackets"
    fun _ => Spacing.insideBrackets none

/-- A space between a brace and what it follows or precedes. -/
def spaceAroundBraces : Rule :=
  ofTransform "spaceAroundBraces" "Add a space between a brace and the code it follows or precedes"
    fun _ => Spacing.aroundBraces none

/-- One space in place of a run of them. -/
def consecutiveSpaces : Rule :=
  ofTransform "consecutiveSpaces" "Replace consecutive spaces with a single space"
    fun _ tokens => Spacing.singleSpaces none (Spacing.joinSpaces tokens)

/-- No space at the end of a line. -/
def trailingSpace : Rule :=
  ofTransform "trailingSpace" "Remove trailing space at the end of a line"
    fun style => Spacing.trimLines (style.trim == .nonblankLines) none

end Rule
end Restyle
