import Restyle.Rule.Basic

/-!
# Linebreaks and blank lines

The rules on line terminators and on lines that hold nothing but spaces.  Only a
line that a linebreak ends can be blank: what follows the last linebreak is not
a line of its own.
-/

namespace Restyle
namespace Linebreaks

/-- Gives every linebreak the same text. -/
def unify (text : String) (tokens : List Token) : List Token :=
  tokens.map fun t => if t.isLinebreak then ⟨.linebreak, text⟩ else t

/-! ## Blank lines -/

/-- What follows the first line, if that line is blank. -/
def afterBlankLine? (tokens : List Token) : Option (List Token) :=
  match tokens.dropWhile Token.isSpace with
  | t :: rest => if t.isLinebreak then some rest else none
  | [] => none

/-- What follows a blank line is shorter. -/
theorem length_lt_of_afterBlankLine? {tokens rest : List Token}
    (h : afterBlankLine? tokens = some rest) : rest.length < tokens.length := by
  have hle := (List.dropWhile_suffix (p := Token.isSpace) (l := tokens)).length_le
  unfold afterBlankLine? at h
  split at h
  · rename_i t r heq
    split at h
    · simp only [Option.some.injEq] at h
      subst h
      rw [heq, List.length_cons] at hle
      omega
    · simp at h
  · simp at h

/-- The tokens without the blank lines at their start. -/
def dropBlankLines (tokens : List Token) : List Token :=
  match _h : afterBlankLine? tokens with
  | some rest => dropBlankLines rest
  | none => tokens
termination_by tokens.length
decreasing_by exact length_lt_of_afterBlankLine? _h

/-- Dropping blank lines does not make a list longer. -/
theorem length_dropBlankLines_le (tokens : List Token) :
    (dropBlankLines tokens).length ≤ tokens.length := by
  fun_induction dropBlankLines tokens with
  | case1 tokens rest h ih =>
    have := length_lt_of_afterBlankLine? h
    omega
  | case2 tokens h => exact Nat.le_refl _

/-! ## Blank lines at the edges of a block -/

/-- Removes the blank lines right after a line that ends with an opening brace.
`opened` says whether the last token that is not a space was such a brace. -/
def trimBlockStarts (opened : Bool) (tokens : List Token) : List Token :=
  match tokens with
  | [] => []
  | t :: rest =>
    if t.isSpace then t :: trimBlockStarts opened rest
    else if t.isLinebreak && opened then t :: trimBlockStarts false (dropBlankLines rest)
    else t :: trimBlockStarts (t.opens Token.openBrace) rest
termination_by tokens.length
decreasing_by
  all_goals simp only [List.length_cons]
  all_goals first
    | omega
    | (have hlt := length_dropBlankLines_le rest; omega)

/-- Whether the first token that is not a space is a closing brace. -/
def closesBlock (tokens : List Token) : Bool :=
  match tokens.dropWhile Token.isSpace with
  | t :: _ => t.closes Token.closeBrace
  | [] => false

/-- Removes the blank lines right before a line that starts with a closing
brace.  The first line of the text stays, blank or not. -/
def trimBlockEnds (tokens : List Token) : List Token :=
  match tokens with
  | [] => []
  | t :: rest =>
    if t.isLinebreak && closesBlock (dropBlankLines rest) then
      t :: trimBlockEnds (dropBlankLines rest)
    else t :: trimBlockEnds rest
termination_by tokens.length
decreasing_by
  all_goals simp only [List.length_cons]
  all_goals first
    | omega
    | (have hlt := length_dropBlankLines_le rest; omega)

/-! ## Runs of blank lines -/

/-- Removes every blank line that has `most` blank lines directly before it.
`before` counts those. -/
def limitBlankLines (most before : Nat) (tokens : List Token) : List Token :=
  match _h : tokens.dropWhile (!·.isLinebreak) with
  | [] => tokens
  | linebreak :: rest =>
    let line := tokens.takeWhile (!·.isLinebreak)
    if line.all Token.isSpace then
      if before < most then line ++ linebreak :: limitBlankLines most (before + 1) rest
      else limitBlankLines most (before + 1) rest
    else line ++ linebreak :: limitBlankLines most 0 rest
termination_by tokens.length
decreasing_by
  all_goals
    have hle := (List.dropWhile_suffix (p := fun t : Token => !t.isLinebreak)
      (l := tokens)).length_le
    rw [_h, List.length_cons] at hle
    omega

/-! ## The end of the text -/

/-- Puts exactly one linebreak after the last code token, if there is one. -/
def endWithLinebreak (linebreak : Token) (tokens : List Token) : List Token :=
  match tokens.reverse.dropWhile Token.isLayout with
  | [] => tokens
  | backwards => backwards.reverse ++ [linebreak]

end Linebreaks

namespace Rule

/-- One line terminator throughout. -/
def linebreaks : Rule :=
  ofTransform "linebreaks" "Use the configured linebreak character for every line"
    fun style => Linebreaks.unify style.linebreak.text

/-- No blank line at the start of a block. -/
def blankLinesAtStartOfScope : Rule :=
  ofTransform "blankLinesAtStartOfScope" "Remove blank lines at the start of a scope"
    fun _ => Linebreaks.trimBlockStarts false

/-- No blank line at the end of a block. -/
def blankLinesAtEndOfScope : Rule :=
  ofTransform "blankLinesAtEndOfScope" "Remove blank lines at the end of a scope"
    fun _ => Linebreaks.trimBlockEnds

/-- No more blank lines in a row than the style allows. -/
def consecutiveBlankLines : Rule :=
  ofTransform "consecutiveBlankLines" "Limit runs of blank lines to the configured maximum"
    fun style => Linebreaks.limitBlankLines style.maxBlankLines 0

/-- One linebreak at the end.  A fragment is left alone, since it may be put
into another text. -/
def linebreakAtEndOfFile : Rule :=
  ofTransform "linebreakAtEndOfFile" "End the file with exactly one linebreak"
    fun style =>
      if style.fragment then id
      else Linebreaks.endWithLinebreak ⟨.linebreak, style.linebreak.text⟩

end Rule
end Restyle
