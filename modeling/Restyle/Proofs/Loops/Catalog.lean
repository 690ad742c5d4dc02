import Mathlib.Data.List.Forall2
import Restyle.Proofs.Loops.BlockEnds
import Restyle.Proofs.Loops.Braces
import Restyle.Proofs.Loops.Indentation
import Restyle.Proofs.Loops.Punctuation
import Restyle.Rule.Catalog

/-!
# Every rule, carried out in place

Each rule has a program that edits the buffer token by token, with loops that go back and forth
while the tokens move under their positions.  The programs and the rules come to the same.  As a
program answers nothing when it goes wrong or does not end, this is also to say that it does
neither.

Nothing is asked of the buffer.  Spaces may stand side by side or be empty, scopes may be
unbalanced, and the texts of tokens need not be texts that a lexer would give them.  Nor is anything
asked of the style, be it one that passes its checks or not.

* `programs`: the program of each rule.
* `programs_run`: what they do.
-/

namespace Restyle
namespace Loops

/-- A program for every rule, in the order of the catalog. -/
def programs : List Program :=
  [ linebreaks,
    braces,
    fun _ b => bracesTurn.sweep b 0,
    fun _ b => operatorsTurn.sweep b 0,
    fun _ b => commasTurn.sweep b 0,
    fun _ b => bracketsTurn.sweep b 0,
    fun _ b => semicolonsTurn.sweep b 0,
    fun _ b => consecutiveTurn.sweep b 0,
    fun _ b => blockStartsTurn.sweep b 0,
    fun _ b => blockEndsTurn.sweep b 0,
    consecutiveBlankLines,
    fun style b => b.indentFrom style.indent 0 [],
    fun style b => (trailingTurn (style.trim == .nonblankLines)).sweep b 0,
    linebreakAtEndOfFile]

/-- **Every rule can be carried out in place**, on every buffer and in every style.  Its program
ends; every position that it edits, every range that it looks at and every difference of positions
that it takes is one there is; and it leaves the tokens and the flag that the rule leaves. -/
theorem programs_run : List.Forall₂
    (fun (r : Rule) (program : Program) => ∀ style b, program style b = some (r.apply style b))
    Rule.catalog programs :=
  .cons linebreaks_run <| .cons braces_run <| .cons bracesSpace_run <| .cons operators_run <|
  .cons commas_run <| .cons brackets_run <| .cons semicolons_run <| .cons consecutive_run <|
  .cons blockStarts_run <| .cons blockEnds_run <| .cons consecutiveBlankLines_run <|
  .cons indent_run <| .cons trailing_run <| .cons linebreakAtEndOfFile_run .nil

end Loops
end Restyle
