import Restyle.Rule.Basic

/-!
# Where the opening brace of a block stands

A block starts with a brace after its head: a name, a reserved word, or a group
in round or square brackets.  In one style the brace stands on the line of the
head, in the other on a line of its own.  A brace after anything else, for
instance after a comment or after another block, stays where it is.
-/

namespace Restyle
namespace Braces

/-- The opening brace that follows on the given tokens, with the blanks before
it and the tokens after it. -/
def brace? (tokens : List Token) : Option (List Token × Token × List Token) :=
  match tokens.dropWhile Token.isLayout with
  | [] => none
  | t :: after =>
    if t.opens Token.openBrace then some (tokens.takeWhile Token.isLayout, t, after) else none

/-- What follows a brace is shorter than what the brace was found in. -/
theorem length_lt_of_brace? {tokens gap after : List Token} {brace : Token}
    (h : brace? tokens = some (gap, brace, after)) : after.length < tokens.length := by
  have hle := (List.dropWhile_suffix (p := Token.isLayout) (l := tokens)).length_le
  unfold brace? at h
  split at h
  · simp at h
  · rename_i t rest heq
    split at h
    · simp only [Option.some.injEq, Prod.mk.injEq] at h
      obtain ⟨_, _, rfl⟩ := h
      rw [heq, List.length_cons] at hle
      omega
    · simp at h

/-- Whether nothing but spaces stands before the next linebreak. -/
def endsLine (tokens : List Token) : Bool :=
  match tokens.dropWhile Token.isSpace with
  | t :: _ => t.isLinebreak
  | [] => false

/-- Moves every block's brace to the line of its head. -/
def join (tokens : List Token) : List Token :=
  match tokens with
  | [] => []
  | t :: rest =>
    match _h : brace? rest with
    | none => t :: join rest
    | some (gap, brace, after) =>
      if t.endsBlockHead && gap.any Token.isLinebreak then
        t :: Token.oneSpace :: brace :: join after
      else t :: join rest
termination_by tokens.length
decreasing_by
  all_goals simp only [List.length_cons]
  all_goals first
    | omega
    | (have hlt := length_lt_of_brace? _h; omega)

/-- Moves every block's brace to a line of its own, unless the block goes on
after the brace on the same line. -/
def wrap (linebreak : Token) (tokens : List Token) : List Token :=
  match tokens with
  | [] => []
  | t :: rest =>
    match _h : brace? rest with
    | none => t :: wrap linebreak rest
    | some (gap, brace, after) =>
      if t.endsBlockHead && !gap.any Token.isLinebreak && endsLine after then
        t :: linebreak :: brace :: wrap linebreak after
      else t :: wrap linebreak rest
termination_by tokens.length
decreasing_by
  all_goals simp only [List.length_cons]
  all_goals first
    | omega
    | (have hlt := length_lt_of_brace? _h; omega)

end Braces

namespace Rule

/-- Opening braces where the style wants them. -/
def braces : Rule :=
  ofTransform "braces" "Wrap braces in accordance with the selected style (K&R or Allman)"
    fun style =>
      if style.allman then Braces.wrap ⟨.linebreak, style.linebreak.text⟩ else Braces.join

end Rule
end Restyle
