import Restyle.Rule.Basic

/-!
# Indentation

Every line is indented one level deeper than the line that opened the innermost
scope around it.  Several scopes that open on one line add a single level, and a
line that starts with a closing bracket is level with the line that opened the
scope.

The walk keeps a level for every open scope, innermost first: the level of the
line that opened it.  A closing bracket without a scope to close is passed over.
-/

namespace Restyle
namespace Indentation

/-- The levels of the open scopes after some tokens of a line at `level`. -/
def scopesAfter (level : Nat) (scopes : List Nat) : List Token → List Nat
  | [] => scopes
  | t :: rest =>
    match t.kind with
    | .startOfScope => scopesAfter level (level :: scopes) rest
    | .endOfScope => scopesAfter level scopes.tail rest
    | _ => scopesAfter level scopes rest

/-- The level of a line whose first token that is not a space is `first`. -/
def levelOf (scopes : List Nat) (first : Token) : Nat :=
  match scopes with
  | [] => 0
  | innermost :: _ => if first.kind == .endOfScope then innermost else innermost + 1

/-- A line with its first space replaced by the given blanks, which may be
none. -/
def withIndent (blanks : String) (line : List Token) : List Token :=
  let body := match line with
    | t :: rest => if t.isSpace then rest else line
    | [] => []
  if blanks.isEmpty then body else ⟨.space, blanks⟩ :: body

/-- Indents every line that is not blank.  `scopes` holds the levels of the
scopes that are open. -/
def indentLines (indent : Indent) (scopes : List Nat) (tokens : List Token) : List Token :=
  let line := tokens.takeWhile (!·.isLinebreak)
  let (line, scopes) := match line.find? (!·.isSpace) with
    | none => (line, scopes)
    | some first =>
      let level := levelOf scopes first
      (withIndent (indent.levels level) line, scopesAfter level scopes line)
  match _h : tokens.dropWhile (!·.isLinebreak) with
  | [] => line
  | linebreak :: rest => line ++ linebreak :: indentLines indent scopes rest
termination_by tokens.length
decreasing_by
  have hle := (List.dropWhile_suffix (p := fun t : Token => !t.isLinebreak)
    (l := tokens)).length_le
  rw [_h, List.length_cons] at hle
  omega

end Indentation

namespace Rule

/-- Indentation by the scopes that are open. -/
def indent : Rule :=
  ofTransform "indent" "Indent code in accordance with its scope depth"
    fun style => Indentation.indentLines style.indent []

end Rule
end Restyle
