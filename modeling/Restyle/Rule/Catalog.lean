import Restyle.Fault
import Restyle.Rule.Braces
import Restyle.Rule.Indentation
import Restyle.Rule.Linebreaks
import Restyle.Rule.Semicolons
import Restyle.Rule.Spacing

/-!
# The rules there are, and choosing among them

The catalog lists every rule in the order in which rules run.  A selection keeps
that order, whatever order the names are given in.
-/

namespace Restyle
namespace Rule

/-- Every rule, in the order in which they run. -/
def catalog : List Rule :=
  [ linebreaks, braces, spaceAroundBraces, spaceAroundOperators, spaceAroundCommas,
    spaceInsideParens, semicolons, consecutiveSpaces, blankLinesAtStartOfScope,
    blankLinesAtEndOfScope, consecutiveBlankLines, indent, trailingSpace,
    linebreakAtEndOfFile]

/-- The rule with a given name. -/
def named? (name : String) : Option Rule := catalog.find? (·.name == name)

/-- The rules that run when none are asked for. -/
def defaults (style : Style) : List Rule :=
  catalog.filter fun r => style.experimental || !r.experimental

/-- The fault of a name that no rule has. -/
def unknown (name : String) : Fault := ⟨.options, s!"Unknown rule '{name}'"⟩

/-- The rules to run: the ones asked for, experimental or not, or else the
default ones, and in both cases without the disabled ones.  A name that no rule
has is a fault. -/
def select (enabled : Option (List String)) (disabled : List String) (style : Style) :
    Except Fault (List Rule) :=
  match (enabled.getD [] ++ disabled).find? (fun name => (named? name).isNone) with
  | some name => .error (unknown name)
  | none =>
    let chosen : List Rule := match enabled with
      | some names => catalog.filter fun r => names.contains r.name
      | none => defaults style
    .ok (chosen.filter fun r => !disabled.contains r.name)

end Rule
end Restyle
