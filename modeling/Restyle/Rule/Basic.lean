import Restyle.Buffer.Basic
import Restyle.Style.Basic

/-!
# Rules

A rule is a named edit of a buffer.  It may look at any part of the buffer and
change any part of it; a rule that works through the edits of `Buffer` is called
faithful, and then a buffer whose flag stays down has not changed.

Rules do not repeat themselves.  Applying rules until nothing changes is the
work of the formatter.
-/

namespace Restyle

/-- A named edit of a buffer. -/
structure Rule where
  /-- The name by which the rule is selected. -/
  name : String
  /-- What the rule does, for the user. -/
  help : String
  /-- Whether the rule is left out of the default rules unless asked for. -/
  experimental : Bool := false
  /-- The edit. -/
  apply : Style → Buffer → Buffer

namespace Rule

/-- The rule that transforms all tokens at once. -/
def ofTransform (name help : String) (f : Style → List Token → List Token) : Rule where
  name := name
  help := help
  apply := fun style b => b.transform (f style)

/-- The same rule, marked as experimental. -/
def asExperimental (r : Rule) : Rule := { r with experimental := true }

/-- A rule that changes a buffer only through the edits of a buffer. -/
def Faithful (r : Rule) : Prop := ∀ style b, Buffer.Reaches b (r.apply style b)

/-- A rule that is one transformation is faithful. -/
theorem faithful_ofTransform (name help : String) (f : Style → List Token → List Token) :
    (ofTransform name help f).Faithful :=
  fun style b => .tail (.refl b) (Buffer.edit_transform (f style) b)

end Rule
end Restyle
