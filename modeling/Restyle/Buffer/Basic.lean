import Restyle.Token.Basic

/-!
# The buffer that rules work on

A buffer is a list of tokens and a flag that says whether any edit has changed
it.  Every edit goes through the operations of this module, and each of them
raises the flag exactly when it changes the tokens; `Buffer.Reaches` says that
one buffer comes from another by such edits.

The flag is not the same as a comparison of the tokens before and after: an edit
that a later one takes back leaves it raised.

Edits at a position are partial.  They answer nothing when the position is not
in the buffer, and then the buffer stays as it was.
-/

namespace Restyle

/-- Tokens, and whether an edit has changed them. -/
structure Buffer where
  /-- The tokens. -/
  tokens : List Token
  /-- Whether an edit has changed the tokens. -/
  edited : Bool := false
deriving Repr, DecidableEq

namespace Buffer

/-- The buffer with its flag lowered. -/
def fresh (b : Buffer) : Buffer := { b with edited := false }

/-! ## Edits -/

/-- Puts other tokens in place of all tokens.  An equal list is no edit. -/
def assign (b : Buffer) (tokens : List Token) : Buffer :=
  if tokens = b.tokens then b else ⟨tokens, true⟩

/-- Applies a function to the whole list of tokens. -/
def transform (f : List Token → List Token) (b : Buffer) : Buffer := b.assign (f b.tokens)

/-- Puts a token in place of the one at a position.  An equal token is no edit. -/
def replace? (b : Buffer) (i : Nat) (t : Token) : Option Buffer :=
  if i < b.tokens.length then some (b.assign (b.tokens.set i t)) else none

/-- Inserts a token before a position, which may be the end. -/
def insert? (b : Buffer) (i : Nat) (t : Token) : Option Buffer :=
  if i ≤ b.tokens.length then some ⟨b.tokens.take i ++ t :: b.tokens.drop i, true⟩ else none

/-- Removes the token at a position. -/
def remove? (b : Buffer) (i : Nat) : Option Buffer :=
  if i < b.tokens.length then some ⟨b.tokens.take i ++ b.tokens.drop (i + 1), true⟩ else none

/-- Removes the tokens from one position up to another.  An empty range is no
edit, wherever it lies. -/
def removeRange? (b : Buffer) (start stop : Nat) : Option Buffer :=
  if stop ≤ start then some b
  else if stop ≤ b.tokens.length then
    some ⟨b.tokens.take start ++ b.tokens.drop stop, true⟩
  else none

/-- Puts other tokens in place of those from one position up to another.  Equal
tokens are no edit. -/
def replaceRange? (b : Buffer) (start stop : Nat) (tokens : List Token) : Option Buffer :=
  if start ≤ stop ∧ stop ≤ b.tokens.length then
    some (b.assign (b.tokens.take start ++ tokens ++ b.tokens.drop stop))
  else none

/-! ## What edits do -/

/-- One edit. -/
inductive Edit : Buffer → Buffer → Prop
  /-- Another token at a position. -/
  | replace {b c : Buffer} {i : Nat} {t : Token} : b.replace? i t = some c → Edit b c
  /-- One token more. -/
  | insert {b c : Buffer} {i : Nat} {t : Token} : b.insert? i t = some c → Edit b c
  /-- One token less. -/
  | remove {b c : Buffer} {i : Nat} : b.remove? i = some c → Edit b c
  /-- A range less. -/
  | removeRange {b c : Buffer} {start stop : Nat} :
      b.removeRange? start stop = some c → Edit b c
  /-- Other tokens in a range. -/
  | replaceRange {b c : Buffer} {start stop : Nat} {tokens : List Token} :
      b.replaceRange? start stop tokens = some c → Edit b c

/-- One buffer comes from another by edits, in any number. -/
inductive Reaches : Buffer → Buffer → Prop
  /-- No edit. -/
  | refl (b : Buffer) : Reaches b b
  /-- One edit more. -/
  | tail {a b c : Buffer} : Reaches a b → Edit b c → Reaches a c

theorem assign_tokens (b : Buffer) (tokens : List Token) :
    (b.assign tokens).tokens = tokens := by
  unfold assign
  split
  · rename_i h
    exact h.symm
  · rfl

theorem assign_edited (b : Buffer) (tokens : List Token) :
    (b.assign tokens).edited = (b.edited || tokens != b.tokens) := by
  unfold assign
  split
  · rename_i h
    simp [h]
  · rename_i h
    simp [h]

@[simp] theorem transform_tokens (f : List Token → List Token) (b : Buffer) :
    (b.transform f).tokens = f b.tokens := assign_tokens b _

/-- Assigning all tokens is an edit of the whole range. -/
theorem replaceRange?_whole (b : Buffer) (tokens : List Token) :
    b.replaceRange? 0 b.tokens.length tokens = some (b.assign tokens) := by
  simp [replaceRange?]

/-- **A transformation is an edit.**  It replaces the whole range of tokens. -/
theorem edit_transform (f : List Token → List Token) (b : Buffer) : Edit b (b.transform f) :=
  .replaceRange (replaceRange?_whole b _)

end Buffer
end Restyle
