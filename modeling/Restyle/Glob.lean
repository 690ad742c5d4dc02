/-!
# Patterns for names

A pattern is a text in which `?` stands for one character, `*` for any number of
characters, `**` for any number of directories, and `[...]` for one character out
of a set, or with `[!...]` for one that is not in it.

Nothing is special about a slash or about a leading dot: `*` matches both.  Only
`**` looks at slashes.  It has to fill a component of its own, takes the slash
after it along, and stops only after a slash or at the end of the text.
-/

namespace Restyle
namespace Glob

/-- A member of a set of characters. -/
inductive Member where
  /-- One character. -/
  | one (c : Char)
  /-- Every character from one to another. -/
  | between (first last : Char)
deriving Repr, DecidableEq

/-- A piece of a pattern. -/
inductive Piece where
  /-- Itself. -/
  | char (c : Char)
  /-- Any one character. -/
  | anyOne
  /-- Any number of characters. -/
  | anyText
  /-- Any number of directories. -/
  | anyDirectories
  /-- One character that is in a set, or with `negated` one that is not. -/
  | oneOf (negated : Bool) (members : List Member)
deriving Repr, DecidableEq

/-- What can be wrong with a pattern. -/
inductive Flaw where
  /-- More than two stars in a row. -/
  | tooManyStars
  /-- Two stars beside something else. -/
  | besideOther
  /-- A set that is empty or not closed. -/
  | badSet
deriving Repr, DecidableEq

/-- A flaw and where it was found, counted in characters. -/
structure Problem where
  /-- The position. -/
  position : Nat
  /-- The flaw. -/
  flaw : Flaw
deriving Repr, DecidableEq

/-- What the user is told about a flaw. -/
def Flaw.message : Flaw → String
  | tooManyStars => "wildcards are either regular `*` or recursive `**`"
  | besideOther => "recursive wildcards must form a single path component"
  | badSet => "invalid range pattern"

/-- What the user is told about a problem. -/
def Problem.message (p : Problem) : String :=
  s!"Pattern syntax error near position {p.position}: " ++ p.flaw.message

/-! ## Reading a pattern -/

/-- The members of a set: three characters around a hyphen are a range. -/
def members : List Char → List Member
  | first :: '-' :: last :: rest => .between first last :: members rest
  | c :: rest => .one c :: members rest
  | [] => []

/-- The set at the start of a text, after its opening bracket, and the number of
characters it takes.  The first character of a set is never its end. -/
def set? (cs : List Char) : Option (Piece × Nat) :=
  match cs with
  | '!' :: first :: rest =>
    (rest.findIdx? (· == ']')).map fun n =>
      (.oneOf true (members (first :: rest.take n)), n + 3)
  | '!' :: [] => none
  | first :: rest =>
    (rest.findIdx? (· == ']')).map fun n =>
      (.oneOf false (members (first :: rest.take n)), n + 2)
  | [] => none

/-- The pieces with one more that stands for directories, unless the last one
does so already.  A pattern that starts with two such pieces keeps both. -/
def pushDirectories (backwards : List Piece) : List Piece :=
  match backwards with
  | .anyDirectories :: _ :: _ => backwards
  | _ => .anyDirectories :: backwards

/-- Reads the pieces of a pattern.  `position` counts the characters before the
text, `before` is the last of them, and `backwards` holds the pieces so far. -/
def readFrom (position : Nat) (before : Option Char) (backwards : List Piece)
    (cs : List Char) : Except Problem (List Piece) :=
  match cs with
  | [] => .ok backwards.reverse
  | '?' :: rest => readFrom (position + 1) (some '?') (.anyOne :: backwards) rest
  | '*' :: '*' :: '*' :: _ => .error ⟨position + 2, .tooManyStars⟩
  | '*' :: '*' :: rest =>
    if before.all (· == '/') then
      match rest with
      | [] => .ok (pushDirectories backwards).reverse
      | '/' :: after => readFrom (position + 3) (some '/') (pushDirectories backwards) after
      | _ => .error ⟨position + 2, .besideOther⟩
    else .error ⟨position - 1, .besideOther⟩
  | '*' :: rest => readFrom (position + 1) (some '*') (.anyText :: backwards) rest
  | '[' :: rest =>
    match set? rest with
    | some (piece, n) => readFrom (position + 1 + n) (some ']') (piece :: backwards) (rest.drop n)
    | none => .error ⟨position, .badSet⟩
  | c :: rest => readFrom (position + 1) (some c) (.char c :: backwards) rest
termination_by cs.length
decreasing_by all_goals simp only [List.length_cons, List.length_drop]; omega

/-! ## Matching -/

/-- Whether a set has a character. -/
def Member.has (c : Char) : Member → Bool
  | one d => c == d
  | between first last => first ≤ c && c ≤ last

/-- Whether `accept` holds of some end of a text. -/
def someEnd (accept : List Char → Bool) : List Char → Bool
  | [] => accept []
  | c :: rest => accept (c :: rest) || someEnd accept rest

/-- Whether `accept` holds of some end of a text that follows a slash, or of its
empty end. -/
def someEndBelow (accept : List Char → Bool) : List Char → Bool
  | [] => accept []
  | c :: rest => (c == '/' && accept rest) || someEndBelow accept rest

/-- Whether `accept` holds of the rest of a text whose first character satisfies
`p`. -/
def afterOne (p : Char → Bool) (accept : List Char → Bool) : List Char → Bool
  | [] => false
  | c :: rest => p c && accept rest

/-- Whether pieces match a whole text. -/
def matchPieces : List Piece → List Char → Bool
  | [], cs => cs.isEmpty
  | .char c :: rest, cs => afterOne (· == c) (matchPieces rest) cs
  | .anyOne :: rest, cs => afterOne (fun _ => true) (matchPieces rest) cs
  | .oneOf negated set :: rest, cs =>
    afterOne (fun c => set.any (·.has c) != negated) (matchPieces rest) cs
  | .anyText :: rest, cs => someEnd (matchPieces rest) cs
  | .anyDirectories :: rest, cs => matchPieces rest cs || someEndBelow (matchPieces rest) cs

end Glob

/-- A pattern with the text it was read from. -/
structure Glob where
  /-- The text of the pattern. -/
  text : String
  /-- Its pieces. -/
  pieces : List Glob.Piece
deriving Repr, DecidableEq

namespace Glob

/-- The pattern that a text spells. -/
def read (s : String) : Except Problem Glob :=
  (readFrom 0 none [] s.toList).map fun pieces => ⟨s, pieces⟩

/-- Whether a pattern matches a whole text. -/
def isMatch (g : Glob) (s : String) : Bool := matchPieces g.pieces s.toList

end Glob
end Restyle
