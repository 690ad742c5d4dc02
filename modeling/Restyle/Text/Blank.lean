import Restyle.Text.Ranges

/-!
# Blank characters

The characters with the White_Space property of the Unicode character database,
and what the project does with them: cutting blanks off both ends of an option's
value, and finding the first word of a text.

This is a larger class than the blanks that the lexer calls a space.  The lexer
knows four characters; a no-break space or a line separator in a source text is
an unexpected character there, but still separates words here.
-/

namespace Restyle
namespace Text

/-- The ranges of the White_Space property. -/
def blanks : List CodeRange :=
  [ ⟨0x9, 0xd⟩, ⟨0x20, 0x20⟩, ⟨0x85, 0x85⟩, ⟨0xa0, 0xa0⟩, ⟨0x1680, 0x1680⟩,
    ⟨0x2000, 0x200a⟩, ⟨0x2028, 0x2029⟩, ⟨0x202f, 0x202f⟩, ⟨0x205f, 0x205f⟩,
    ⟨0x3000, 0x3000⟩]

/-- Whether a character separates words. -/
def isBlank (c : Char) : Bool := inRanges c.toNat blanks

/-- A list without the leading and trailing elements that satisfy `p`. -/
def strip (p : Char → Bool) (cs : List Char) : List Char :=
  ((cs.dropWhile p).reverse.dropWhile p).reverse

/-- A text without the blanks at its two ends. -/
def trim (s : String) : String := String.ofList (strip isBlank s.toList)

/-- The first maximal run of characters that are not blank, if there is one. -/
def firstWord? (s : String) : Option String :=
  match (s.toList.dropWhile isBlank).takeWhile (!isBlank ·) with
  | [] => none
  | word => some (String.ofList word)

/-- A text in lower case, as far as ASCII goes. -/
def lowercase (s : String) : String := String.ofList (s.toList.map Char.toLower)

end Text
end Restyle
