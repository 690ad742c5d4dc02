/-!
# File names

To a disk a file name is a sequence of bytes, any but zero and that of a slash.  Most
often the bytes encode a text, but they need not.

Here a name is a `String`.  A name that is a text is that text.  Any other name is
kept as a zero character with one character behind it for every byte, the one whose
code point is the byte.  No name has a zero in it, so names of the two kinds are not
mixed up, and `ofBytes` and `bytes` lead from the bytes of a name to what is kept of
it and back.

What is done with a name goes by its bytes (the order in a directory), asks whether
it is a text (`text?`), or makes do with a text that shows most of it (`shown`).
-/

namespace Restyle
namespace Name

/-! ## Texts and bytes -/

/-- The text that some bytes encode, if they do. -/
def textOf? (bytes : List UInt8) : Option String := String.fromUTF8? ⟨bytes.toArray⟩

/-- The bytes of a name that is no text. -/
def raw? (name : String) : Option (List UInt8) :=
  match name.toList with
  | '\x00' :: rest =>
    if rest.all (·.toNat < 256) && (textOf? (rest.map Char.toUInt8)).isNone then
      some (rest.map Char.toUInt8)
    else none
  | _ => none

/-- The bytes of a name. -/
def bytes (name : String) : List UInt8 := (raw? name).getD name.toUTF8.data.toList

/-- The text that a name is, if it is one. -/
def text? (name : String) : Option String := if (raw? name).isSome then none else some name

/-- What is kept of a name with the given bytes. -/
def ofBytes (b : List UInt8) : String :=
  (textOf? b).getD (String.ofList ('\x00' :: b.map Char.ofUInt8))

/-! ## A text for every name -/

/-- How many bytes the encoding of a character has, and between which bounds the second
of them lies, by its first byte. -/
def lead? (b : UInt8) : Option (Nat × UInt8 × UInt8) :=
  if b < 0x80 then some (1, 0x80, 0xbf)
  else if b < 0xc2 then none
  else if b < 0xe0 then some (2, 0x80, 0xbf)
  else if b = 0xe0 then some (3, 0xa0, 0xbf)
  else if b = 0xed then some (3, 0x80, 0x9f)
  else if b < 0xf0 then some (3, 0x80, 0xbf)
  else if b = 0xf0 then some (4, 0x90, 0xbf)
  else if b < 0xf4 then some (4, 0x80, 0xbf)
  else if b = 0xf4 then some (4, 0x80, 0x8f)
  else none

/-- How many bytes belong together behind a first byte: those that the encoding of a
character has in common with them. -/
def follow (first : UInt8) (rest : List UInt8) : Nat :=
  match lead? first, rest with
  | some (width + 2, low, high), second :: rest =>
    if low ≤ second ∧ second ≤ high then
      1 + ((rest.take width).takeWhile fun b => 0x80 ≤ b ∧ b ≤ 0xbf).length
    else 0
  | _, _ => 0

/-- The text of some bytes, the first `skip` left out, with a replacement character for
all that belongs together and is no character. -/
def shownFrom : Nat → List UInt8 → String
  | _, [] => ""
  | skip + 1, _ :: rest => shownFrom skip rest
  | 0, b :: rest =>
    let more := follow b rest
    (textOf? (b :: rest.take more)).getD "\uFFFD" ++ shownFrom more rest

/-- The text that shows a name. -/
def shown (name : String) : String :=
  match raw? name with
  | some b => shownFrom 0 b
  | none => name

end Name
end Restyle
