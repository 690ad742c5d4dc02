import Mathlib.Logic.Function.Basic
import Restyle.Style.Field

/-!
# What the values of options mean

In settings files and on the command line the value of an option is a text.  Which texts there
are, and what they stand for, is documented: some fields of a style have a few words as values,
in either case, and some have numbers.  Here this is written down as a table, `Field.words`, and
with it what a text means for a field, `Field.meaning?`.

Nothing of this mentions how a field is set.  That setting a field to a text comes to putting the
meaning of the text there, and to a fault where the text has none, is `Field.set_eq`.
-/

namespace Restyle

namespace Text

/-! ## Numbers in lower case -/

/-- A character in lower case is the character itself, unless that is a capital letter. -/
theorem toLower_eq_or (c : Char) :
    c.toLower = c ∨ 65 ≤ c.toNat ∧ c.toNat ≤ 90 ∧ c.toLower.toNat = c.toNat + 32 := by
  unfold Char.toLower
  split
  · next h =>
    have hlow := UInt32.le_iff_toNat_le.1 h.1
    have hhigh := UInt32.le_iff_toNat_le.1 h.2
    simp only [Char.toNat, UInt32.toNat_add] at hlow hhigh ⊢
    simp at hlow hhigh ⊢
    omega
  · exact .inl rfl

/-- Capital letters are no digits, in either case. -/
theorem digit?_toLower (c : Char) : digit? c.toLower = digit? c := by
  rcases toLower_eq_or c with h | ⟨hlow, hhigh, hcode⟩
  · rw [h]
  · have hno : ∀ d : Char, 57 < d.toNat → digit? d = none := by
      intro d hd
      refine if_neg fun hdigit => ?_
      have hle : d.toNat ≤ '9'.toNat := UInt32.le_iff_toNat_le.1 hdigit.2
      exact absurd hle (Nat.not_le.2 hd)
    rw [hno c (by omega), hno c.toLower (by omega)]

theorem digitsFrom?_map_toLower (n : Nat) (cs : List Char) :
    digitsFrom? n (cs.map Char.toLower) = digitsFrom? n cs := by
  induction cs generalizing n with
  | nil => rfl
  | cons c rest ih => simp only [List.map_cons, digitsFrom?, digit?_toLower, ih]

theorem toLower_eq_plus_iff (c : Char) : c.toLower = '+' ↔ c = '+' := by
  have hplus : '+'.toNat = 43 := rfl
  rcases toLower_eq_or c with h | ⟨hlow, hhigh, hcode⟩
  · rw [h]
  · refine iff_of_false (fun h => ?_) fun h => ?_
    · rw [h] at hcode
      omega
    · rw [h] at hlow
      omega

/-- A number has no case. -/
theorem word?_lowercase (s : String) : word? (lowercase s) = word? s := by
  have hdigits : ∀ cs : List Char,
      (digitsFrom? 0 (cs.map Char.toLower)).filter (· ≤ maxWord) =
        (digitsFrom? 0 cs).filter (· ≤ maxWord) :=
    fun cs => congrArg (Option.filter _) (digitsFrom?_map_toLower 0 cs)
  rw [word?, word?, lowercase, String.toList_ofList]
  rcases s.toList with _ | ⟨c, rest⟩
  · rfl
  · by_cases hc : c = '+'
    · subst hc
      rcases rest with _ | ⟨d, rest⟩
      · rfl
      · exact hdigits (d :: rest)
    · have hc' : c.toLower ≠ '+' := mt (toLower_eq_plus_iff c).1 hc
      simpa [hc, hc'] using hdigits (c :: rest)

end Text

namespace Field

/-! ## The values of a field -/

/-- What the values of a field are. -/
abbrev Value : Field → Type
  | indent => Indent
  | linebreaks => Linebreak
  | allman => Bool
  | maxBlankLines => Nat
  | trimWhitespace => Trim
  | experimental => Bool
  | fragment => Bool

/-- The value that a style has in a field. -/
def get : (f : Field) → Style → f.Value
  | indent, s => s.indent
  | linebreaks, s => s.linebreak
  | allman, s => s.allman
  | maxBlankLines, s => s.maxBlankLines
  | trimWhitespace, s => s.trim
  | experimental, s => s.experimental
  | fragment, s => s.fragment

/-- A style with a value put into a field. -/
def put : (f : Field) → f.Value → Style → Style
  | indent, i, s => { s with indent := i }
  | linebreaks, l, s => { s with linebreak := l }
  | allman, b, s => { s with allman := b }
  | maxBlankLines, n, s => { s with maxBlankLines := n }
  | trimWhitespace, t, s => { s with trim := t }
  | experimental, b, s => { s with experimental := b }
  | fragment, b, s => { s with fragment := b }

@[simp]
theorem get_put (f : Field) (v : f.Value) (s : Style) : f.get (f.put v s) = v := by
  cases f <;> rfl

theorem get_put_of_ne {f g : Field} (h : f ≠ g) (v : g.Value) (s : Style) :
    f.get (g.put v s) = f.get s := by
  cases f <;> cases g <;> first | rfl | exact absurd rfl h

/-- A style is made of its fields. -/
theorem eq_of_get_eq {s s' : Style} (h : ∀ f : Field, f.get s = f.get s') : s = s' := by
  obtain ⟨i, l, a, n, t, e, p⟩ := s
  obtain ⟨i', l', a', n', t', e', p'⟩ := s'
  obtain rfl : i = i' := h indent
  obtain rfl : l = l' := h linebreaks
  obtain rfl : a = a' := h allman
  obtain rfl : n = n' := h maxBlankLines
  obtain rfl : t = t' := h trimWhitespace
  obtain rfl : e = e' := h experimental
  obtain rfl : p = p' := h fragment
  rfl

/-! ## Texts and what they stand for -/

/-- The words of a switch. -/
def switchWords : List (String × Bool) :=
  [("true", true), ("enabled", true), ("yes", true), ("on", true),
    ("false", false), ("disabled", false), ("no", false), ("off", false)]

/-- The words that are values of a field, and what they stand for. -/
def words : (f : Field) → List (String × f.Value)
  | indent => [("tab", .tab), ("tabs", .tab)]
  | linebreaks => [("lf", .lf), ("crlf", .crlf), ("cr", .cr)]
  | allman => switchWords
  | maxBlankLines => []
  | trimWhitespace => [("always", .always), ("nonblank-lines", .nonblankLines)]
  | experimental => switchWords
  | fragment => switchWords

/-- What a number stands for, in the fields that have numbers as values. -/
def ofNumber? : (f : Field) → Nat → Option f.Value
  | indent, n => some (.spaces n)
  | maxBlankLines, n => some n
  | _, _ => none

/-- **What a text means for a field**: one of its words in either case, or a number.  Blanks
around it do not count. -/
def meaning? (f : Field) (text : String) : Option f.Value :=
  let text := Text.trim text
  (f.words.lookup (Text.lowercase text)).or ((Text.word? text).bind f.ofNumber?)

/-- A field without numbers has its words alone. -/
theorem meaning?_eq_lookup {f : Field} (h : ∀ n, f.ofNumber? n = none) (text : String) :
    f.meaning? text = f.words.lookup (Text.lowercase (Text.trim text)) := by
  rw [meaning?, funext h, Option.bind_fun_none, Option.or_none]

/-! ## Setting a field -/

/-- Looking a value up by its name among all values is looking its name up among the names. -/
theorem find?_name_eq_lookup {α : Type} (name : α → String) (values : List α) (s : String) :
    values.find? (name · == s) = (values.map fun v => (name v, v)).lookup s := by
  induction values with
  | nil => rfl
  | cons v rest ih => rw [List.find?_cons, List.map_cons, List.lookup_cons, ih, BEq.comm]

/-- Words that all stand for one value, in front of others. -/
theorem lookup_map_append {α : Type} (a : α) (words : List String) (others : List (String × α))
    (s : String) :
    (words.map (·, a) ++ others).lookup s =
      if words.contains s then some a else others.lookup s := by
  induction words with
  | nil => rfl
  | cons word rest ih =>
    rw [List.map_cons, List.cons_append, List.lookup_cons, ih, List.contains_cons]
    cases s == word <;> rfl

theorem switch?_eq_lookup (s : String) : switch? s = switchWords.lookup (Text.lowercase s) := by
  have hwords : switchWords = onWords.map (·, true) ++ (offWords.map (·, false) ++ []) := rfl
  rw [switch?, hwords, lookup_map_append, lookup_map_append, List.lookup_nil]

theorem indent?_eq_lookup (s : String) :
    indent? s = ((words indent).lookup (Text.lowercase s)).or ((Text.word? s).map .spaces) := by
  have hwords : words indent = ["tab", "tabs"].map (·, Indent.tab) ++ [] := rfl
  simp only [indent?, hwords, lookup_map_append, List.lookup_nil, Text.word?_lowercase,
    List.contains_cons, List.contains_nil, Bool.or_false, Bool.or_eq_true, beq_iff_eq,
    decide_eq_true_eq]
  split <;> rfl

/-- **Setting a field to a text** puts the meaning of the text there, and fails for a text without
a meaning. -/
theorem set_eq (f : Field) (s : Style) (text : String) :
    f.set s text = match f.meaning? text with
      | some v => .ok (f.put v s)
      | none => .error (f.unsupported (Text.trim text)) := by
  have hset : f.set? s (Text.trim text) = (f.meaning? text).map (f.put · s) := by
    cases f with
    | indent =>
      have hnumber : (Text.word? (Text.trim text)).bind (ofNumber? indent) =
          (Text.word? (Text.trim text)).map .spaces := Option.map_eq_bind.symm
      rw [set?, indent?_eq_lookup, meaning?, hnumber]
      rfl
    | linebreaks =>
      rw [set?, meaning?_eq_lookup fun _ => rfl, Linebreak.ofName?, find?_name_eq_lookup]
      rfl
    | maxBlankLines =>
      have hnumber : (Text.word? (Text.trim text)).bind (ofNumber? maxBlankLines) =
          Text.word? (Text.trim text) := Option.bind_fun_some _
      rw [set?, meaning?, hnumber, words, List.lookup_nil, Option.none_or]
      rfl
    | trimWhitespace =>
      rw [set?, meaning?_eq_lookup fun _ => rfl, Trim.ofName?, find?_name_eq_lookup]
      rfl
    | allman | experimental | fragment =>
      rw [set?, switch?_eq_lookup, meaning?_eq_lookup fun _ => rfl]
      rfl
  rw [set, hset]
  cases f.meaning? text <;> rfl

end Field
end Restyle
