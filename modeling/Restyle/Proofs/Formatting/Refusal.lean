import Mathlib.Data.List.TakeWhile
import Restyle.Proofs.Formatting.Passes
import Restyle.Proofs.Lexing.Legible

/-!
# What a refusal says

A text that has to be complete and could not be read to its end is refused before any rule runs.
The user is told the first word of what is left of the text, or that the file ended, if no word is
left.

Two classes of blanks meet here.  The lexer knows six blank characters, four that make up spaces and
two that end lines, and it never stops at one of them.  Words are separated by nineteen more, and to
the lexer these are unexpected characters.  So the rest of a text can start with a blank, and then
the message names a word that stands further on, or tells of the end of a file that goes on.

* `firstWord?_eq_none_iff`, `isFirstWord_of_firstWord?`: the first word of a text.
* `Legible.isLayoutChar_of_error`: the lexer does not stop at a blank that it knows.
* `keepsPromise_iff`: a message tells of the front of the rest exactly if no blank stands there.
* `report_of_unread`: what this says about the refusal of a text.  `format_noBreakSpace`: a text of
  one character that is refused as if it were empty.
-/

namespace Restyle

/-! ## The first word of a text -/

namespace Text

/-- The characters `word` are the first word of a text: only blanks stand before it, and it ends
at a blank or with the text. -/
inductive IsFirstWord (word : List Char) : List Char → Prop
  /-- A word, what stands before it and what stands after it. -/
  | intro {gap rest : List Char} (hgap : ∀ c ∈ gap, isBlank c = true) (hne : word ≠ [])
      (hword : ∀ c ∈ word, isBlank c = false) (hrest : ∀ c ∈ rest.head?, isBlank c = true) :
      IsFirstWord word (gap ++ (word ++ rest))

theorem IsFirstWord.ne_nil {word cs : List Char} (h : IsFirstWord word cs) : word ≠ [] := by
  cases h with
  | intro _ hne => exact hne

/-- A first word starts the text exactly if no blank does. -/
theorem IsFirstWord.prefix_iff {word cs : List Char} (h : IsFirstWord word cs) :
    word <+: cs ↔ ∀ c ∈ cs.head?, isBlank c = false := by
  cases h with
  | @intro gap rest hgap hne hword hrest =>
    obtain ⟨d, more, rfl⟩ := List.exists_cons_of_ne_nil hne
    have hd : isBlank d = false := hword d List.mem_cons_self
    cases gap with
    | nil =>
      simp only [List.nil_append, List.cons_append, List.head?_cons, Option.mem_some_iff]
      exact ⟨fun _ c hc => hc ▸ hd, fun _ => List.prefix_append (d :: more) rest⟩
    | cons g gap =>
      have hg : isBlank g = true := hgap g List.mem_cons_self
      simp only [List.cons_append, List.head?_cons, Option.mem_some_iff]
      constructor
      · intro hprefix
        rw [(List.cons_prefix_cons.1 hprefix).1, hg] at hd
        exact absurd hd (by decide)
      · intro hhead
        exact absurd (hhead g rfl) (by simp [hg])

/-- A text without a word is all blanks. -/
theorem firstWord?_eq_none_iff {s : String} :
    firstWord? s = none ↔ ∀ c ∈ s.toList, isBlank c = true := by
  rw [← List.dropWhile_eq_nil_iff]
  unfold firstWord?
  cases hdrop : s.toList.dropWhile isBlank with
  | nil => simp
  | cons c rest =>
    -- a word starts where the blanks end
    have hc := List.head?_dropWhile_not isBlank s.toList
    rw [hdrop] at hc
    simp [show isBlank c = false by simpa using hc]

theorem isFirstWord_of_firstWord? {s word : String} (h : firstWord? s = some word) :
    IsFirstWord word.toList s.toList := by
  have hsplit : s.toList = s.toList.takeWhile isBlank ++
      ((s.toList.dropWhile isBlank).takeWhile (!isBlank ·) ++
        (s.toList.dropWhile isBlank).dropWhile (!isBlank ·)) := by
    rw [List.takeWhile_append_dropWhile, List.takeWhile_append_dropWhile]
  unfold firstWord? at h
  split at h
  · exact absurd h (by simp)
  · rename_i cs hne
    obtain rfl := Option.some.inj h
    rw [String.toList_ofList]
    refine (congrArg (IsFirstWord _) hsplit).mpr (.intro (fun c => List.mem_takeWhile_imp)
      (fun hnil => hne hnil) (fun c hc => ?_) (fun c hc => ?_))
    · simpa using List.mem_takeWhile_imp hc
    · have hnot := List.head?_dropWhile_not (!isBlank ·) (s.toList.dropWhile isBlank)
      rw [Option.mem_def.1 hc] at hnot
      simpa using hnot

end Text

/-! ## Where the lexer stops -/

/-- **The lexer does not stop at a blank that it knows**: no error starts with one. -/
theorem Token.Legible.isLayoutChar_of_error {scopes : List Char} {tokens : List Token} {t : Token}
    (h : Legible scopes tokens) (ht : t ∈ tokens) (herror : t.isError = true) :
    ∀ c ∈ t.text.toList.head?, isLayoutChar c = false := by
  induction h with
  | done => simp at ht
  | @blank _ b _ hblank _ ih =>
    rcases List.mem_cons.1 ht with rfl | ht
    · rcases hblank.kind with hkind | hkind <;> exact absurd herror (by simp [isError, hkind])
    · exact ih ht
  | @code _ _ kind c more rest hlayout hlex _ _ ih =>
    rcases List.mem_cons.1 ht with rfl | ht
    · have hfits := fits_lexeme hlayout (more ++ chars rest)
      rw [hlex] at hfits
      exact absurd herror (by simpa [isError] using hfits.2.2.1)
    · exact ih ht
  | @unfinished _ kind c more hlayout hlex =>
    rcases List.mem_cons.1 ht with rfl | ht
    · simpa using hlayout
    · rw [List.mem_singleton.1 ht]
      simp
  | unexpected hlayout | unmatched hlayout =>
    rw [List.mem_singleton.1 ht]
    simpa using hlayout
  | unclosed =>
    rw [List.mem_singleton.1 ht]
    simp

namespace Formatting

open Token

/-! ## The message -/

/-- The message tells of the front of the unread rest: of the end of the file if nothing is left,
and otherwise of what the rest starts with. -/
def KeepsPromise (rest message : String) : Prop :=
  (message = "unexpected end of file" ↔ rest = "") ∧
    (rest ≠ "" → ∃ word : String, word ≠ "" ∧ word.toList <+: rest.toList ∧
      message = s!"unexpected token '{word}'")

/-- What the user is told about an unread rest. -/
structure Report (rest : String) (fault : Fault) : Prop where
  /-- The text makes no sense. -/
  category : fault.category = .parsing
  /-- The end of the file is blamed exactly if no word is left. -/
  endOfFile : fault.message = "unexpected end of file" ↔ ∀ c ∈ rest.toList, Text.isBlank c = true
  /-- If a word is left, the first one is named. -/
  word : (∃ c ∈ rest.toList, Text.isBlank c = false) → ∃ word : String,
    Text.IsFirstWord word.toList rest.toList ∧ fault.message = s!"unexpected token '{word}'"
  /-- The message tells of the front of the rest exactly if no blank stands there. -/
  promise : KeepsPromise rest fault.message ↔ ∀ c ∈ rest.toList.head?, Text.isBlank c = false
  /-- If a blank stands there, the lexer does not know it. -/
  strange : ∀ c ∈ rest.toList.head?, isSpaceChar c = false ∧ isLineEnd c = false

theorem message_unexpected (word : String) :
    (Failure.unexpected word).message = "unexpected token '" ++ word ++ "'" := rfl

theorem message_unexpected_ne (word : String) :
    (Failure.unexpected word).message ≠ "unexpected end of file" := by
  intro h
  rw [message_unexpected, ← String.toList_inj, String.toList_append, String.toList_append] at h
  have hletter := congrArg (fun cs => cs[11]?) h
  simp at hletter

/-- **A message tells of the front of the rest exactly if no blank stands there.** -/
theorem keepsPromise_iff (rest : String) :
    KeepsPromise rest (unreadable rest).message ↔
      ∀ c ∈ rest.toList.head?, Text.isBlank c = false := by
  unfold unreadable
  cases hword : Text.firstWord? rest with
  | none =>
    have hblank := Text.firstWord?_eq_none_iff.1 hword
    constructor
    · rintro ⟨hend, -⟩
      rw [hend.1 rfl]
      simp
    · intro hhead
      obtain rfl : rest = "" := by
        cases hrest : rest.toList with
        | nil => exact String.toList_injective hrest
        | cons c cs =>
          rw [hrest] at hblank hhead
          exact absurd (hhead c rfl) (by simp [hblank c])
      exact ⟨iff_of_true rfl rfl, fun hne => absurd rfl hne⟩
  | some word =>
    have hfirst := Text.isFirstWord_of_firstWord? hword
    rw [← hfirst.prefix_iff]
    have hne : word ≠ "" := by
      rintro rfl
      exact hfirst.ne_nil rfl
    constructor
    · rintro ⟨hend, hnamed⟩
      have hrest : rest ≠ "" := fun hrest => message_unexpected_ne word (hend.2 hrest)
      obtain ⟨word', -, hprefix, hmessage⟩ := hnamed hrest
      have hwords : (Failure.unexpected word).message = (Failure.unexpected word').message :=
        hmessage
      obtain rfl : word = word' := by simpa [message_unexpected] using hwords
      exact hprefix
    · intro hprefix
      have hrest : rest ≠ "" := by
        rintro rfl
        exact hne (String.toList_injective (List.prefix_nil.1 hprefix))
      exact ⟨iff_of_false (message_unexpected_ne word) hrest,
        fun _ => ⟨word, hne, hprefix, rfl⟩⟩

/-- **What is said about a text that could not be read to its end.**  For every style in which a
text has to be complete, every list of rules and every text whose tokens end with an error: the text
is refused with a fault that tells of the first word of the unread rest. -/
theorem report_of_unread {style : Style} {source rest : String} (rules : List Rule)
    (hfragment : style.fragment = false)
    (hlast : (scan source).getLast? = some ⟨.error, rest⟩) :
    ∃ failure, format style rules source = .error failure ∧ Report rest failure.fault := by
  have hrefusal : refusal? style (scan source) = some (unreadable rest) := by
    simp [refusal?, hfragment, hlast, isError]
  refine ⟨unreadable rest, by simp [format, applyRules, hrefusal, Except.map], ?_⟩
  refine ⟨rfl, ?endOfFile, ?word, keepsPromise_iff rest, ?strange⟩
  case endOfFile =>
    rw [← Text.firstWord?_eq_none_iff]
    unfold unreadable
    cases Text.firstWord? rest with
    | none => exact iff_of_true rfl rfl
    | some word => exact iff_of_false (message_unexpected_ne word) (by simp)
  case word =>
    rintro ⟨c, hc, hblank⟩
    unfold unreadable
    cases hword : Text.firstWord? rest with
    | none => exact absurd (Text.firstWord?_eq_none_iff.1 hword c hc) (by simp [hblank])
    | some word => exact ⟨word, Text.isFirstWord_of_firstWord? hword, rfl⟩
  case strange =>
    intro c hc
    have herror := List.mem_of_getLast? hlast
    have hlayout := (legible_scan source).isLayoutChar_of_error herror rfl c hc
    simpa [isLayoutChar] using hlayout

/-- A rest that starts with a no-break space, which separates words and which the lexer does not
know. -/
theorem report_of_unread_noBreakSpace :
    (scan "a \u00a0b\u3000c").getLast? = some ⟨.error, "\u00a0b\u3000c"⟩ ∧
      ∃ failure, format {} (Rule.defaults {}) "a \u00a0b\u3000c" = .error failure ∧
        Report "\u00a0b\u3000c" failure.fault := by
  have hlast : (scan "a \u00a0b\u3000c").getLast? = some ⟨.error, "\u00a0b\u3000c"⟩ := by
    decide +kernel
  exact ⟨hlast, report_of_unread _ rfl hlast⟩

/-- **A text of one no-break space is refused as if it were empty**: its error holds the character,
and the message blames the end of the file. -/
theorem format_noBreakSpace :
    (scan "\u00a0").getLast? = some ⟨.error, "\u00a0"⟩ ∧
      format {} (Rule.defaults {}) "\u00a0" = .error .endOfFile ∧
      ¬ KeepsPromise "\u00a0" Failure.endOfFile.fault.message := by
  refine ⟨by decide +kernel, by decide +kernel, ?_⟩
  rintro ⟨hend, -⟩
  exact absurd (hend.1 rfl) (by decide)

end Formatting
end Restyle
