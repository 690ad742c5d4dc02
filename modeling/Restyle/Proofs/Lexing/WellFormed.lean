import Restyle.Proofs.Lexing.Scopes

/-!
# What the rules may rely on

The rules take it for granted that the tokens they are given come from the lexer: that a space is
not followed by another one, that a line comment is followed by the end of its line, that brackets
belong together.  This file proves it.

Most of it holds because the lexer takes as many characters as it can: what follows a run of blanks
is no blank, what follows a line comment ends the line, and an operator stops before a comment.

* `apart_of_scan`, `tidy_scan`: no two neighbours would be read as one blank.
* `isChain_operator`: an operator does not open a comment at any of its characters.
* `eq_lineComment`, `cases_of_scanFrom_dropWhile`: a line comment, and what can follow it.
* `wellFormed_scan`: the tokens of a text are well formed, for every text.
-/

namespace Restyle
namespace Token

/-! ## Blanks -/

theorem isSpaceChar_of_form {c : Char} {rest : List Char} {n : Nat} (h : Form c rest .space n) :
    ∀ d ∈ c :: rest.take n, isSpaceChar d = true := by
  cases h with
  | name _ hkind => exact absurd hkind (by simp)
  | space hc =>
    rw [take_run]
    exact List.forall_mem_cons.2 ⟨hc, List.all_eq_true.1 List.all_takeWhile⟩

/-- The text of a linebreak.  A carriage return by itself has no line feed after it. -/
theorem text_of_form_linebreak {c : Char} {rest : List Char} {n : Nat}
    (h : Form c rest .linebreak n) :
    String.ofList (c :: rest.take n) = "\n" ∨ String.ofList (c :: rest.take n) = "\r\n" ∨
      (String.ofList (c :: rest.take n) = "\r" ∧ (rest.drop n).head? ≠ some '\n') := by
  cases h with
  | name _ hkind => exact absurd hkind (by simp)
  | lineFeed hc =>
    subst hc
    exact Or.inl rfl
  | carriageReturn hc =>
    subst hc
    split
    · rename_i hlf
      obtain ⟨tail, rfl⟩ := List.head?_eq_some_iff.1 hlf
      exact Or.inr (Or.inl rfl)
    · rename_i hlf
      exact Or.inr (Or.inr ⟨rfl, hlf⟩)

variable {s : String}

/-- What is left to read after a token starts with the next one. -/
theorem head?_of_scanFrom {scopes cs : List Char} {u : Token} {after : List Token}
    (h : scanFrom scopes cs = u :: after) (hu : u.text ≠ "") :
    cs.head? = u.text.toList.head? := by
  have hne : u.text.toList ≠ [] := fun hnil => hu (String.toList_eq_nil_iff.1 hnil)
  rw [← chars_scanFrom scopes cs, h, chars_cons, List.head?_append_of_ne_nil _ hne]

/-- **No two neighbours of a text would be read as one blank.** -/
theorem apart_of_scan {before after : List Token} {t u : Token}
    (h : scan s = before ++ t :: u :: after) : Apart t u := by
  constructor
  · rintro ⟨ht, hu⟩
    have htkind : t.kind = .space := by simpa [isSpace] using ht
    have hukind : u.kind = .space := by simpa [isSpace] using hu
    obtain ⟨c, rest, n, inner, hform, -, hnext⟩ := exists_form h (by simp [htkind])
    obtain ⟨d, rest', m, _, hform', htext, -⟩ :=
      exists_form (hnext.trans (List.nil_append _).symm) (by simp [hukind])
    have hd : isSpaceChar d = true := by
      rw [hukind] at hform'
      exact isSpaceChar_of_form hform' d List.mem_cons_self
    have hhead := head?_of_scanFrom hnext (by rw [htext]; exact text_ofList_cons_ne_empty _ _)
    rw [htext, String.toList_ofList, List.head?_cons] at hhead
    rw [htkind] at hform
    cases hform with
    | name _ hkind => exact absurd hkind (by simp)
    | space =>
      rw [not_of_mem_head?_drop_run hhead] at hd
      exact absurd hd (by simp)
  · rintro ⟨rfl, rfl⟩
    obtain ⟨c, rest, n, inner, hform, htext, hnext⟩ := exists_form h (by simp)
    have hhead := head?_of_scanFrom hnext (by simp)
    rcases text_of_form_linebreak hform with hlf | hcrlf | ⟨-, hnot⟩
    · exact absurd (htext.trans hlf) (by decide)
    · exact absurd (htext.trans hcrlf) (by decide)
    · exact hnot hhead

theorem tidy_scan (s : String) : Tidy (scan s) := by
  rw [Tidy, List.isChain_iff_forall_rel_of_append_cons_cons]
  intro t u before after h
  exact apart_of_scan h

/-! ## Operators -/

/-- **An operator opens no comment**: no slash in it is followed by a slash or a star. -/
theorem isChain_operator {c : Char} {rest : List Char} (hc : c = '/' → opensComment rest = false) :
    (c :: rest.take (operatorTail rest)).IsChain fun x y => x = '/' → y ≠ '/' ∧ y ≠ '*' := by
  induction rest generalizing c with
  | nil => simp
  | cons d rest ih =>
    unfold operatorTail
    split
    · simp
    · split
      · simp
      · rename_i hd
        rw [List.take_succ_cons, List.isChain_cons_cons]
        refine ⟨fun hslash => ?_, ih fun hslash => by simpa [hslash] using hd⟩
        have hopens := hc hslash
        rw [opensComment_cons, Bool.or_eq_false_iff] at hopens
        simpa using hopens

/-! ## Line comments -/

/-- What a comment that starts with two slashes is. -/
theorem eq_lineComment {before after : List Token} {t : Token} (h : scan s = before ++ t :: after)
    (hkind : t.kind = .comment) (hslashes : ['/', '/'] <+: t.text.toList) :
    ∃ more inner : List Char, t.text = String.ofList ('/' :: '/' :: more.takeWhile (!isLineEnd ·)) ∧
      scanFrom inner (more.dropWhile (!isLineEnd ·)) = after := by
  obtain ⟨scopes, cs, hscan⟩ := exists_scanFrom h (by rintro rfl; exact absurd hkind (by simp))
  obtain ⟨more, hmore⟩ := hslashes
  cases step_of_scanFrom hscan with
  | @complete kind c rest inner n hform _ =>
    obtain rfl : kind = .comment := hkind
    cases hform with
    | name _ hkind => exact absurd hkind (by simp)
    | @lineComment more hc hrest =>
      subst hc hrest
      refine ⟨more, inner, ?_, ?_⟩
      · rw [List.take_succ_cons, take_run]
      · rw [List.drop_succ_cons, drop_run]
    | blockComment hc hrest _ =>
      subst hc hrest
      simp at hmore
  | openComment => simp at hmore
  | openString | error => exact absurd hkind (by simp)

/-- **A line comment is followed by the end of its line**, or by nothing that was read. -/
theorem cases_of_scanFrom_dropWhile {scopes more : List Char} {u : Token} {after : List Token}
    (h : scanFrom scopes (more.dropWhile (!isLineEnd ·)) = u :: after) :
    u.isLinebreak = true ∨ u = ⟨.error, ""⟩ := by
  cases hcs : more.dropWhile (!isLineEnd ·) with
  | nil =>
    rw [hcs] at h
    unfold scanFrom at h
    split at h
    · exact absurd h (by simp)
    · exact Or.inr (List.cons.inj h).1.symm
  | cons c cs =>
    rw [hcs] at h
    have hc := List.head?_dropWhile_not (fun c => !isLineEnd c) more
    rw [hcs, List.head?_cons] at hc
    have hc : c = '\n' ∨ c = '\r' := isLineEnd_iff.1 (by simpa using hc)
    refine Or.inl ?_
    rcases hc with rfl | rfl
    · rw [scanFrom_cons_of_complete (lexeme_lf cs) rfl] at h
      rw [← (List.cons.inj h).1]
      rfl
    · rw [scanFrom_cons_of_complete (lexeme_cr cs) rfl] at h
      rw [← (List.cons.inj h).1]
      rfl

/-! ## All of it -/

/-- **Well-formed tokens**: blanks, operators, comments and brackets are as rules expect them. -/
structure WellFormed (ts : List Token) : Prop where
  /-- No two spaces stand side by side. -/
  spaces : ∀ before t u after, ts = before ++ t :: u :: after →
    ¬ (t.isSpace = true ∧ u.isSpace = true)
  /-- A space consists of blanks and tabs, vertical tabs and form feeds. -/
  spaceText : ∀ t ∈ ts, t.isSpace = true →
    ∀ c ∈ t.text.toList, c = ' ' ∨ c = '\t' ∨ c = '\x0b' ∨ c = '\x0c'
  /-- A linebreak is one line terminator. -/
  linebreakText : ∀ t ∈ ts, t.isLinebreak = true → t.text = "\n" ∨ t.text = "\r\n" ∨ t.text = "\r"
  /-- A carriage return that is a linebreak is not followed by a line feed that is another one. -/
  returns : ∀ before t u after, ts = before ++ t :: u :: after →
    ¬ (t = ⟨.linebreak, "\r"⟩ ∧ u = ⟨.linebreak, "\n"⟩)
  /-- No operator opens a comment. -/
  operators : ∀ t ∈ ts, t.kind = .operator →
    ¬ ['/', '/'] <:+: t.text.toList ∧ ¬ ['/', '*'] <:+: t.text.toList
  /-- A line comment stays on its line. -/
  lineComments : ∀ t ∈ ts, t.kind = .comment → ['/', '/'] <+: t.text.toList →
    '\r' ∉ t.text.toList ∧ '\n' ∉ t.text.toList
  /-- A line comment is followed by a linebreak, by an error without a text, or by nothing. -/
  afterLineComments : ∀ before t after, ts = before ++ t :: after → t.kind = .comment →
    ['/', '/'] <+: t.text.toList → ∀ u ∈ after.head?, u.isLinebreak = true ∨ u = ⟨.error, ""⟩
  /-- A closing bracket closes the innermost scope that is open before it, and belongs to the
  bracket that opened it. -/
  closing : ∀ before c after, ts = before ++ c :: after → c.kind = .endOfScope →
    ∃ front o, Innermost before front o ∧ Pair o c
  /-- If there is no error, every opening bracket is closed, by the bracket that belongs to it. -/
  closed : (∀ t ∈ ts, t.isError = false) → ∀ before o after, ts = before ++ o :: after →
    o.kind = .startOfScope → ∃ inner c rest, after = inner ++ c :: rest ∧ Balanced inner ∧ Pair o c

/-- **The tokens of a text are well formed**, for every text. -/
theorem wellFormed_scan (s : String) : WellFormed (scan s) := by
  refine ⟨fun before t u after h => (apart_of_scan h).1, ?spaceText, ?linebreakText,
    fun before t u after h => (apart_of_scan h).2, ?operators, ?lineComments, ?afterLineComments,
    fun before c after h => exists_innermost_of_scan h,
    fun hs before o after h ho => (balanced_scan hs).exists_pair h ho⟩
  case spaceText =>
    intro t ht hspace c hc
    have hkind : t.kind = .space := by simpa [isSpace] using hspace
    obtain ⟨before, after, h⟩ := List.append_of_mem ht
    obtain ⟨d, rest, n, inner, hform, htext, -⟩ := exists_form h (by simp [hkind])
    rw [hkind] at hform
    rw [htext, String.toList_ofList] at hc
    exact isSpaceChar_iff.1 (isSpaceChar_of_form hform c hc)
  case linebreakText =>
    intro t ht hbreak
    have hkind : t.kind = .linebreak := by simpa [isLinebreak] using hbreak
    obtain ⟨before, after, h⟩ := List.append_of_mem ht
    obtain ⟨d, rest, n, inner, hform, htext, -⟩ := exists_form h (by simp [hkind])
    rw [hkind] at hform
    rw [htext]
    exact (text_of_form_linebreak hform).imp_right (Or.imp_right And.left)
  case operators =>
    intro t ht hkind
    obtain ⟨before, after, h⟩ := List.append_of_mem ht
    obtain ⟨d, rest, n, inner, hform, htext, -⟩ := exists_form h (by simp [hkind])
    rw [hkind] at hform
    rw [htext, String.toList_ofList]
    cases hform with
    | name _ hkind => exact absurd hkind (by simp)
    | operator _ hslash =>
      have hchain := isChain_operator hslash
      constructor <;>
      · rintro ⟨front, back, heq⟩
        rw [← heq] at hchain
        simpa using hchain.left_of_append.right_of_append
  case lineComments =>
    intro t ht hkind hslashes
    obtain ⟨before, after, h⟩ := List.append_of_mem ht
    obtain ⟨more, inner, htext, -⟩ := eq_lineComment h hkind hslashes
    have hall : ∀ c ∈ t.text.toList, isLineEnd c = false := by
      rw [htext, String.toList_ofList]
      refine List.forall_mem_cons.2 ⟨rfl, List.forall_mem_cons.2 ⟨rfl, fun c hc => ?_⟩⟩
      simpa using List.all_eq_true.1 List.all_takeWhile c hc
    exact ⟨fun hcr => absurd (hall _ hcr) (by decide), fun hlf => absurd (hall _ hlf) (by decide)⟩
  case afterLineComments =>
    intro before t after h hkind hslashes u hu
    obtain ⟨rest, rfl⟩ := List.head?_eq_some_iff.1 hu
    obtain ⟨more, inner, -, hnext⟩ := eq_lineComment h hkind hslashes
    exact cases_of_scanFrom_dropWhile hnext

end Token
end Restyle
