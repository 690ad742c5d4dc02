import Mathlib.Data.List.Chain
import Restyle.Proofs.Lexing.Extent

/-!
# Lists of tokens that can be read back

The tokens of a text join up to the text, and reading the text again gives the
same tokens.  After a rule has edited them this is no longer clear: two spaces
that have come to stand side by side are read as one, and a token that has lost
the blank behind it may be read together with the next.

`Legible scopes tokens` is the invariant.  It says that, with the given brackets
open, every code token of the list ends before the text of the tokens after it;
the blanks in between only have to be blanks.  An error token may stand at the
end, and nowhere else, for one of the three reasons that the lexer has for
making one.

* `legible_scanFrom`: what the lexer reads is legible.
* `code_scanFrom_chars`: reading a legible list again gives the same code.
* `scanFrom_chars_of_tidy`: if its blanks are `Tidy` too, so that no two of them
  are read as one, reading it again gives the same list.
* `scan_lossless`: the tokens of a text join up to it, none of them is empty but
  for an error, and an error stands at the end.
-/

namespace Restyle
namespace Token

/-! ## The characters of a list of tokens -/

/-- The characters of a list of tokens. -/
def chars (tokens : List Token) : List Char := tokens.flatMap (·.text.toList)

@[simp] theorem chars_nil : chars [] = [] := rfl

@[simp] theorem chars_cons (t : Token) (rest : List Token) :
    chars (t :: rest) = t.text.toList ++ chars rest := by simp [chars]

theorem toList_source (tokens : List Token) : (source tokens).toList = chars tokens := by
  induction tokens with
  | nil => rfl
  | cons t rest ih =>
    rw [chars_cons, ← ih]
    simp [source, String.join_cons]

theorem scan_source (tokens : List Token) : scan (source tokens) = scanFrom [] (chars tokens) := by
  rw [scan, toList_source]

@[simp] theorem code_nil : code [] = [] := rfl

theorem code_cons_of_isCode {t : Token} (h : t.isCode = true) (rest : List Token) :
    code (t :: rest) = t :: code rest := by simp [code, h]

theorem code_cons_of_isLayout {t : Token} (h : t.isLayout = true) (rest : List Token) :
    code (t :: rest) = code rest := by simp [code, isCode, h]

/-! ## Layout tokens -/

/-- A layout token with a text that the lexer could have given it. -/
inductive IsBlank : Token → Prop
  /-- A run of blanks. -/
  | space {c : Char} {more : List Char} (h : ∀ d ∈ c :: more, isSpaceChar d = true) :
      IsBlank ⟨.space, String.ofList (c :: more)⟩
  /-- A line terminator. -/
  | linebreak {text : String} (h : text = "\n" ∨ text = "\r\n" ∨ text = "\r") :
      IsBlank ⟨.linebreak, text⟩

theorem IsBlank.isLayout {t : Token} (h : IsBlank t) : t.isLayout = true := by
  cases h <;> rfl

theorem IsBlank.kind {t : Token} (h : IsBlank t) : t.kind = .space ∨ t.kind = .linebreak := by
  cases h
  · exact Or.inl rfl
  · exact Or.inr rfl

theorem isBlank_oneSpace : IsBlank oneSpace := @IsBlank.space ' ' [] (List.all_eq_true.1 rfl)

/-- The text of a blank is not empty and consists of layout characters; a
linebreak starts with a line end and a space does not. -/
theorem IsBlank.exists_text {t : Token} (h : IsBlank t) :
    ∃ c more, t.text.toList = c :: more ∧ (∀ d ∈ c :: more, isLayoutChar d = true) ∧
      (isLineEnd c = t.isLinebreak) ∧ (isSpaceChar c = t.isSpace) := by
  cases h with
  | @space c more h =>
    refine ⟨c, more, by simp, fun d hd => by simp [isLayoutChar, h d hd], ?_,
      h c List.mem_cons_self⟩
    rcases isSpaceChar_iff.1 (h c List.mem_cons_self) with rfl | rfl | rfl | rfl <;> rfl
  | linebreak h =>
    rcases h with rfl | rfl | rfl
    · exact ⟨'\n', [], by decide, List.all_eq_true.1 rfl, rfl, rfl⟩
    · exact ⟨'\r', ['\n'], by decide, List.all_eq_true.1 rfl, rfl, rfl⟩
    · exact ⟨'\r', [], by decide, List.all_eq_true.1 rfl, rfl, rfl⟩

/-! ## What the lexer does with layout characters -/

theorem lexeme_of_isSpaceChar {c : Char} (h : isSpaceChar c = true) (rest : List Char) :
    lexeme c rest = .complete .space (run isSpaceChar rest) := by
  unfold lexeme
  rw [if_pos h]

theorem lexeme_lf (rest : List Char) : lexeme '\n' rest = .complete .linebreak 0 := by
  unfold lexeme
  rw [if_neg (by decide), if_pos rfl]

theorem lexeme_cr (rest : List Char) :
    lexeme '\r' rest = .complete .linebreak (if rest.head? = some '\n' then 1 else 0) := by
  unfold lexeme
  rw [if_neg (by decide), if_neg (by decide), if_pos rfl]

/-- The length of a token is within the text, whatever it starts with. -/
theorem le_length_of_lexeme {c : Char} {rest : List Char} {kind : Kind} {n : Nat}
    (h : lexeme c rest = .complete kind n) : n ≤ rest.length := by
  cases hc : isLayoutChar c with
  | false =>
    have hfits := fits_lexeme hc rest
    rw [h] at hfits
    exact hfits.2.2.2
  | true =>
    rw [isLayoutChar, Bool.or_eq_true, isLineEnd_iff] at hc
    rcases hc with hc | rfl | rfl
    · rw [lexeme_of_isSpaceChar hc] at h
      obtain ⟨-, rfl⟩ := Lexeme.complete.inj h
      exact run_le_length _ _
    · rw [lexeme_lf] at h
      obtain ⟨-, rfl⟩ := Lexeme.complete.inj h
      exact Nat.zero_le _
    · rw [lexeme_cr] at h
      obtain ⟨-, rfl⟩ := Lexeme.complete.inj h
      cases rest with
      | nil => simp
      | cons d rest => split <;> simp

/-- What starts with a layout character is a blank. -/
theorem isBlank_of_lexeme {c : Char} {rest : List Char} {kind : Kind} {n : Nat}
    (hc : isLayoutChar c = true) (h : lexeme c rest = .complete kind n) :
    IsBlank ⟨kind, String.ofList (c :: rest.take n)⟩ := by
  rw [isLayoutChar, Bool.or_eq_true, isLineEnd_iff] at hc
  rcases hc with hc | rfl | rfl
  · rw [lexeme_of_isSpaceChar hc] at h
    obtain ⟨rfl, rfl⟩ := Lexeme.complete.inj h
    refine .space fun d hd => ?_
    rcases List.mem_cons.1 hd with rfl | hd
    · exact hc
    · rw [run, ← List.prefix_iff_eq_take.1 (List.takeWhile_prefix _)] at hd
      exact List.all_eq_true.1 List.all_takeWhile d hd
  · rw [lexeme_lf] at h
    obtain ⟨rfl, rfl⟩ := Lexeme.complete.inj h
    exact .linebreak (Or.inl rfl)
  · rw [lexeme_cr] at h
    obtain ⟨rfl, rfl⟩ := Lexeme.complete.inj h
    split
    · rename_i hlf
      obtain ⟨tail, rfl⟩ : ∃ tail, rest = '\n' :: tail := by
        cases rest with
        | nil => simp at hlf
        | cons d tail => exact ⟨tail, by simpa using hlf⟩
      exact .linebreak (Or.inr (Or.inl rfl))
    · exact .linebreak (Or.inr (Or.inr rfl))

theorem scopesAfter?_of_isLayout {kind : Kind} (h : kind = .space ∨ kind = .linebreak) (c : Char)
    (scopes : List Char) : scopesAfter? kind c scopes = some scopes := by
  rcases h with rfl | rfl <;> rfl

/-- The driver, one complete token at a time. -/
theorem scanFrom_cons_of_complete {scopes inner : List Char} {kind : Kind} {c : Char}
    {rest : List Char} {n : Nat} (h : lexeme c rest = .complete kind n)
    (hs : scopesAfter? kind c scopes = some inner) :
    scanFrom scopes (c :: rest) =
      ⟨kind, String.ofList (c :: rest.take n)⟩ :: scanFrom inner (rest.drop n) := by
  rw [scanFrom]
  simp only [h, hs]

/-- **A layout character in front adds no code.**  It starts a blank, or it
makes the blank that follows longer. -/
theorem code_scanFrom_cons_layout {c : Char} (hc : isLayoutChar c = true) (scopes cs : List Char) :
    code (scanFrom scopes (c :: cs)) = code (scanFrom scopes cs) := by
  rw [isLayoutChar, Bool.or_eq_true, isLineEnd_iff] at hc
  rcases hc with hc | rfl | rfl
  · rw [scanFrom_cons_of_complete (lexeme_of_isSpaceChar hc cs) rfl, code_cons_of_isLayout rfl]
    cases cs with
    | nil => simp [run]
    | cons d cs =>
      cases hd : isSpaceChar d with
      | false => simp [run, hd]
      | true =>
        rw [scanFrom_cons_of_complete (lexeme_of_isSpaceChar hd cs) rfl,
          code_cons_of_isLayout rfl]
        simp [run, hd]
  · rw [scanFrom_cons_of_complete (lexeme_lf cs) rfl, code_cons_of_isLayout rfl, List.drop_zero]
  · rw [scanFrom_cons_of_complete (lexeme_cr cs) rfl, code_cons_of_isLayout rfl]
    split
    · rename_i hlf
      obtain ⟨tail, rfl⟩ : ∃ tail, cs = '\n' :: tail := by
        cases cs with
        | nil => simp at hlf
        | cons d tail => exact ⟨tail, by simpa using hlf⟩
      rw [scanFrom_cons_of_complete (lexeme_lf tail) rfl, code_cons_of_isLayout rfl]
      rfl
    · rw [List.drop_zero]

theorem code_scanFrom_append_layout {ws : List Char} (h : ∀ c ∈ ws, isLayoutChar c = true)
    (scopes cs : List Char) : code (scanFrom scopes (ws ++ cs)) = code (scanFrom scopes cs) := by
  induction ws with
  | nil => rfl
  | cons c ws ih =>
    rw [List.cons_append, code_scanFrom_cons_layout (h c List.mem_cons_self),
      ih fun d hd => h d (List.mem_cons_of_mem _ hd)]

/-! ## The invariant -/

/-- With the brackets `scopes` open, the tokens can be read back from their
text. -/
inductive Legible : List Char → List Token → Prop
  /-- The end of a text in which every bracket is closed. -/
  | done : Legible [] []
  /-- A blank. -/
  | blank {scopes : List Char} {t : Token} {rest : List Token} (hblank : IsBlank t)
      (hrest : Legible scopes rest) : Legible scopes (t :: rest)
  /-- A code token, which ends before the text that follows. -/
  | code {scopes inner : List Char} {kind : Kind} {c : Char} {more : List Char}
      {rest : List Token} (hlayout : isLayoutChar c = false)
      (hlex : lexeme c (more ++ chars rest) = .complete kind more.length)
      (hscopes : scopesAfter? kind c scopes = some inner) (hrest : Legible inner rest) :
      Legible scopes (⟨kind, String.ofList (c :: more)⟩ :: rest)
  /-- A comment or a string that is not closed before the text ends. -/
  | unfinished {scopes : List Char} {kind : Kind} {c : Char} {more : List Char}
      (hlayout : isLayoutChar c = false) (hlex : lexeme c more = .unfinished kind) :
      Legible scopes [⟨kind, String.ofList (c :: more)⟩, ⟨.error, ""⟩]
  /-- A rest that starts with something unexpected. -/
  | unexpected {scopes : List Char} {c : Char} {more : List Char}
      (hlayout : isLayoutChar c = false) (hlex : lexeme c more = .unexpected) :
      Legible scopes [⟨.error, String.ofList (c :: more)⟩]
  /-- A rest that starts with a closing bracket for none of the open ones. -/
  | unmatched {scopes : List Char} {kind : Kind} {c : Char} {more : List Char} {n : Nat}
      (hlayout : isLayoutChar c = false) (hlex : lexeme c more = .complete kind n)
      (hscopes : scopesAfter? kind c scopes = none) :
      Legible scopes [⟨.error, String.ofList (c :: more)⟩]
  /-- The end of a text in which a bracket is still open. -/
  | unclosed {c : Char} {scopes : List Char} : Legible (c :: scopes) [⟨.error, ""⟩]

/-- **Reading loses nothing.**  The tokens of a text join up to the text. -/
theorem chars_scanFrom (scopes cs : List Char) : chars (scanFrom scopes cs) = cs := by
  fun_induction scanFrom scopes cs with
  | case1 scopes hempty => rfl
  | case2 scopes hempty => rfl
  | case3 scopes c rest hlex => simp
  | case4 scopes c rest kind hlex => simp
  | case5 scopes c rest kind more hlex hscopes => simp
  | case6 scopes c rest kind more hlex inner hscopes ih =>
    rw [chars_cons, ih]
    simp

/-- What is not a complete token starts with a character that is not layout. -/
theorem isLayoutChar_eq_false_of_lexeme {c : Char} (rest : List Char)
    (h : ∀ kind n, (kind = .space ∨ kind = .linebreak) → lexeme c rest ≠ .complete kind n) :
    isLayoutChar c = false := by
  by_contra hc
  rw [Bool.not_eq_false, isLayoutChar, Bool.or_eq_true, isLineEnd_iff] at hc
  rcases hc with hc | rfl | rfl
  · exact h _ _ (Or.inl rfl) (lexeme_of_isSpaceChar hc rest)
  · exact h _ _ (Or.inr rfl) (lexeme_lf rest)
  · exact h _ _ (Or.inr rfl) (lexeme_cr rest)

/-- **What the lexer reads is legible.** -/
theorem legible_scanFrom (scopes cs : List Char) : Legible scopes (scanFrom scopes cs) := by
  fun_induction scanFrom scopes cs with
  | case1 scopes hempty =>
    obtain rfl : scopes = [] := by simpa using hempty
    exact .done
  | case2 scopes hempty =>
    cases scopes with
    | nil => simp at hempty
    | cons c scopes => exact .unclosed
  | case3 scopes c rest hlex =>
    exact .unexpected (isLayoutChar_eq_false_of_lexeme rest (by simp [hlex])) hlex
  | case4 scopes c rest kind hlex =>
    exact .unfinished (isLayoutChar_eq_false_of_lexeme rest (by simp [hlex])) hlex
  | case5 scopes c rest kind more hlex hscopes =>
    refine .unmatched (isLayoutChar_eq_false_of_lexeme rest ?_) hlex hscopes
    rintro kind' n hkind' heq
    obtain ⟨rfl, -⟩ := Lexeme.complete.inj (hlex.symm.trans heq)
    rw [scopesAfter?_of_isLayout hkind'] at hscopes
    exact absurd hscopes (by simp)
  | case6 scopes c rest kind more hlex inner hscopes ih =>
    cases hc : isLayoutChar c with
    | true =>
      have hblank := isBlank_of_lexeme hc hlex
      have hkind : kind = .space ∨ kind = .linebreak := hblank.kind
      obtain rfl : scopes = inner := by
        rw [scopesAfter?_of_isLayout hkind] at hscopes
        exact Option.some.inj hscopes
      exact .blank hblank ih
    | false =>
      refine .code hc ?_ hscopes ih
      rw [chars_scanFrom, List.take_append_drop, hlex,
        List.length_take_of_le (le_length_of_lexeme hlex)]

theorem legible_scan (source : String) : Legible [] (scan source) :=
  legible_scanFrom [] source.toList

/-! ## Reading back -/

/-- **A legible list is read back with the same code.** -/
theorem code_scanFrom_chars {scopes : List Char} {tokens : List Token}
    (h : Legible scopes tokens) : code (scanFrom scopes (chars tokens)) = code tokens := by
  induction h with
  | done => simp [scanFrom]
  | @blank scopes t rest hblank _ ih =>
    obtain ⟨c, more, htext, hchars, -, -⟩ := hblank.exists_text
    rw [chars_cons, htext, code_scanFrom_append_layout hchars, ih,
      code_cons_of_isLayout hblank.isLayout]
  | @code scopes inner kind c more rest hlayout hlex hscopes _ ih =>
    have hstep := scanFrom_cons_of_complete hlex hscopes
    rw [List.take_left', List.drop_left'] at hstep
    · rw [chars_cons, String.toList_ofList, List.cons_append, hstep]
      have hfits := fits_lexeme hlayout (more ++ chars rest)
      rw [hlex] at hfits
      have hcode : (⟨kind, String.ofList (c :: more)⟩ : Token).isCode = true := by
        simp [isCode, isLayout, isSpace, isLinebreak, hfits.1, hfits.2.1]
      rw [code_cons_of_isCode hcode, code_cons_of_isCode hcode, ih]
    · rfl
    · rfl
  | unfinished hlayout hlex => simp [scanFrom, hlex]
  | unexpected hlayout hlex => simp [scanFrom, hlex]
  | unmatched hlayout hlex hscopes => simp [scanFrom, hlex, hscopes]
  | unclosed => simp [scanFrom]

/-- Two tokens that are not read as one blank when they stand side by side. -/
def Apart (t u : Token) : Prop :=
  ¬ (t.isSpace = true ∧ u.isSpace = true) ∧ ¬ (t = ⟨.linebreak, "\r"⟩ ∧ u = ⟨.linebreak, "\n"⟩)

/-- No two neighbours are read as one blank. -/
def Tidy (tokens : List Token) : Prop := tokens.IsChain Apart

/-- The first character of a legible list tells whether it starts with a space,
and a line feed stands in front only as a linebreak. -/
theorem Legible.head {scopes : List Char} {u : Token} {rest : List Token}
    (h : Legible scopes (u :: rest)) {c : Char} (hc : c ∈ (chars (u :: rest)).head?) :
    (isSpaceChar c = true → u.isSpace = true) ∧ (c = '\n' → u = ⟨.linebreak, "\n"⟩) := by
  -- a character that is not layout is neither a space nor a line feed
  have hcode : ∀ {d : Char}, isLayoutChar d = false → c = d →
      (isSpaceChar c = true → u.isSpace = true) ∧ (c = '\n' → u = ⟨.linebreak, "\n"⟩) := by
    rintro d hd rfl
    simp only [isLayoutChar, Bool.or_eq_false_iff] at hd
    refine ⟨fun hs => absurd hs (by simp [hd.1]), ?_⟩
    rintro rfl
    exact absurd hd.2 (by decide)
  cases h with
  | blank hblank _ =>
    cases hblank with
    | @space d more hd =>
      obtain rfl : d = c := by simpa using hc
      refine ⟨fun _ => rfl, ?_⟩
      rintro rfl
      exact absurd (hd '\n' List.mem_cons_self) (by decide)
    | linebreak htext =>
      rcases htext with rfl | rfl | rfl
      · obtain rfl : '\n' = c := by simpa using hc
        exact ⟨by decide, fun _ => rfl⟩
      · obtain rfl : '\r' = c := by simpa using hc
        exact ⟨by decide, by decide⟩
      · obtain rfl : '\r' = c := by simpa using hc
        exact ⟨by decide, by decide⟩
  | code hlayout _ _ _ => exact hcode hlayout (by simpa [eq_comm] using hc)
  | unfinished hlayout _ => exact hcode hlayout (by simpa [eq_comm] using hc)
  | unexpected hlayout _ => exact hcode hlayout (by simpa [eq_comm] using hc)
  | unmatched hlayout _ _ => exact hcode hlayout (by simpa [eq_comm] using hc)
  | unclosed => simp at hc

/-- A blank is read as itself if the text after it does not make it longer. -/
theorem scanFrom_blank {t : Token} (h : IsBlank t) (scopes : List Char) {tail : List Char}
    (hspace : t.isSpace = true → ∀ c ∈ tail.head?, isSpaceChar c = false)
    (hcr : t = ⟨.linebreak, "\r"⟩ → tail.head? ≠ some '\n') :
    scanFrom scopes (t.text.toList ++ tail) = t :: scanFrom scopes tail := by
  cases h with
  | @space c more hall =>
    have hrun : run isSpaceChar (more ++ tail) = more.length :=
      run_append_eq_length_iff.2
        ⟨fun x hx => hall x (List.mem_cons_of_mem _ hx), hspace rfl⟩
    have hlex := lexeme_of_isSpaceChar (hall c List.mem_cons_self) (more ++ tail)
    rw [hrun] at hlex
    rw [String.toList_ofList, List.cons_append, scanFrom_cons_of_complete hlex rfl,
      List.take_left' rfl, List.drop_left' rfl]
  | linebreak htext =>
    rcases htext with rfl | rfl | rfl
    · exact scanFrom_cons_of_complete (lexeme_lf tail) rfl
    · exact scanFrom_cons_of_complete (lexeme_cr ('\n' :: tail)) rfl
    · have hlex := lexeme_cr tail
      rw [if_neg (hcr rfl)] at hlex
      exact scanFrom_cons_of_complete hlex rfl

/-- **A legible and tidy list is read back as it is.** -/
theorem scanFrom_chars_of_tidy {scopes : List Char} {tokens : List Token}
    (h : Legible scopes tokens) (htidy : Tidy tokens) :
    scanFrom scopes (chars tokens) = tokens := by
  induction h with
  | done => simp [scanFrom]
  | @blank scopes t rest hblank hrest ih =>
    rw [Tidy, List.isChain_cons] at htidy
    have hhead : ∀ c ∈ (chars rest).head?, ∃ u ∈ rest.head?,
        (isSpaceChar c = true → u.isSpace = true) ∧ (c = '\n' → u = ⟨.linebreak, "\n"⟩) := by
      intro c hc
      cases rest with
      | nil => simp at hc
      | cons u rest => exact ⟨u, rfl, hrest.head hc⟩
    rw [chars_cons, scanFrom_blank hblank, ih htidy.2]
    · intro hspace c hc
      obtain ⟨u, hu, hu1, -⟩ := hhead c hc
      by_contra hcs
      exact (htidy.1 u hu).1 ⟨hspace, hu1 (by simpa using hcs)⟩
    · intro hcr hlf
      obtain ⟨u, hu, -, hu2⟩ := hhead '\n' hlf
      exact (htidy.1 u hu).2 ⟨hcr, hu2 rfl⟩
  | @code scopes inner kind c more rest hlayout hlex hscopes _ ih =>
    rw [Tidy, List.isChain_cons] at htidy
    rw [chars_cons, String.toList_ofList, List.cons_append, scanFrom_cons_of_complete hlex hscopes,
      List.take_left' rfl, List.drop_left' rfl, ih htidy.2]
  | unfinished hlayout hlex => simp [scanFrom, hlex]
  | unexpected hlayout hlex => simp [scanFrom, hlex]
  | unmatched hlayout hlex hscopes => simp [scanFrom, hlex, hscopes]
  | unclosed => simp [scanFrom]

/-! ## Nothing lost, nothing empty, one error -/

theorem text_ofList_cons_ne_empty (c : Char) (more : List Char) :
    String.ofList (c :: more) ≠ "" := by
  intro h
  simpa using congrArg String.toList h

/-- Of the tokens of a legible list, only an error can be empty, and only the last one
can be an error. -/
theorem Legible.error_last {scopes : List Char} {tokens : List Token} (h : Legible scopes tokens) :
    (∀ t ∈ tokens, t.text = "" → t.isError = true) ∧ ∀ t ∈ tokens.dropLast, t.isError = false := by
  -- one more token in front, which is not an error and has a text
  have hcons : ∀ {t : Token} {rest : List Token}, t.isError = false → t.text ≠ "" →
      ((∀ u ∈ rest, u.text = "" → u.isError = true) ∧ ∀ u ∈ rest.dropLast, u.isError = false) →
      (∀ u ∈ t :: rest, u.text = "" → u.isError = true) ∧
        ∀ u ∈ (t :: rest).dropLast, u.isError = false := by
    rintro t rest herror htext ⟨hrest, hlast⟩
    refine ⟨fun u hu hempty => ?_, fun u hu => ?_⟩
    · rcases List.mem_cons.1 hu with rfl | hu
      · exact absurd hempty htext
      · exact hrest u hu hempty
    · cases rest with
      | nil => simp at hu
      | cons v rest =>
        rw [List.dropLast_cons_cons] at hu
        rcases List.mem_cons.1 hu with rfl | hu
        · exact herror
        · exact hlast u hu
  induction h with
  | done => simp
  | @blank scopes t rest hblank _ ih =>
    obtain ⟨c, more, htext, -, -, -⟩ := hblank.exists_text
    refine hcons ?_ (fun hempty => by simp [hempty] at htext) ih
    rcases hblank.kind with hkind | hkind <;> simp [isError, hkind]
  | @code scopes inner kind c more rest hlayout hlex _ _ ih =>
    have hfits := fits_lexeme hlayout (more ++ chars rest)
    rw [hlex] at hfits
    exact hcons (by simpa [isError] using hfits.2.2.1) (text_ofList_cons_ne_empty c more) ih
  | @unfinished scopes kind c more hlayout hlex =>
    have hfits := fits_lexeme hlayout more
    rw [hlex] at hfits
    refine hcons ?_ (text_ofList_cons_ne_empty c more) (by simp [isError])
    rcases hfits with rfl | rfl <;> rfl
  | unexpected => simp [isError]
  | unmatched => simp [isError]
  | unclosed => simp [isError]

/-- **Reading is lossless.**  For every text: its tokens join up to the text; a token
without a text is an error; and no token but the last one is an error. -/
theorem scan_lossless (s : String) :
    source (scan s) = s ∧ (∀ t ∈ scan s, t.text = "" → t.isError = true) ∧
      ∀ t ∈ (scan s).dropLast, t.isError = false := by
  refine ⟨?_, (legible_scan s).error_last⟩
  apply String.toList_injective
  rw [toList_source, scan, chars_scanFrom]

end Token
end Restyle
