import Restyle.Proofs.Lexing.Legible
import Restyle.Rule.Semicolons
import Restyle.Rule.Spacing

/-!
# Laying a text out anew

A rule of the formatter inserts blanks, removes blanks and changes the text of
blanks.  It may do so only where the code around them is still read in the same
way, and where that is depends on what stands next to the blank.

`Relaid semis p xs ys` says that `ys` comes from `xs` by such edits alone, where
`p` is the token that was written last.  It is a walk over both lists, and its
side conditions are the whole of what a rule has to respect:

* a blank may be inserted after anything that ends by itself, before an operator,
  or as a linebreak at the very end (`MayInsert`);
* a blank may be removed at the start of a line, inside an opening bracket, or
  where a comma, a closing bracket or another blank comes next (`MayDrop`);
* if `semis` is set, a semicolon may be removed in front of a blank or at the end
  of the text.

The main result is `Relaid.legible`: laying out anew keeps a list legible.  It is
proved together with the fact that the token before the list still ends where it
ended (`Relaid.Reads`), with one lemma for each sort of edit.  With `Relaid.thinned`,
which says what happens to the code, it reduces "the rules change only layout" to
one walk for each rule.
-/

namespace Restyle
namespace Token

/-! ## Deleting tokens of one sort -/

/-- The second list comes from the first by deleting tokens that satisfy `p`, and
nothing else. -/
inductive Thinned (p : Token → Bool) : List Token → List Token → Prop
  /-- Nothing to delete. -/
  | nil : Thinned p [] []
  /-- A token that stays. -/
  | keep {t : Token} {xs ys : List Token} (h : Thinned p xs ys) : Thinned p (t :: xs) (t :: ys)
  /-- A token that goes. -/
  | drop {t : Token} {xs ys : List Token} (ht : p t = true) (h : Thinned p xs ys) :
      Thinned p (t :: xs) ys

namespace Thinned

variable {p : Token → Bool} {xs ys zs : List Token}

theorem refl (p : Token → Bool) (xs : List Token) : Thinned p xs xs := by
  induction xs with
  | nil => exact .nil
  | cons t xs ih => exact .keep ih

theorem trans (hxy : Thinned p xs ys) (hyz : Thinned p ys zs) : Thinned p xs zs := by
  induction hxy generalizing zs with
  | nil => exact hyz
  | keep _ ih =>
    cases hyz with
    | keep hyz => exact .keep (ih hyz)
    | drop ht hyz => exact .drop ht (ih hyz)
  | drop ht _ ih => exact .drop ht (ih hyz)

theorem subset (h : Thinned p xs ys) : ys ⊆ xs := by
  induction h with
  | nil => exact List.Subset.refl _
  | keep _ ih => exact List.cons_subset_cons _ ih
  | drop _ _ ih => exact List.subset_cons_of_subset _ ih

/-- If nothing may go, everything stays. -/
theorem eq_of_none (h : Thinned p xs ys) (hp : ∀ t, p t = false) : ys = xs := by
  induction h with
  | nil => rfl
  | keep _ ih => rw [ih]
  | @drop t _ _ ht _ _ =>
    rw [hp t] at ht
    exact absurd ht (by decide)

end Thinned

/-! ## Where blanks may come and go -/

theorem kind_of_isDelimiter {mark : String} {t : Token} (h : t.isDelimiter mark = true) :
    t.kind = .delimiter := by
  simp only [isDelimiter, Bool.and_eq_true, beq_iff_eq] at h
  exact h.1

/-- Whether a token of this kind ends by itself or is ended by any blank. -/
def endsAtBlank : Kind → Bool
  | .operator | .delimiter | .identifier | .keyword | .startOfScope | .endOfScope => true
  | _ => false

/-- Where the blank `b` may be inserted: `p` is the token before it and `xs` is
what follows. -/
inductive MayInsert (b : Token) : Option Token → List Token → Prop
  /-- At the start of the text. -/
  | start {xs : List Token} : MayInsert b none xs
  /-- After another blank. -/
  | blank {p : Token} {xs : List Token} (h : p.isLayout = true) : MayInsert b (some p) xs
  /-- After a token that a blank ends. -/
  | after {p : Token} {xs : List Token} (h : endsAtBlank p.kind = true) : MayInsert b (some p) xs
  /-- Before an operator. -/
  | before {p u : Token} {xs : List Token} (h : u.kind = .operator) :
      MayInsert b (some p) (u :: xs)
  /-- After the last code token, as a linebreak. -/
  | final {p : Token} {xs : List Token} (hb : b.isLinebreak = true) (hp : p.isError = false)
      (hxs : ∀ x ∈ xs, x.isLayout = true) : MayInsert b (some p) xs

/-- A token that needs no blank before it: a blank itself, a comma, or a closing
round or square bracket. -/
def isSoft (t : Token) : Bool :=
  t.isLayout || Spacing.isComma t || Spacing.isClosingBracket t

/-- Where the blank `b` may be removed: `p` is the token before it and `ys` is
what is written after it. -/
inductive MayDrop (b : Token) : Option Token → List Token → Prop
  /-- At the start of the text. -/
  | start {ys : List Token} : MayDrop b none ys
  /-- After another blank. -/
  | blank {p : Token} {ys : List Token} (h : p.isLayout = true) : MayDrop b (some p) ys
  /-- After an opening bracket. -/
  | opened {p : Token} {ys : List Token} (h : p.kind = .startOfScope) : MayDrop b (some p) ys
  /-- A space before a token that needs none, or at the end of the text. -/
  | soft {p : Token} {ys : List Token} (hb : b.isSpace = true)
      (h : ∀ t ∈ ys.head?, isSoft t = true) : MayDrop b (some p) ys

/-- The list `ys` comes from `xs` by changes of layout, where `p` is the last
token before it.  If `semis` is set, semicolons that end a line may be missing
too. -/
inductive Relaid (semis : Bool) : Option Token → List Token → List Token → Prop
  /-- Nothing is left. -/
  | nil {p : Option Token} : Relaid semis p [] []
  /-- The same token. -/
  | keep {p : Option Token} {t : Token} {xs ys : List Token} (h : Relaid semis (some t) xs ys) :
      Relaid semis p (t :: xs) (t :: ys)
  /-- A blank of the same kind with another text. -/
  | swap {p : Option Token} {b b' : Token} {xs ys : List Token} (hkind : b'.kind = b.kind)
      (hb' : IsBlank b') (h : Relaid semis (some b') xs ys) : Relaid semis p (b :: xs) (b' :: ys)
  /-- A blank more. -/
  | insert {p : Option Token} {b : Token} {xs ys : List Token} (hb : IsBlank b)
      (hp : MayInsert b p xs) (h : Relaid semis (some b) xs ys) : Relaid semis p xs (b :: ys)
  /-- A blank less. -/
  | drop {p : Option Token} {b : Token} {xs ys : List Token} (hb : b.isLayout = true)
      (hp : MayDrop b p ys) (h : Relaid semis p xs ys) : Relaid semis p (b :: xs) ys
  /-- A semicolon less. -/
  | unterminate {p : Option Token} {t : Token} {xs ys : List Token} (hsemis : semis = true)
      (ht : Semicolons.isSemicolon t = true) (hys : ∀ u ∈ ys.head?, u.isLayout = true)
      (h : Relaid semis p xs ys) : Relaid semis p (t :: xs) ys

namespace Relaid

variable {semis : Bool} {p : Option Token} {xs ys : List Token}

theorem refl (semis : Bool) (p : Option Token) (xs : List Token) : Relaid semis p xs xs := by
  induction xs generalizing p with
  | nil => exact .nil
  | cons t xs ih => exact .keep (ih (some t))

/-! ### What happens to the code -/

theorem isLayout_eq_of_kind {b b' : Token} (h : b'.kind = b.kind) :
    b'.isLayout = b.isLayout := by simp [isLayout, isSpace, isLinebreak, h]

theorem isCode_of_isSemicolon {t : Token} (h : Semicolons.isSemicolon t = true) :
    t.isCode = true := by
  simp [isCode, isLayout, isSpace, isLinebreak, kind_of_isDelimiter h]

/-- The code of a list that is laid out anew has lost semicolons at most, and
these only where they may go. -/
theorem thinned (h : Relaid semis p xs ys) :
    Thinned (fun t => semis && Semicolons.isSemicolon t) (code xs) (code ys) := by
  induction h with
  | nil => exact .nil
  | @keep p t xs ys _ ih =>
    cases ht : t.isLayout with
    | true => rwa [code_cons_of_isLayout ht, code_cons_of_isLayout ht]
    | false =>
      have hcode : t.isCode = true := by simp [isCode, ht]
      rw [code_cons_of_isCode hcode, code_cons_of_isCode hcode]
      exact .keep ih
  | @swap p b b' xs ys hkind hb' _ ih =>
    have hb : b.isLayout = true := by rw [← isLayout_eq_of_kind hkind]; exact hb'.isLayout
    rwa [code_cons_of_isLayout hb, code_cons_of_isLayout hb'.isLayout]
  | insert hb _ _ ih => rwa [code_cons_of_isLayout hb.isLayout]
  | drop hb _ _ ih => rwa [code_cons_of_isLayout hb]
  | unterminate hsemis ht _ _ ih =>
    rw [code_cons_of_isCode (isCode_of_isSemicolon ht)]
    exact .drop (by rw [hsemis, ht]; rfl) ih

/-! ### Reading the result -/

/-- Nothing is inserted between an unfinished token and the error after it, and
nothing after an error. -/
theorem eq_nil_of_error {t : Token} (ht : t.isError = true) (h : Relaid semis (some t) [] ys) :
    ys = [] := by
  cases h with
  | nil => rfl
  | insert _ hp _ =>
    have hkind : t.kind = .error := by simpa [isError] using ht
    cases hp with
    | blank h => simp [isLayout, isSpace, isLinebreak, hkind] at h
    | after h => simp [endsAtBlank, hkind] at h
    | final _ h _ => rw [ht] at h; exact absurd h (by decide)

theorem eq_of_unfinished {t : Token} (ht : t.kind = .comment ∨ t.kind = .stringLiteral)
    (h : Relaid semis (some t) [⟨.error, ""⟩] ys) : ys = [⟨.error, ""⟩] := by
  cases h with
  | keep h => rw [eq_nil_of_error rfl h]
  | swap hkind hb' _ =>
    have := hb'.kind
    rw [hkind] at this
    simp at this
  | insert _ hp _ =>
    exfalso
    cases hp with
    | blank h => rcases ht with ht | ht <;> simp [isLayout, isSpace, isLinebreak, ht] at h
    | after h => rcases ht with ht | ht <;> simp [endsAtBlank, ht] at h
    | before h => simp at h
    | final _ _ h => exact absurd (h ⟨.error, ""⟩ List.mem_cons_self) (by decide)
  | drop hb _ _ => simp [isLayout, isSpace, isLinebreak] at hb
  | unterminate _ ht _ _ => simp [Semicolons.isSemicolon, isDelimiter] at ht

end Relaid

/-- A layout token of a legible list is a blank. -/
theorem Legible.isBlank_head {scopes : List Char} {t : Token} {rest : List Token}
    (h : Legible scopes (t :: rest)) (ht : t.isLayout = true) :
    IsBlank t ∧ Legible scopes rest := by
  cases h with
  | blank hblank hrest => exact ⟨hblank, hrest⟩
  | @code _ _ kind c more _ hlayout hlex _ _ =>
    have hfits := fits_lexeme hlayout (more ++ chars rest)
    rw [hlex] at hfits
    simp [isLayout, isSpace, isLinebreak, hfits.1, hfits.2.1] at ht
  | @unfinished _ kind c more hlayout hlex =>
    have hfits := fits_lexeme hlayout more
    rw [hlex] at hfits
    rcases hfits with rfl | rfl <;> simp [isLayout, isSpace, isLinebreak] at ht
  | unexpected => simp [isLayout, isSpace, isLinebreak] at ht
  | unmatched => simp [isLayout, isSpace, isLinebreak] at ht
  | unclosed => simp [isLayout, isSpace, isLinebreak] at ht

theorem Legible.isBlank_of_mem {scopes : List Char} {tokens : List Token}
    (h : Legible scopes tokens) {b : Token} (hb : b ∈ tokens) (hlayout : b.isLayout = true) :
    IsBlank b := by
  have herror : ∀ text, (⟨.error, text⟩ : Token).isLayout ≠ true := by
    simp [isLayout, isSpace, isLinebreak]
  induction h with
  | done => simp at hb
  | blank hblank _ ih =>
    rcases List.mem_cons.1 hb with rfl | hb
    · exact hblank
    · exact ih hb
  | code hcode hlex hscopes hrest ih =>
    rcases List.mem_cons.1 hb with rfl | hb
    · exact ((Legible.code hcode hlex hscopes hrest).isBlank_head hlayout).1
    · exact ih hb
  | @unfinished scopes _ _ _ hcode hlex =>
    rcases List.mem_cons.1 hb with rfl | hb
    · exact ((@Legible.unfinished scopes _ _ _ hcode hlex).isBlank_head hlayout).1
    · obtain rfl := List.mem_singleton.1 hb
      exact absurd hlayout (herror _)
  | unexpected | unmatched | unclosed =>
    obtain rfl := List.mem_singleton.1 hb
    exact absurd hlayout (herror _)

namespace Relaid

variable {semis : Bool} {p : Option Token} {xs ys : List Token}

/-- The first character of a list that starts with a soft token, or of an empty
one. -/
theorem head_of_soft {scopes : List Char} (h : Legible scopes ys)
    (hsoft : ∀ t ∈ ys.head?, isSoft t = true) :
    chars ys = [] ∨
      ∃ c rest, chars ys = c :: rest ∧ (isLineEnd c = true ∨ isSeparator c = true) := by
  cases ys with
  | nil => exact Or.inl rfl
  | cons t ys =>
    right
    have ht := hsoft t rfl
    simp only [isSoft, Bool.or_eq_true] at ht
    rcases ht with (ht | ht) | ht
    · obtain ⟨hblank, -⟩ := h.isBlank_head ht
      obtain ⟨c, more, htext, hchars, -, -⟩ := hblank.exists_text
      refine ⟨c, more ++ chars ys, by rw [chars_cons, htext, List.cons_append], ?_⟩
      have hc := hchars c List.mem_cons_self
      rw [isLayoutChar, Bool.or_eq_true] at hc
      rw [isSeparator_iff]
      tauto
    · have htext : t.text = "," := by
        simp only [Spacing.isComma, isDelimiter, Bool.and_eq_true, beq_iff_eq] at ht
        exact ht.2
      exact ⟨',', chars ys, by rw [chars_cons, htext]; rfl, Or.inr (by decide)⟩
    · have htext : t.text = ")" ∨ t.text = "]" := by
        simp only [Spacing.isClosingBracket, closes, Bool.or_eq_true, Bool.and_eq_true,
          beq_iff_eq] at ht
        tauto
      rcases htext with htext | htext
      · exact ⟨')', chars ys, by rw [chars_cons, htext]; rfl, Or.inr (by decide)⟩
      · exact ⟨']', chars ys, by rw [chars_cons, htext]; rfl, Or.inr (by decide)⟩

theorem startsWithDigit_of_soft {scopes : List Char} (h : Legible scopes ys)
    (hsoft : ∀ t ∈ ys.head?, isSoft t = true) : startsWithDigit (chars ys) = false := by
  rcases head_of_soft h hsoft with hnil | ⟨c, rest, hcons, hc⟩
  · rw [hnil]; rfl
  · rw [hcons]; exact stopsAtGaps_isDigit c hc.symm

/-- Only the error at the end of a text has no text. -/
theorem eq_nil_of_text_eq_nil {scopes : List Char} {u : Token} (h : Legible scopes (u :: xs))
    (hu : u.text.toList = []) : xs = [] := by
  cases h with
  | blank hblank _ =>
    obtain ⟨c, more, htext, -⟩ := hblank.exists_text
    rw [hu] at htext
    exact absurd htext (by simp)
  | code => simp at hu
  | unfinished => simp at hu
  | unexpected => rfl
  | unmatched => rfl
  | unclosed => rfl

/-- No digit comes to stand behind an operator: the blanks in front of one are
only ever removed after a bracket. -/
theorem startsWithDigit_of_relaid {scopes : List Char} {t : Token} (ht : t.kind = .operator)
    (h : Relaid semis (some t) xs ys) (hys : Legible scopes ys)
    (hd : startsWithDigit (chars ys) = true) : startsWithDigit (chars xs) = true := by
  -- in all cases but the first two the result starts with a soft token
  have hsoft : (∀ u ∈ ys.head?, isSoft u = true) → startsWithDigit (chars xs) = true := by
    intro hu
    rw [startsWithDigit_of_soft hys hu] at hd
    exact absurd hd (by decide)
  cases h with
  | nil => exact hd
  | @keep _ u xs ys _ =>
    cases hu : u.text.toList with
    | nil =>
      rw [chars_cons, hu, eq_nil_of_text_eq_nil hys hu] at hd
      exact absurd hd (by decide)
    | cons c more =>
      rw [chars_cons, hu] at hd ⊢
      exact hd
  | @swap _ b b' _ _ _ hb' _ => exact hsoft (by simp [isSoft, hb'.isLayout])
  | insert hb _ _ => exact hsoft (by simp [isSoft, hb.isLayout])
  | drop hb hp _ =>
    cases hp with
    | blank h => simp [isLayout, isSpace, isLinebreak, ht] at h
    | opened h => rw [ht] at h; exact absurd h (by decide)
    | soft _ h => exact hsoft h
  | unterminate _ _ h _ => exact hsoft fun u hu => by simp [isSoft, h u hu]

/-- A blank in front of the tail lets a token end, if the token is not a line
comment or the blank is a linebreak. -/
theorem shift_blank {kind : Kind} {b : Token} (hb : IsBlank b) (tail rest : List Char)
    (h : b.isLinebreak = true ∨ kind ≠ .comment ∨
      ∃ d more, tail = d :: more ∧ isLineEnd d = false) :
    Shift kind tail (b.text.toList ++ rest) := by
  obtain ⟨c, more, htext, hchars, hend, hspace⟩ := hb.exists_text
  rw [htext, List.cons_append]
  cases hc : isLineEnd c with
  | true => exact .lineEnd hc
  | false =>
    have hsp : isSpaceChar c = true := by
      have := hchars c List.mem_cons_self
      rwa [isLayoutChar, hc, Bool.or_false] at this
    refine .separator (isSeparator_iff.2 (Or.inl hsp)) ?_
    rcases h with h | h
    · rw [← hend, hc] at h
      exact absurd h (by decide)
    · exact h

/-- A soft token in front of the tail lets a token end that is not a line
comment. -/
theorem shift_soft {kind : Kind} {scopes : List Char} (hys : Legible scopes ys)
    (hsoft : ∀ t ∈ ys.head?, isSoft t = true) {d : Char} {more : List Char}
    (hd : isLineEnd d = false) : Shift kind (d :: more) (chars ys) := by
  rcases head_of_soft hys hsoft with hnil | ⟨c, rest, hcons, hc⟩
  · rw [hnil]; exact .ended
  · rw [hcons]
    rcases hc with hc | hc
    · exact .lineEnd hc
    · exact .separator hc (Or.inr ⟨d, more, rfl, hd⟩)

/-- The text of a space starts with a character that ends no line. -/
theorem exists_text_of_isSpace {b : Token} (hb : IsBlank b) (hspace : b.isSpace = true) :
    ∃ d more, b.text.toList = d :: more ∧ isLineEnd d = false := by
  obtain ⟨c, more, htext, -, hend, -⟩ := hb.exists_text
  refine ⟨c, more, htext, ?_⟩
  rw [hend]
  have hkind : b.kind = .space := by simpa [isSpace] using hspace
  simp [isLinebreak, hkind]

theorem lexeme_point (rest : List Char) :
    lexeme '.' rest = .complete .operator (operatorTail rest) := by
  unfold lexeme
  rw [if_neg (by decide), if_neg (by decide), if_neg (by decide), if_neg (by decide),
    if_neg (by decide), if_neg (by decide), if_neg (by decide), if_neg (by decide),
    if_neg (by decide), if_pos (by decide)]

theorem lexeme_slash (rest : List Char) : lexeme '/' rest = slashLexeme rest := by
  unfold lexeme
  rw [if_neg (by decide), if_neg (by decide), if_neg (by decide), if_pos rfl]

/-- The tail that starts with a kept code token keeps its first character, and
the second one as far as a token before it can see. -/
theorem shift_code {kind kind' : Kind} {scopes : List Char} {c : Char} {more : List Char}
    (hlex : lexeme c (more ++ chars xs) = .complete kind' more.length)
    (h : Relaid semis (some ⟨kind', String.ofList (c :: more)⟩) xs ys)
    (hys : Legible scopes ys) :
    Shift kind (c :: (more ++ chars xs)) (c :: (more ++ chars ys)) := by
  cases more with
  | cons d more =>
    refine .same (fun _ hd => hd) fun _ ho => ?_
    rwa [List.cons_append, opensComment_cons] at ho ⊢
  | nil =>
    rw [List.nil_append] at hlex
    refine .same (fun hc hd => ?_) fun hc ho => ?_
    · subst hc
      rw [lexeme_point, Lexeme.complete.injEq] at hlex
      exact startsWithDigit_of_relaid hlex.1.symm h hys hd
    · subst hc
      rw [lexeme_slash] at hlex
      rw [List.nil_append, (slashLexeme_eq_complete_zero hlex).2.1] at ho
      exact absurd ho (by decide)

theorem shift_refl (kind : Kind) (tail : List Char) : Shift kind tail tail := by
  cases tail with
  | nil => exact .ended
  | cons c more => exact .same (fun _ h => h) fun _ h => h

/-- A blank in the place of another one of its kind. -/
theorem shift_swap {kind : Kind} {b b' : Token} (hb : IsBlank b) (hb' : IsBlank b')
    (hkind : b'.kind = b.kind) (tail tail' : List Char) :
    Shift kind (b.text.toList ++ tail) (b'.text.toList ++ tail') := by
  refine shift_blank hb' _ _ ?_
  rcases hb'.kind with hspace | hlinebreak
  · have hb : ∃ d more, b.text.toList = d :: more ∧ isLineEnd d = false :=
      exists_text_of_isSpace hb (by rw [isSpace, ← hkind, hspace]; rfl)
    obtain ⟨d, more, htext, hd⟩ := hb
    exact Or.inr (Or.inr ⟨d, more ++ tail, by rw [htext, List.cons_append], hd⟩)
  · exact Or.inl (by rw [isLinebreak, hlinebreak]; rfl)

/-- A blank that comes in after a code token. -/
theorem shift_insert {scopes : List Char} {q b : Token} (hx : Legible scopes xs) (hb : IsBlank b)
    (hp : MayInsert b (some q) xs) (hcode : q.isCode = true) (rest : List Char) :
    Shift q.kind (chars xs) (b.text.toList ++ rest) := by
  refine shift_blank hb _ _ ?_
  cases hp with
  | blank h =>
    rw [isCode, h] at hcode
    exact absurd hcode (by decide)
  | after h =>
    refine Or.inr (Or.inl fun hk => ?_)
    rw [hk] at h
    exact absurd h (by decide)
  | @before _ u xs h =>
    -- an operator starts with a character that ends no line
    cases hx with
    | blank hblank _ =>
      have hkind := hblank.kind
      rw [h] at hkind
      simp at hkind
    | @code _ _ _ c more _ hlayout _ _ _ =>
      refine Or.inr (Or.inr ⟨c, more ++ chars xs, by simp, ?_⟩)
      simp only [isLayoutChar, Bool.or_eq_false_iff] at hlayout
      exact hlayout.2
    | @unfinished _ _ c more hlayout _ =>
      refine Or.inr (Or.inr ⟨c, more, by simp, ?_⟩)
      simp only [isLayoutChar, Bool.or_eq_false_iff] at hlayout
      exact hlayout.2
    | unexpected => simp at h
    | unmatched => simp at h
    | unclosed => simp at h
  | final hlinebreak _ _ => exact Or.inl hlinebreak

/-- A blank that goes after a code token. -/
theorem shift_drop {scopes : List Char} {q b : Token} (hys : Legible scopes ys) (hb : IsBlank b)
    (hp : MayDrop b (some q) ys) (hcode : q.isCode = true) (tail : List Char) :
    Shift q.kind (b.text.toList ++ tail) (chars ys) := by
  cases hp with
  | blank h =>
    rw [isCode, h] at hcode
    exact absurd hcode (by decide)
  | opened h => exact .closed (Or.inl h)
  | soft hspace hsoft =>
    obtain ⟨d, more, htext, hd⟩ := exists_text_of_isSpace hb hspace
    rw [htext, List.cons_append]
    exact shift_soft hys hsoft hd

/-- What follows a semicolon is legible with the same open brackets. -/
theorem legible_of_isSemicolon {scopes : List Char} {t : Token} (hx : Legible scopes (t :: xs))
    (ht : Semicolons.isSemicolon t = true) : Legible scopes xs := by
  have hkind : t.kind = .delimiter := kind_of_isDelimiter ht
  cases hx with
  | blank _ hrest => exact hrest
  | @code _ _ kind _ _ _ _ _ hscopes hrest =>
    obtain rfl : kind = .delimiter := hkind
    obtain rfl := Option.some.inj hscopes
    exact hrest
  | @unfinished _ kind c more hlayout hlex =>
    have hfits := fits_lexeme hlayout more
    rw [hlex, show kind = .delimiter from hkind] at hfits
    simp [Lexeme.Fits] at hfits
  | unexpected => simp at hkind
  | unmatched => simp at hkind
  | unclosed => simp at hkind

/-- What the induction carries: the result is legible, and a code token before it
still ends where it ended. -/
structure Reads (scopes : List Char) (p : Option Token) (xs ys : List Token) : Prop where
  /-- The result is legible. -/
  legible : Legible scopes ys
  /-- The token before it ends where it ended. -/
  shift : ∀ t : Token, p = some t → t.isCode = true → Shift t.kind (chars xs) (chars ys)

/-- A list that starts with a token that is kept. -/
theorem reads_keep {scopes : List Char} {t : Token} (h : Relaid semis (some t) xs ys)
    (ih : ∀ {scopes : List Char}, Legible scopes xs → Reads scopes (some t) xs ys)
    (hx : Legible scopes (t :: xs)) : Reads scopes p (t :: xs) (t :: ys) := by
  cases hx with
  | blank hblank hrest =>
    refine ⟨.blank hblank (ih hrest).legible, fun q _ _ => ?_⟩
    rw [chars_cons, chars_cons]
    exact shift_swap hblank hblank rfl _ _
  | @code _ inner kind c more _ hlayout hlex hscopes hrest =>
    obtain ⟨hys, hshift⟩ := ih hrest
    have hfits := fits_lexeme hlayout (more ++ chars xs)
    rw [hlex] at hfits
    have hcode : (⟨kind, String.ofList (c :: more)⟩ : Token).isCode = true := by
      simp [isCode, isLayout, isSpace, isLinebreak, hfits.1, hfits.2.1]
    have hlex' := lexeme_append_shift ⟨hfits.1, hfits.2.1⟩ hlex (hshift _ rfl hcode)
    refine ⟨.code hlayout hlex' hscopes hys, fun q _ _ => ?_⟩
    rw [chars_cons, chars_cons, String.toList_ofList, List.cons_append, List.cons_append]
    exact shift_code hlex h hys
  | @unfinished _ kind c more hlayout hlex =>
    have hfits := fits_lexeme hlayout more
    rw [hlex] at hfits
    have hkind : kind = .comment ∨ kind = .stringLiteral := hfits
    obtain rfl := eq_of_unfinished hkind h
    exact ⟨.unfinished hlayout hlex, fun q _ _ => shift_refl _ _⟩
  | unexpected hlayout hlex =>
    obtain rfl := eq_nil_of_error rfl h
    exact ⟨.unexpected hlayout hlex, fun q _ _ => shift_refl _ _⟩
  | unmatched hlayout hlex hscopes =>
    obtain rfl := eq_nil_of_error rfl h
    exact ⟨.unmatched hlayout hlex hscopes, fun q _ _ => shift_refl _ _⟩
  | unclosed =>
    obtain rfl := eq_nil_of_error rfl h
    exact ⟨.unclosed, fun q _ _ => shift_refl _ _⟩

/-- **Laying out anew does not change what is read.** -/
theorem reads (h : Relaid semis p xs ys) :
    ∀ {scopes : List Char}, Legible scopes xs → Reads scopes p xs ys := by
  induction h with
  | nil => exact fun hx => ⟨hx, fun t _ _ => shift_refl _ _⟩
  | keep h ih => exact fun hx => reads_keep h ih hx
  | @swap p b b' xs ys hkind hb' _ ih =>
    intro scopes hx
    have hb : b.isLayout = true := by rw [← isLayout_eq_of_kind hkind]; exact hb'.isLayout
    obtain ⟨hblank, hrest⟩ := hx.isBlank_head hb
    refine ⟨.blank hb' (ih hrest).legible, fun q _ _ => ?_⟩
    rw [chars_cons, chars_cons]
    exact shift_swap hblank hb' hkind _ _
  | @insert p b xs ys hb hp _ ih =>
    intro scopes hx
    refine ⟨.blank hb (ih hx).legible, fun q hq hcode => ?_⟩
    subst hq
    rw [chars_cons]
    exact shift_insert hx hb hp hcode _
  | @drop p b xs ys hb hp _ ih =>
    intro scopes hx
    obtain ⟨hblank, hrest⟩ := hx.isBlank_head hb
    have hys := (ih hrest).legible
    refine ⟨hys, fun q hq hcode => ?_⟩
    subst hq
    rw [chars_cons]
    exact shift_drop hys hblank hp hcode _
  | @unterminate p t xs ys _ ht hlayout _ ih =>
    intro scopes hx
    have hys := (ih (legible_of_isSemicolon hx ht)).legible
    have htext : t.text = ";" := by
      simp only [Semicolons.isSemicolon, isDelimiter, Bool.and_eq_true, beq_iff_eq] at ht
      exact ht.2
    refine ⟨hys, fun q _ _ => ?_⟩
    rw [chars_cons, htext]
    exact shift_soft hys (fun u hu => by simp [isSoft, hlayout u hu]) (d := ';') (by decide)

/-- **Laying out anew keeps a list legible.** -/
theorem legible {scopes : List Char} (h : Relaid semis p xs ys) (hx : Legible scopes xs) :
    Legible scopes ys := (h.reads hx).legible

end Relaid
end Token
end Restyle
