import Restyle.Proofs.Formatting.CodeKept
import Restyle.Proofs.Formatting.Settling

/-!
# The passes over a text

The tokens of a text make up a page, but for the texts of linebreaks, which the
first rule makes alike.  Formatting with the default rules is therefore a matter of
pages from the first pass on, and whether it comes to rest is a matter of outlines.

* `iterate_step_scan`: the tokens after some passes are those of a page.
* `outline_iterate_pass`: the outline after some passes.
* `applyRules_defaults_ok_iff`: formatting succeeds exactly if the outline is at
  rest in the last pass.
-/

namespace Restyle

namespace Token

/-! ## The tokens of a text -/

/-- What is read as a space starts with a blank. -/
theorem exists_of_isSpace_head {scopes cs : List Char} {u : Token}
    (hu : u ∈ (scanFrom scopes cs).head?) (hspace : u.isSpace = true) :
    ∃ c ∈ cs.head?, isSpaceChar c = true := by
  have hlegible := legible_scanFrom scopes cs
  have hchars := chars_scanFrom scopes cs
  cases htokens : scanFrom scopes cs with
  | nil => simp [htokens] at hu
  | cons v rest =>
    rw [htokens] at hu hlegible hchars
    obtain rfl : v = u := by simpa using hu
    have hblank := (hlegible.isBlank_head (Relaid.isLayout_of_isSpace hspace)).1
    obtain ⟨c, more, htext, -, -, hc⟩ := hblank.exists_text
    refine ⟨c, ?_, hc.trans hspace⟩
    rw [← hchars, chars_cons, htext]
    rfl

/-- A token that is a space takes up all blanks that there are. -/
theorem eq_run_of_lexeme_space {c : Char} {rest : List Char} {n : Nat}
    (h : lexeme c rest = .complete .space n) : n = run isSpaceChar rest := by
  cases hc : isLayoutChar c with
  | false =>
    have hfits := fits_lexeme hc rest
    rw [h] at hfits
    exact absurd rfl hfits.1
  | true =>
    rw [isLayoutChar, Bool.or_eq_true, isLineEnd_iff] at hc
    rcases hc with hc | rfl | rfl
    · rw [lexeme_of_isSpaceChar hc] at h
      exact (Lexeme.complete.inj h).2.symm
    · rw [lexeme_lf] at h
      exact absurd (Lexeme.complete.inj h).1 (by decide)
    · rw [lexeme_cr] at h
      exact absurd (Lexeme.complete.inj h).1 (by decide)

/-- **No two spaces of a text stand side by side.** -/
theorem isChain_scanFrom (scopes cs : List Char) :
    (scanFrom scopes cs).IsChain fun t u => ¬(t.isSpace = true ∧ u.isSpace = true) := by
  fun_induction scanFrom scopes cs with
  | case1 scopes hempty => exact .nil
  | case2 scopes hempty => exact .singleton _
  | case3 scopes c rest hlex => exact .singleton _
  | case4 scopes c rest kind hlex => exact .cons_cons (by simp [isSpace]) (.singleton _)
  | case5 scopes c rest kind more hlex hscopes => exact .singleton _
  | case6 scopes c rest kind more hlex inner hscopes ih =>
    refine List.isChain_cons.2 ⟨fun u hu => ?_, ih⟩
    rintro ⟨ht, hspace⟩
    obtain rfl : kind = .space := by simpa [isSpace] using ht
    obtain ⟨d, hd, hdspace⟩ := exists_of_isSpace_head hu hspace
    have hdrop : rest.drop (run isSpaceChar rest) = rest.dropWhile isSpaceChar := by
      have h : (rest.takeWhile isSpaceChar ++ rest.dropWhile isSpaceChar).drop
          (run isSpaceChar rest) = rest.dropWhile isSpaceChar := List.drop_left' rfl
      rwa [List.takeWhile_append_dropWhile] at h
    rw [eq_run_of_lexeme_space hlex, hdrop] at hd
    have hnot := List.head?_dropWhile_not isSpaceChar rest
    rw [hd] at hnot
    exact absurd hdspace (by simpa using hnot)

/-- **No text ends with an opening bracket**: it is closed later on, or an error
stands for what is missing. -/
theorem kind_getLast?_code {scopes : List Char} {tokens : List Token}
    (h : Legible scopes tokens) :
    (scopes ≠ [] → code tokens ≠ []) ∧
      ∀ t ∈ (code tokens).getLast?, t.kind ≠ .startOfScope := by
  have herror : ∀ text, code [⟨.error, text⟩] = [⟨.error, text⟩] := fun text => rfl
  induction h with
  | done => exact ⟨fun h => absurd rfl h, by simp⟩
  | blank hblank _ ih => rwa [code_cons_of_isLayout hblank.isLayout]
  | @code scopes inner kind c more rest hlayout hlex hscopes hrest ih =>
    have hcode : isCode ⟨kind, String.ofList (c :: more)⟩ = true := by
      have hfits := fits_lexeme hlayout (more ++ chars rest)
      rw [hlex] at hfits
      simp [isCode, isLayout, isSpace, isLinebreak, hfits.1, hfits.2.1]
    rw [code_cons_of_isCode hcode]
    refine ⟨fun _ => by simp, ?_⟩
    cases hcodes : Token.code rest with
    | cons d ds =>
      rw [List.getLast?_cons_cons, ← hcodes]
      exact ih.2
    | nil =>
      -- the last code token is not an opening bracket, since no bracket is left open
      intro t ht hkind
      obtain rfl := Option.mem_some_iff.1 ht
      obtain rfl : kind = .startOfScope := hkind
      have hinner : inner ≠ [] := by
        obtain rfl := Option.some.inj hscopes
        simp
      exact ih.1 hinner hcodes
  | @unfinished scopes kind c more hlayout hlex =>
    have hfits := fits_lexeme hlayout more
    rw [hlex] at hfits
    rcases hfits with rfl | rfl <;> exact ⟨fun _ => by simp [Token.code, isCode, isLayout, isSpace,
      isLinebreak], by simp [Token.code, isCode, isLayout, isSpace, isLinebreak]⟩
  | unexpected | unmatched | unclosed =>
    rw [herror]
    exact ⟨fun _ => by simp, by simp⟩

end Token

namespace Page

open Token

theorem joinSpaces_eq_self {ts : List Token}
    (h : ts.IsChain fun t u => ¬(t.isSpace = true ∧ u.isSpace = true)) :
    Spacing.joinSpaces ts = ts := by
  induction ts with
  | nil => rfl
  | cons t ts ih =>
    rw [List.isChain_cons] at h
    rw [Spacing.joinSpaces, ih h.2]
    cases ts with
    | nil => rfl
    | cons u ts =>
      have hspaces := h.1 u rfl
      rw [Spacing.consJoined, if_neg (by simpa using hspaces)]

/-- The page of a text has the tokens of the text, with their linebreaks made
alike. -/
theorem tokens_read_scan (eol source : String) :
    (read (scan source)).tokens eol = Linebreaks.unify eol (scan source) := by
  rw [tokens_read]
  refine joinSpaces_eq_self (List.isChain_map_of_isChain _ ?_ (isChain_scanFrom [] source.toList))
  intro t u htu
  have hkind : ∀ v : Token, (if v.isLinebreak then (⟨.linebreak, eol⟩ : Token) else v).isSpace =
      v.isSpace := by
    intro v
    split
    · rename_i hbreak
      rw [Relaid.isSpace_of_isLinebreak hbreak]
      rfl
    · rfl
  rwa [hkind, hkind]

theorem code_read (ts : List Token) : (read ts).cells.map Cell.code = code ts := by
  induction ts with
  | nil => rfl
  | cons t ts ih =>
    rw [read]
    rcases sort t with hcode | hspace | hbreak
    · rw [cons_of_isCode hcode, code_cons_of_isCode hcode, List.map_cons, ih]
    · rw [hspace, cons_of_isSpace rfl, code_cons_of_isLayout rfl, ih]
    · rw [hbreak, cons_of_isLinebreak rfl, code_cons_of_isLayout rfl, ih]

theorem noOpenEnd_of_legible {ts : List Token} (h : Legible [] ts) : (read ts).NoOpenEnd := by
  intro c hc
  have hlast : c.code ∈ (code ts).getLast? := by
    rw [← code_read, List.getLast?_map, Option.mem_def.1 hc]
    rfl
  have hkind := (kind_getLast?_code h).2 c.code hlast
  simp [opens, hkind]

end Page

namespace Formatting

open Token

variable {style : Style} {source : String}

/-- The first rule makes all linebreaks alike, so that it does not matter whether
they were. -/
theorem step_unify (ts : List Token) :
    step style (Rule.defaults style) (Linebreaks.unify style.linebreak.text ts) =
      step style (Rule.defaults style) ts := by
  simp only [step_defaults, Page.unify_unify]

/-- **After at least one pass over a text there is a page.** -/
theorem iterate_step_scan (style : Style) (source : String) (n : Nat) :
    (step style (Rule.defaults style))^[n + 1] (scan source) =
      ((Page.pass style)^[n + 1] (Page.read (scan source))).tokens style.linebreak.text := by
  induction n with
  | zero =>
    show step style (Rule.defaults style) (scan source) = _
    rw [← step_unify, ← Page.tokens_read_scan, step_tokens]
    rfl
  | succ n ih =>
    rw [Function.iterate_succ_apply', ih, step_tokens,
      ← Function.iterate_succ_apply' (Page.pass style)]

theorem noOpenEnd_iterate (hrefused : refusal? style (scan source) = none) (n : Nat) :
    ((Page.pass style)^[n] (Page.read (scan source))).NoOpenEnd := by
  cases n with
  | zero => exact Page.noOpenEnd_of_legible (legible_scan source)
  | succ n =>
    have hkept := kept_iterate true (mem_catalog_of_select (select_none_nil style))
      (fun _ _ _ => rfl) (legible_scan source) hrefused (n + 1)
    have hread := Page.noOpenEnd_of_legible hkept.legible
    rwa [iterate_step_scan, Page.read_tokens] at hread

/-- **The outline after some passes.** -/
theorem outline_iterate_pass (hrefused : refusal? style (scan source) = none) (n : Nat) :
    ((Page.pass style)^[n] (Page.read (scan source))).outline =
      (Page.Mark.pass style)^[n] (Page.read (scan source)).outline := by
  induction n with
  | zero => rfl
  | succ n ih =>
    rw [Function.iterate_succ_apply', Function.iterate_succ_apply', ← ih,
      Page.outline_pass style (noOpenEnd_iterate hrefused n)]

/-- **Formatting with the default rules comes to rest exactly if outlines do.** -/
theorem applyRules_defaults_ok_iff (hrefused : refusal? style (scan source) = none) :
    (∃ ts, applyRules style (Rule.defaults style) (scan source) = .ok ts) ↔
      Page.Mark.pass style
          ((Page.Mark.pass style)^[maxPasses - 1] (Page.read (scan source)).outline) =
        (Page.Mark.pass style)^[maxPasses - 1] (Page.read (scan source)).outline := by
  have hnine : maxPasses - 1 = 8 + 1 := rfl
  have hpage := noOpenEnd_iterate hrefused (maxPasses - 1)
  rw [← outline_iterate_pass hrefused]
  rw [hnine, Function.iterate_succ_apply'] at hpage ⊢
  rw [← Page.pass_pass_eq_iff style hpage, ← Function.iterate_succ_apply' (Page.pass style)]
  constructor
  · rintro ⟨ts, hts⟩
    obtain ⟨-, rfl, hfixed⟩ := applyRules_eq_ok_iff.1 hts
    rw [hnine, iterate_step_scan, step_tokens] at hfixed
    have hread := congrArg Page.read hfixed
    rwa [Page.read_tokens, Page.read_tokens] at hread
  · intro hfixed
    refine ⟨_, applyRules_eq_ok_iff.2 ⟨hrefused, rfl, ?_⟩⟩
    rw [hnine, iterate_step_scan, step_tokens, hfixed]

end Formatting
end Restyle
