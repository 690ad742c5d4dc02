import Restyle.Proofs.Formatting.Iterates
import Restyle.Proofs.Page.Gaps

/-!
# Pages at rest

Formatting with the default rules ends on a page that a pass leaves alone.  That a
whole pass is the identity says little about a single rule, since one rule may undo
what another does.  This file says what it comes to for each gap of the page: the
spaces are those that the rules want, the lines are cut to size and cleaned up, and
the braces are in place.

* `Page.AtRest` collects what holds of such a page.
* `exists_atRest_of_applyRules`: the tokens that formatting comes to rest on are
  those of a page at rest.
-/

namespace Restyle

namespace Token

/-- **No text starts with a closing bracket**: where it closes nothing, an error
stands for it. -/
theorem kind_head?_code {tokens : List Token} (h : Legible [] tokens) :
    ∀ t ∈ (code tokens).head?, t.kind ≠ .endOfScope := by
  have herror : ∀ text, code [⟨.error, text⟩] = [⟨.error, text⟩] := fun text => rfl
  generalize hscopes : ([] : List Char) = scopes at h
  induction h with
  | done => simp
  | blank hblank _ ih =>
    rw [code_cons_of_isLayout hblank.isLayout]
    exact ih hscopes
  | @code scopes inner kind c more rest hlayout hlex hinner _ _ =>
    subst hscopes
    have hkind : kind ≠ .endOfScope := by
      rintro rfl
      exact absurd hinner (by simp [scopesAfter?])
    have hfits := fits_lexeme hlayout (more ++ chars rest)
    rw [hlex] at hfits
    rw [code_cons_of_isCode (by simp [isCode, isLayout, isSpace, isLinebreak, hfits.1, hfits.2.1])]
    simpa using hkind
  | @unfinished scopes kind c more hlayout hlex =>
    have hfits := fits_lexeme hlayout more
    rw [hlex] at hfits
    rcases hfits with rfl | rfl <;> simp [Token.code, isCode, isLayout, isSpace, isLinebreak]
  | unexpected | unmatched | unclosed =>
    rw [herror]
    simp

end Token

open Token

namespace Page

/-- What holds of a page that a pass with the default rules leaves alone. -/
structure AtRest (style : Style) (p : Page) : Prop where
  /-- Every space between code tokens is as the rules want it. -/
  spaced : p.Each Spaced
  /-- Spaces have their width, and blank lines are cut to size. -/
  lined : p.Each (Lined style.maxBlankLines)
  /-- The ends of lines are cleaned up. -/
  edged : p.Each fun t g u => edgeGap (style.trim == .nonblankLines) style.fragment t g u = g
  /-- Braces are in place. -/
  braced : p.regap (braceGap style.allman) = p
  /-- The last code token is no opening brace. -/
  noOpenEnd : p.NoOpenEnd
  /-- The first code token is no closing brace. -/
  noClosedStart : ∀ u ∈ next p.cells, u.closes closeBrace = false

theorem next_eq_head? (ts : List Token) : next (read ts).cells = (code ts).head? := by
  rw [← code_read]
  cases (read ts).cells <;> rfl

end Page

namespace Formatting

variable {style : Style} {source : String} {ts : List Token}

/-- **The default rules come to rest on the tokens of a page at rest.** -/
theorem exists_atRest_of_applyRules
    (h : applyRules style (Rule.defaults style) (scan source) = .ok ts) :
    ∃ p : Page, p.AtRest style ∧ ts = p.tokens style.linebreak.text := by
  obtain ⟨hrefused, hts, hfixed⟩ := applyRules_eq_ok_iff.1 h
  have hlegible := (kept_iterate true (mem_catalog_of_select (select_none_nil style))
    (fun _ _ _ => rfl) (legible_scan source) hrefused (maxPasses - 1)).legible
  have hopen := noOpenEnd_iterate hrefused (maxPasses - 1)
  rw [hts] at hlegible
  rw [show maxPasses - 1 = 8 + 1 from rfl, iterate_step_scan] at hts
  rw [show maxPasses - 1 = 8 + 1 from rfl] at hopen
  -- the last page that was written is the result of a pass
  rw [Function.iterate_succ_apply'] at hts hopen
  obtain ⟨q, hq⟩ : ∃ q, (Page.pass style)^[8] (Page.read (scan source)) = q := ⟨_, rfl⟩
  rw [hq] at hts hopen
  subst hts
  have hpass : (q.pass style).pass style = q.pass style := by
    rw [step_tokens] at hfixed
    have hread := congrArg Page.read hfixed
    rwa [Page.read_tokens, Page.read_tokens] at hread
  have hmarks := (Page.pass_pass_eq_iff style hopen).1 hpass
  refine ⟨q.pass style, ⟨Page.spaced_pass style q, Page.each_lined_finish style _,
    Page.each_edged_finish style _,
    Page.regap_braces_eq_self ((Page.Mark.pass_eq_self_iff style _).1 hmarks).1, hopen, ?_⟩, rfl⟩
  intro u hu
  have hnext := Page.next_eq_head? ((q.pass style).tokens style.linebreak.text)
  rw [Page.read_tokens] at hnext
  rw [hnext] at hu
  simp [closes, kind_head?_code hlegible u hu]

end Formatting
end Restyle
