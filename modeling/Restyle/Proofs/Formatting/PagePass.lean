import Restyle.Proofs.Formatting.Passes
import Restyle.Proofs.Page.Outline

/-!
# A pass on a page

A pass with the default rules is a function on pages, `Page.pass`, made of a few
changes of gaps: braces are put in place, spaces are put in and taken out, lines
are cut to size and indented, and the ends of lines are cleaned up.  Between the
first two and the rest, semicolons may go.

Several rules that put spaces in, or take them out, become one change of a gap, and
so do those that cut lines to size.

* `braces_tokens`, `spaces_tokens`, `lines_tokens`, `edges_tokens`: what each group
  of rules does to the gaps of a page.
* `step_tokens`: a pass on the tokens of a page is a pass on the page.
-/

namespace Restyle

open Token

namespace Gap

theorem fill_fill (a b : Bool) (g : Gap) : (g.fill a).fill b = g.fill (a || b) := by
  by_cases hg : g = empty
  · subst hg
    cases a <;> cases b <;> rfl
  · rw [fill_eq_self hg, fill_eq_self hg, fill_eq_self hg]

theorem clear_clear (a b : Bool) (g : Gap) : (g.clear a).clear b = g.clear (a || b) := by
  obtain ⟨ended, s⟩ := g
  cases ended <;> cases a <;> cases b <;> rfl

theorem breaks_fill (wanted : Bool) (g : Gap) : (g.fill wanted).breaks = g.breaks := by
  unfold fill
  split
  · rename_i h
    simp only [Bool.and_eq_true, decide_eq_true_eq] at h
    rw [h.2]
    rfl
  · rfl

theorem breaks_clear (unwanted : Bool) (g : Gap) : (g.clear unwanted).breaks = g.breaks := by
  obtain ⟨ended, s⟩ := g
  cases ended <;> cases unwanted <;> rfl

theorem breaks_narrow (inner : Bool) (g : Gap) : (g.narrow inner).breaks = g.breaks := by
  obtain ⟨ended, s⟩ := g
  cases ended <;> cases inner <;> rfl

theorem breaks_cap_succ (n : Nat) (g : Gap) : (g.cap (n + 1)).breaks = g.breaks := by
  obtain ⟨ended, s⟩ := g
  cases ended <;> rfl

theorem breaks_trim (keep : Bool) (t : Option Token) (g : Gap) (u : Option Token) :
    (g.trim keep t u).breaks = g.breaks := by
  obtain ⟨ended, s⟩ := g
  cases ended <;> rfl

end Gap

namespace Page

/-! ## The changes of gaps -/

/-- Where the brace of a block stands. -/
def braceGap (allman : Bool) : Option Token → Gap → List Cell → Gap :=
  if allman then wrapGap else joinGap

/-- Whether a rule wants a space between two code tokens. -/
def wantsSpace (t u : Option Token) : Bool :=
  Inserts.apart spaceBeforeBrace spaceAfterBrace t u ||
    Inserts.apart spaceBeforeOperator spaceAfterOperator t u ||
    Inserts.apart (fun _ _ => false) spaceAfterComma t u

/-- Whether a rule wants no space between two code tokens. -/
def refusesSpace (t u : Option Token) : Bool := noSpaceBeforeComma t u || noSpaceInside t u

/-- The spaces between code tokens. -/
def spaceGap (t : Option Token) (g : Gap) (u : Option Token) : Gap :=
  (g.fill (wantsSpace t u)).clear (refusesSpace t u)

/-- How many lines may end in a gap. -/
def limit (most : Nat) (t : Option Token) : Nat := if t.isSome then most + 1 else most

/-- The width of spaces and the number of lines. -/
def lineGap (most : Nat) (t : Option Token) (g : Gap) (u : Option Token) : Gap :=
  let g := g.narrow (t.isSome && u.isSome)
  let g := if Spacing.thereIs (opens openBrace) t then g.cap 1 else g
  let g := if Spacing.thereIs (closes closeBrace) u then g.cap 1 else g
  g.cap (limit most t)

/-- The ends of lines and the end of the text. -/
def edgeGap (keep fragment : Bool) (t : Option Token) (g : Gap) (u : Option Token) : Gap :=
  if !fragment && (t.isSome && u.isNone) then .line else g.trim keep t u

/-- The changes of a page that do not depend on the place of braces and on
semicolons: lines are cut to size, indented and cleaned up. -/
def finish (style : Style) (p : Page) : Page :=
  ((p.touch (lineGap style.maxBlankLines)).indent style.indent).touch
    (edgeGap (style.trim == .nonblankLines) style.fragment)

/-- A pass with the default rules. -/
def pass (style : Style) (p : Page) : Page :=
  let p := (p.regap (braceGap style.allman)).touch spaceGap
  (if style.experimental then p.dropSemicolons else p).finish style

/-! ## A pass on tokens -/

variable {eol : String}

theorem braces_tokens (allman : Bool) (p : Page) :
    (if allman then Braces.wrap ⟨.linebreak, eol⟩ (p.tokens eol) else Braces.join (p.tokens eol)) =
      (p.regap (braceGap allman)).tokens eol := by
  cases allman with
  | false => exact join_tokens p
  | true => exact wrap_tokens p

/-- The rules on spaces between code tokens, all at once. -/
theorem spaces_tokens (p : Page) :
    Spacing.insideBrackets none (Spacing.beforeCommas none (Spacing.afterCommas
      (Spacing.aroundOperators none (Spacing.aroundBraces none (p.tokens eol))))) =
      (p.touch spaceGap).tokens eol := by
  have hcommas : ∀ q : Page, Spacing.afterCommas (q.tokens eol) = (q.touch fun t g u =>
      g.fill (Inserts.apart (fun _ _ => false) spaceAfterComma t u)).tokens eol :=
    inserts_afterCommas.tokens
  rw [inserts_aroundBraces.tokens, inserts_aroundOperators.tokens, hcommas, beforeCommas_tokens,
    insideBrackets_tokens]
  simp only [touch_touch, Gap.fill_fill, Gap.clear_clear]
  rfl

/-- The rules on the width of spaces and on blank lines, all at once. -/
theorem lines_tokens (most : Nat) (p : Page) :
    Linebreaks.limitBlankLines most 0 (Linebreaks.trimBlockEnds (Linebreaks.trimBlockStarts false
      (Spacing.singleSpaces none (p.tokens eol)))) =
      (p.touch (lineGap most)).tokens eol := by
  rw [singleSpaces_tokens, trimBlockStarts_tokens, trimBlockEnds_tokens, limitBlankLines_tokens]
  simp only [touch_touch]
  rfl

/-- The rules on the ends of lines and the end of the text, all at once. -/
theorem edges_tokens (keep fragment : Bool) (p : Page) :
    (if fragment then Spacing.trimLines keep none (p.tokens eol)
      else Linebreaks.endWithLinebreak ⟨.linebreak, eol⟩
        (Spacing.trimLines keep none (p.tokens eol))) =
      (p.touch (edgeGap keep fragment)).tokens eol := by
  cases fragment with
  | true => exact trimLines_tokens keep p
  | false =>
    rw [if_neg (by decide), trimLines_tokens, endWithLinebreak_tokens]
    simp only [touch_touch]
    rfl

end Page

namespace Formatting

/-- The default rules, one after the other. -/
theorem step_defaults (style : Style) (ts : List Token) :
    step style (Rule.defaults style) ts =
      let eol := style.linebreak.text
      let ts := Linebreaks.unify eol ts
      let ts := if style.allman then Braces.wrap ⟨.linebreak, eol⟩ ts else Braces.join ts
      let ts := Spacing.aroundOperators none (Spacing.aroundBraces none ts)
      let ts := Spacing.beforeCommas none (Spacing.afterCommas ts)
      let ts := Spacing.insideBrackets none ts
      let ts := if style.experimental then Semicolons.dropTrailing ts else ts
      let ts := Spacing.singleSpaces none (Spacing.joinSpaces ts)
      let ts := Linebreaks.trimBlockEnds (Linebreaks.trimBlockStarts false ts)
      let ts := Linebreaks.limitBlankLines style.maxBlankLines 0 ts
      let ts := Indentation.indentLines style.indent [] ts
      let ts := Spacing.trimLines (style.trim == .nonblankLines) none ts
      if style.fragment then ts else Linebreaks.endWithLinebreak ⟨.linebreak, eol⟩ ts := by
  cases hex : style.experimental <;> cases hallman : style.allman <;> cases hf : style.fragment <;>
    simp [Rule.defaults, Rule.catalog, hex, hallman, hf, Rule.run, Rule.ofTransform,
      Rule.asExperimental, Rule.linebreaks, Rule.braces, Rule.spaceAroundBraces,
      Rule.spaceAroundOperators, Rule.spaceAroundCommas, Rule.spaceInsideParens, Rule.semicolons,
      Rule.consecutiveSpaces, Rule.blankLinesAtStartOfScope, Rule.blankLinesAtEndOfScope,
      Rule.consecutiveBlankLines, Rule.indent, Rule.trailingSpace, Rule.linebreakAtEndOfFile]

/-- **A pass with the default rules is a pass on a page.** -/
theorem step_tokens (style : Style) (p : Page) :
    step style (Rule.defaults style) (p.tokens style.linebreak.text) =
      (p.pass style).tokens style.linebreak.text := by
  rw [step_defaults]
  simp only
  rw [Page.unify_tokens, Page.braces_tokens, Page.spaces_tokens]
  -- with or without the rule on semicolons, the spaces are joined next
  have hsemicolons : ∀ q : Page, Spacing.joinSpaces
      (if style.experimental then Semicolons.dropTrailing (q.tokens style.linebreak.text)
        else q.tokens style.linebreak.text) =
      (if style.experimental then q.dropSemicolons else q).tokens style.linebreak.text := by
    intro q
    cases style.experimental with
    | false => exact Page.joinSpaces_tokens _ q
    | true => exact Page.dropTrailing_tokens q
  rw [hsemicolons, Page.lines_tokens, Page.indentLines_tokens, Page.edges_tokens]
  rfl

end Formatting
end Restyle
