import Restyle.Proofs.Formatting.PagePass

/-!
# What settles in one pass

Of the changes that make up a pass on a page, all but two settle at once.  For each
of them there is a statement about a single gap that the change brings about, that
makes the change do nothing, and that no later change of the pass destroys:
`Spaced` for the spaces between code tokens, `Lined` for the width of spaces and
the number of lines.  Indentation depends on more than a gap, and is treated as a
whole.

The two that remain are the rules on braces and on semicolons, and these are told
by the outline.

* `finish_finish`: the second half of a pass settles at once.
* `outline_pass`: what a pass does to the outline of a page.
* `pass_pass_eq_iff`: after one pass, another pass changes a page exactly if it
  changes its outline.
-/

namespace Restyle

open Token

namespace Gap

theorem cap_eq_self {n : Nat} {g : Gap} (h : g.ended.length ≤ n) : g.cap n = g := by
  rw [cap, List.take_of_length_le h]

theorem trim_trim (keep : Bool) (t : Option Token) (g : Gap) (u : Option Token) :
    (g.trim keep t u).trim keep t u = g.trim keep t u := by
  obtain ⟨ended, s⟩ := g
  cases ended with
  | nil => cases keep <;> cases t <;> cases u <;> rfl
  | cons a ended => cases keep <;> cases t <;> cases u <;> simp [trim]

/-- A gap before a code token keeps the blanks that the line of the token starts
with. -/
theorem last_trim (keep : Bool) (t : Option Token) (g : Gap) (u : Token) :
    (g.trim keep t (some u)).last = g.last := by
  obtain ⟨ended, s⟩ := g
  cases ended <;> rfl

theorem length_ended_trim (keep : Bool) (t : Option Token) (g : Gap) (u : Option Token) :
    (g.trim keep t u).ended.length = g.ended.length := by
  obtain ⟨ended, s⟩ := g
  cases ended <;> simp [trim]

theorem exists_of_not_breaks {g : Gap} (h : g.breaks = false) : ∃ s, g = ⟨[], s⟩ := by
  obtain ⟨ended, s⟩ := g
  cases ended with
  | nil => exact ⟨s, rfl⟩
  | cons a ended => exact absurd h (by simp)

end Gap

namespace Page

/-! ## Spaces between code tokens -/

/-- A gap between two code tokens of a line has a space where the rules want one
and none where they refuse it. -/
def Spaced (t : Option Token) (g : Gap) (u : Option Token) : Prop :=
  t.isSome = true → u.isSome = true → g.breaks = false →
    g.last.isSome = (!refusesSpace t u && (wantsSpace t u || g.last.isSome))

theorem Spaced.of_breaks {t u : Option Token} {g : Gap} (h : g.breaks = true ∨ u = none) :
    Spaced t g u := by
  intro _ hu hg
  rcases h with h | rfl
  · exact absurd hg (by simp [h])
  · exact absurd hu (by simp)

/-- Between two code tokens only the presence of a space matters. -/
theorem Spaced.congr {t u : Option Token} {g g' : Gap} (h : Spaced t g u)
    (hg : t.isSome = true → u.isSome = true → g'.breaks = false →
      g.breaks = false ∧ g'.last.isSome = g.last.isSome) : Spaced t g' u := by
  intro ht hu hb
  obtain ⟨hb', hlast⟩ := hg ht hu hb
  rw [hlast]
  exact h ht hu hb'

theorem spaced_spaceGap (t : Option Token) (g : Gap) (u : Option Token) :
    Spaced t (spaceGap t g u) u := by
  intro _ _ hb
  rw [spaceGap, Gap.breaks_clear, Gap.breaks_fill] at hb
  obtain ⟨s, rfl⟩ := Gap.exists_of_not_breaks hb
  unfold spaceGap
  cases refusesSpace t u <;> cases wantsSpace t u <;> cases s <;>
    simp [Gap.fill, Gap.clear, Gap.empty, Gap.single]

theorem wantsSpace_none (u : Option Token) : wantsSpace none u = false := rfl

theorem wantsSpace_none_right (t : Option Token) : wantsSpace t none = false := by
  cases t <;> rfl

theorem refusesSpace_none (u : Option Token) : refusesSpace none u = false := by
  simp [refusesSpace, noSpaceBeforeComma, noSpaceInside, Spacing.thereIs, Spacing.isPlain]

theorem refusesSpace_none_right (t : Option Token) : refusesSpace t none = false := by
  simp [refusesSpace, noSpaceBeforeComma, noSpaceInside, Spacing.thereIs, Spacing.isPlain]

theorem spaceGap_eq_self {t u : Option Token} {g : Gap} (h : Spaced t g u) :
    spaceGap t g u = g := by
  have hid : (g.fill false).clear false = g := by simp [Gap.fill, Gap.clear]
  unfold spaceGap
  cases t with
  | none => rw [wantsSpace_none, refusesSpace_none, hid]
  | some t =>
    cases u with
    | none => rw [wantsSpace_none_right, refusesSpace_none_right, hid]
    | some u =>
      obtain ⟨ended, s⟩ := g
      cases ended with
      | cons a ended => simp [Gap.fill, Gap.clear, Gap.empty]
      | nil =>
        have h := h rfl rfl rfl
        revert h
        cases refusesSpace (some t) (some u) <;> cases wantsSpace (some t) (some u) <;>
          cases s <;> simp [Gap.fill, Gap.clear, Gap.empty, Gap.single]

theorem breaks_spaceGap (t : Option Token) (g : Gap) (u : Option Token) :
    (spaceGap t g u).breaks = g.breaks := by
  rw [spaceGap, Gap.breaks_clear, Gap.breaks_fill]

/-! ## The width of spaces and the number of lines -/

/-- A gap within a line is a single space at most, and not more lines end in a gap
than the rules allow. -/
structure Lined (most : Nat) (t : Option Token) (g : Gap) (u : Option Token) : Prop where
  /-- Within a line. -/
  inner : t.isSome = true → u.isSome = true → g.breaks = false →
    g.last = none ∨ g.last = some " "
  /-- At the start of a block. -/
  opened : Spacing.thereIs (opens openBrace) t = true → g.ended.length ≤ 1
  /-- At the end of a block. -/
  closed : Spacing.thereIs (closes closeBrace) u = true → g.ended.length ≤ 1
  /-- Anywhere. -/
  few : g.ended.length ≤ limit most t

theorem lineGap_eq_self {most : Nat} {t u : Option Token} {g : Gap} (h : Lined most t g u) :
    lineGap most t g u = g := by
  have hnarrow : g.narrow (t.isSome && u.isSome) = g := by
    unfold Gap.narrow
    split
    · rename_i hinner
      rw [Bool.and_eq_true, Bool.and_eq_true] at hinner
      have hb : g.breaks = false := by simp [Gap.breaks, hinner.2]
      obtain ⟨s, rfl⟩ := Gap.exists_of_not_breaks hb
      rcases h.inner hinner.1.1 hinner.1.2 hb with rfl | rfl <;> rfl
    · rfl
  have hopened : (if Spacing.thereIs (opens openBrace) t then g.cap 1 else g) = g := by
    split
    · exact Gap.cap_eq_self (h.opened ‹_›)
    · rfl
  have hclosed : (if Spacing.thereIs (closes closeBrace) u then g.cap 1 else g) = g := by
    split
    · exact Gap.cap_eq_self (h.closed ‹_›)
    · rfl
  simp only [lineGap, hnarrow, hopened, hclosed]
  exact Gap.cap_eq_self h.few

theorem last_lineGap (most : Nat) (t : Option Token) (g : Gap) (u : Option Token) :
    (lineGap most t g u).last = (g.narrow (t.isSome && u.isSome)).last := by
  unfold lineGap
  simp only [Gap.cap]
  split <;> split <;> rfl

theorem breaks_lineGap (most : Nat) (t : Token) (g : Gap) (u : Option Token) :
    (lineGap most (some t) g u).breaks = g.breaks := by
  simp only [lineGap, limit, Option.isSome_some, if_true, Gap.breaks_cap_succ]
  split <;> split <;> simp [Gap.breaks_cap_succ, Gap.breaks_narrow]

theorem lined_lineGap (most : Nat) (t : Option Token) (g : Gap) (u : Option Token) :
    Lined most t (lineGap most t g u) u where
  inner := by
    intro ht hu hb
    obtain ⟨t, rfl⟩ := Option.isSome_iff_exists.1 ht
    rw [breaks_lineGap] at hb
    obtain ⟨s, rfl⟩ := Gap.exists_of_not_breaks hb
    rw [last_lineGap, hu]
    cases s
    · exact Or.inl rfl
    · exact Or.inr rfl
  opened := by
    intro hopens
    simp only [lineGap, hopens, if_true, Gap.cap]
    split <;> simp only [List.length_take] <;> omega
  closed := by
    intro hcloses
    simp only [lineGap, hcloses, if_true, Gap.cap, List.length_take]
    omega
  few := by
    simp only [lineGap, Gap.cap, List.length_take]
    exact Nat.min_le_left _ _

/-! ## Indentation -/

section Indent

variable {i : Indent}

/-- What holds of every gap holds after lines have been indented, if it does not
depend on the blanks that a line starts with. -/
theorem Each.indent {P : Option Token → Gap → Option Token → Prop} {p : Page} (hp : p.Each P)
    (h : ∀ t g u s, startsLine t g = true → P t g u → P t ⟨g.ended, s⟩ u) :
    (p.indent i).Each P := by
  have hfrom : ∀ (cells : List Cell) (level : Nat) (scopes : List Nat) (t : Option Token) (g : Gap),
      EachFrom P t g cells → EachFrom P t (indentFrom i level scopes t g cells).lead
        (indentFrom i level scopes t g cells).cells := by
    intro cells
    induction cells with
    | nil => exact fun level scopes t g hg => hg
    | cons c cells ih =>
      intro level scopes t g hg
      refine ⟨?_, ih _ _ _ _ hg.2⟩
      rw [indentFrom]
      dsimp only
      split
      · rename_i hstarts
        exact h _ _ _ _ hstarts hg.1
      · exact hg.1
  exact hfrom p.cells 0 [] none p.lead hp

theorem breaks_of_startsLine {t : Option Token} {g : Gap} (ht : t.isSome = true)
    (h : startsLine t g = true) : g.breaks = true := by
  obtain ⟨t, rfl⟩ := Option.isSome_iff_exists.1 ht
  exact h

theorem startsLine_mk {t : Option Token} {g : Gap} {s : Option String} :
    startsLine t ⟨g.ended, s⟩ = startsLine t g := rfl

theorem indent_indent (p : Page) : (p.indent i).indent i = p.indent i := by
  have hfrom : ∀ (cells : List Cell) (level : Nat) (scopes : List Nat) (t : Option Token) (g : Gap),
      indentFrom i level scopes t (indentFrom i level scopes t g cells).lead
        (indentFrom i level scopes t g cells).cells = indentFrom i level scopes t g cells := by
    intro cells
    induction cells with
    | nil => exact fun level scopes t g => rfl
    | cons c cells ih =>
      intro level scopes t g
      cases hstarts : startsLine t g with
      | true => simp only [indentFrom, hstarts, if_true, startsLine_mk, ih]
      | false => simp only [indentFrom, hstarts, Bool.false_eq_true, if_false, ih]
  exact hfrom p.cells 0 [] none p.lead

/-- A change of gaps that leaves alone what the lines of code start with. -/
theorem indent_regap_eq_self {f : Option Token → Gap → List Cell → Gap} {p : Page}
    (hp : p.indent i = p)
    (hbreaks : ∀ t g c cells, (f t g (c :: cells)).breaks = g.breaks)
    (hlast : ∀ t g c cells, (f t g (c :: cells)).last = g.last) :
    (p.regap f).indent i = p.regap f := by
  have hfrom : ∀ (cells : List Cell) (level : Nat) (scopes : List Nat) (t : Option Token) (g : Gap),
      indentFrom i level scopes t g cells = ⟨g, cells⟩ →
        indentFrom i level scopes t (f t g cells) (regapCells f cells) =
          ⟨f t g cells, regapCells f cells⟩ := by
    intro cells
    induction cells with
    | nil => exact fun level scopes t g _ => rfl
    | cons c cells ih =>
      intro level scopes t g hg
      have hstarts : startsLine t (f t g (c :: cells)) = startsLine t g := by
        rw [startsLine, hbreaks, startsLine]
      rw [indentFrom, Page.mk.injEq, List.cons.injEq] at hg
      obtain ⟨hlead, hc, hcells⟩ := hg
      have hrest := ih _ _ _ _ (congrArg₂ Page.mk (congrArg Cell.gap hc) hcells)
      rw [regapCells_cons, indentFrom, hstarts]
      dsimp only
      rw [hrest]
      congr 1
      split
      · rename_i hs
        rw [if_pos hs] at hlead
        have hmargin := congrArg Gap.last hlead
        dsimp only at hmargin
        rw [if_pos hs] at hmargin
        rw [hmargin, ← hlast t g c cells]
      · rfl
  exact hfrom p.cells 0 [] none p.lead hp

end Indent

/-! ## The second half of a pass -/

theorem edgeGap_some (keep fragment : Bool) (t : Option Token) (g : Gap) (u : Token) :
    edgeGap keep fragment t g (some u) = g.trim keep t (some u) := by
  simp [edgeGap]

theorem edgeGap_edgeGap (keep fragment : Bool) (t : Option Token) (g : Gap) (u : Option Token) :
    edgeGap keep fragment t (edgeGap keep fragment t g u) u = edgeGap keep fragment t g u := by
  unfold edgeGap
  split
  · rfl
  · exact Gap.trim_trim _ _ _ _

theorem Lined.trim {most : Nat} {keep : Bool} {t u : Option Token} {g : Gap}
    (h : Lined most t g u) : Lined most t (g.trim keep t u) u where
  inner := by
    intro ht hu hb
    obtain ⟨u, rfl⟩ := Option.isSome_iff_exists.1 hu
    rw [Gap.breaks_trim] at hb
    rw [Gap.last_trim]
    exact h.inner ht hu hb
  opened := by
    rw [Gap.length_ended_trim]
    exact h.opened
  closed := by
    rw [Gap.length_ended_trim]
    exact h.closed
  few := by
    rw [Gap.length_ended_trim]
    exact h.few

theorem Lined.edgeGap {most : Nat} {keep fragment : Bool} {t u : Option Token} {g : Gap}
    (h : Lined most t g u) : Lined most t (edgeGap keep fragment t g u) u := by
  unfold Page.edgeGap
  split
  · rename_i hline
    rw [Bool.and_eq_true, Bool.and_eq_true] at hline
    obtain ⟨-, ht, hu⟩ := hline
    refine ⟨fun _ hu' => ?_, fun _ => Nat.le_refl _, fun _ => Nat.le_refl _, ?_⟩
    · rw [Option.isNone_iff_eq_none] at hu
      exact absurd hu' (by simp [hu])
    · rw [limit, if_pos ht]
      exact Nat.succ_le_succ (Nat.zero_le _)
  · exact h.trim

/-- The second half of a pass gives every space its width and cuts blank lines to
size. -/
theorem each_lined_finish (style : Style) (p : Page) :
    (p.finish style).Each (Lined style.maxBlankLines) := by
  have hlines : (p.touch (lineGap style.maxBlankLines)).Each (Lined style.maxBlankLines) :=
    each_touch (lined_lineGap _) p
  have hindent := hlines.indent (i := style.indent) fun t g u s hstarts h =>
    ⟨fun ht _ hb => absurd (hb.symm.trans (breaks_of_startsLine ht hstarts)) (by decide),
      h.opened, h.closed, h.few⟩
  exact hindent.touch fun t g u h => h.edgeGap

/-- The second half of a pass cleans up the ends of all lines. -/
theorem each_edged_finish (style : Style) (p : Page) :
    (p.finish style).Each fun t g u =>
      edgeGap (style.trim == .nonblankLines) style.fragment t g u = g :=
  each_touch (edgeGap_edgeGap _ _) _

/-- The second half of a pass leaves every line indented. -/
theorem indent_finish (style : Style) (p : Page) :
    (p.finish style).indent style.indent = p.finish style :=
  indent_regap_eq_self (indent_indent _)
    (fun t g c cells => by rw [next_cons, edgeGap_some, Gap.breaks_trim])
    (fun t g c cells => by rw [next_cons, edgeGap_some, Gap.last_trim])

/-- **The second half of a pass settles at once.** -/
theorem finish_finish (style : Style) (p : Page) :
    (p.finish style).finish style = p.finish style := by
  conv_lhs => rw [finish]
  rw [touch_eq_self (each_lined_finish style p) fun t g u => lineGap_eq_self, indent_finish,
    touch_eq_self (each_edged_finish style p) fun t g u => id]

/-- The second half of a pass leaves spaces between code tokens alone, but for
their width. -/
theorem Each.spaced_finish {p : Page} (hp : p.Each Spaced) (style : Style) :
    (p.finish style).Each Spaced := by
  have hlines : (p.touch (lineGap style.maxBlankLines)).Each Spaced := by
    refine hp.touch fun t g u h => h.congr fun ht hu hb => ?_
    obtain ⟨t, rfl⟩ := Option.isSome_iff_exists.1 ht
    rw [breaks_lineGap] at hb
    obtain ⟨s, rfl⟩ := Gap.exists_of_not_breaks hb
    refine ⟨rfl, ?_⟩
    rw [last_lineGap, hu]
    cases s <;> rfl
  have hindent := hlines.indent (i := style.indent) fun t g u s hstarts _ ht _ hb =>
    absurd (hb.symm.trans (breaks_of_startsLine ht hstarts)) (by decide)
  refine hindent.touch fun t g u h => h.congr fun ht hu hb => ?_
  obtain ⟨u, rfl⟩ := Option.isSome_iff_exists.1 hu
  rw [edgeGap_some] at hb ⊢
  rw [Gap.breaks_trim] at hb
  exact ⟨hb, by rw [Gap.last_trim]⟩

/-- **After a pass every space between code tokens is as the rules want it.** -/
theorem spaced_pass (style : Style) (p : Page) : (p.pass style).Each Spaced := by
  have hspaces : ((p.regap (braceGap style.allman)).touch spaceGap).Each Spaced :=
    each_touch spaced_spaceGap _
  unfold pass
  dsimp only
  split
  · exact (hspaces.dropSemicolons fun t g u => Spaced.of_breaks).spaced_finish style
  · exact hspaces.spaced_finish style

/-! ## Outlines -/

theorem outline_finish (style : Style) (p : Page) : (p.finish style).outline = p.outline := by
  rw [finish, touch, outline_regap fun t g c cells => by
      rw [next_cons, edgeGap_some, Gap.breaks_trim],
    outline_indent, touch, outline_regap fun t g c cells => breaks_lineGap _ t g _]

namespace Mark

/-- The outline with every brace where the style wants it. -/
def braceMarks (allman : Bool) : List Mark → List Mark := if allman then wrapMarks else joinMarks

/-- What a pass does to an outline. -/
def pass (style : Style) (ms : List Mark) : List Mark :=
  let ms := braceMarks style.allman ms
  if style.experimental then dropMarks ms else ms

theorem length_braceMarks (allman : Bool) (ms : List Mark) :
    (braceMarks allman ms).length = ms.length := by
  cases allman with
  | true =>
    show (wrapMarks ms).length = _
    induction ms with
    | nil => rfl
    | cons m ms ih => rw [wrapMarks, List.length_cons, ih, List.length_cons]
  | false =>
    show (joinMarks ms).length = _
    induction ms with
    | nil => rfl
    | cons m ms ih => rw [joinMarks, List.length_cons, ih, List.length_cons]

/-- An outline that a pass leaves alone is left alone by the rule on braces and by
the rule on semicolons. -/
theorem pass_eq_self_iff (style : Style) (ms : List Mark) :
    pass style ms = ms ↔
      braceMarks style.allman ms = ms ∧ (style.experimental = true → dropMarks ms = ms) := by
  have hlength := length_braceMarks style.allman ms
  unfold pass
  constructor
  · intro h
    split at h
    · have hdrop := dropMarks_eq_self ((congrArg List.length h).trans hlength.symm)
      have hbraces := hdrop.symm.trans h
      rw [hbraces] at h
      exact ⟨hbraces, fun _ => h⟩
    · rename_i hex
      exact ⟨h, fun hex' => absurd hex' hex⟩
  · rintro ⟨hbraces, hdrop⟩
    rw [hbraces]
    split
    · exact hdrop ‹_›
    · rfl

end Mark

theorem outline_braces (allman : Bool) {p : Page} (hp : p.NoOpenEnd) :
    (p.regap (braceGap allman)).outline = Mark.braceMarks allman p.outline := by
  cases allman with
  | true => exact outline_wrap hp
  | false => exact outline_join p

theorem regap_braces_eq_self {allman : Bool} {p : Page}
    (h : Mark.braceMarks allman p.outline = p.outline) : p.regap (braceGap allman) = p := by
  cases allman with
  | true => exact regap_wrap_eq_self h
  | false => exact regap_join_eq_self h

/-- **A pass on a page is a pass on its outline.** -/
theorem outline_pass (style : Style) {p : Page} (hp : p.NoOpenEnd) :
    (p.pass style).outline = Mark.pass style p.outline := by
  have hbraces : ((p.regap (braceGap style.allman)).touch spaceGap).outline =
      Mark.braceMarks style.allman p.outline := by
    rw [touch, outline_regap fun t g c cells => breaks_spaceGap _ g _, outline_braces _ hp]
  unfold pass Mark.pass
  rw [outline_finish]
  split
  · rw [outline_dropSemicolons, hbraces]
  · rw [hbraces]

/-- **After one pass, another pass changes a page exactly if it changes its
outline.** -/
theorem pass_pass_eq_iff (style : Style) {p : Page} (hp : (p.pass style).NoOpenEnd) :
    (p.pass style).pass style = p.pass style ↔
      Mark.pass style (p.pass style).outline = (p.pass style).outline := by
  constructor
  · intro h
    rw [← outline_pass style hp, h]
  · intro h
    rw [Mark.pass_eq_self_iff] at h
    have hbraces : (p.pass style).regap (braceGap style.allman) = p.pass style :=
      regap_braces_eq_self h.1
    have hspaces : (p.pass style).touch spaceGap = p.pass style :=
      touch_eq_self (spaced_pass style p) fun t g u => spaceGap_eq_self
    have hsemicolons : (if style.experimental then (p.pass style).dropSemicolons
        else p.pass style) = p.pass style := by
      split
      · exact dropSemicolons_eq_self (h.2 ‹_›)
      · rfl
    conv_lhs => rw [pass]
    rw [hbraces, hspaces, hsemicolons]
    exact finish_finish style _

end Page
end Restyle
