import Restyle.Proofs.Page.Lines

/-!
# Outlines of pages

Most rules settle at once.  The two that do not are the rule on semicolons, which
may have to be applied again and again, and the rule on braces, which may wait for
it.  Both see no more of a page than its outline: the code tokens, each with
whether it is the last one of its line.

* `Page.dropSemicolons`: the rule on semicolons on a page.  Where a semicolon goes,
  two gaps become one.
* `Page.outline`, and the two rules on outlines: `dropMarks`, and `joinMarks` or
  `wrapMarks` by the style.
* `outline_dropSemicolons`, `outline_join`, `outline_wrap`: the outline of a page
  after a rule is what the rule makes of its outline.  `outline_regap` and
  `outline_indent`: no other rule changes the outline.
* `dropSemicolons_eq_self`, `regap_join_eq_self`, `regap_wrap_eq_self`: a rule that
  leaves the outline alone leaves the page alone.
-/

namespace Restyle

open Token

theorem Gap.breaks_append (g h : Gap) : (g.append h).breaks = (g.breaks || h.breaks) := by
  obtain ⟨ended, s⟩ := g
  obtain ⟨ended', s'⟩ := h
  cases ended <;> cases ended' <;> rfl

namespace Page

variable {eol : String}

/-! ## Semicolons on a page -/

/-- Whether the rule on semicolons removes the code token of the cell, if it is a
semicolon: nothing else follows it on its line. -/
def endsLine (c : Cell) (cells : List Cell) : Bool := c.gap.breaks || cells.isEmpty

/-- A gap and the cells after it, without the semicolons that end a line. -/
def dropFrom (g : Gap) : List Cell → Page
  | [] => ⟨g, []⟩
  | c :: cells =>
    let rest := dropFrom c.gap cells
    if Semicolons.isSemicolon c.code && endsLine c cells then ⟨g.append rest.lead, rest.cells⟩
    else ⟨g, ⟨c.code, rest.lead, c.isCode⟩ :: rest.cells⟩

/-- The page without the semicolons that end a line. -/
def dropSemicolons (p : Page) : Page := dropFrom p.lead p.cells

theorem endsLine_weave_cell (c : Cell) (cells : List Cell) :
    Semicolons.endsLine (weave eol c.gap cells) = endsLine c cells := by
  obtain ⟨code, ⟨ended, s⟩, hcode⟩ := c
  unfold Semicolons.endsLine
  cases ended with
  | nil =>
    rw [dropWhile_isSpace_weave_nil]
    cases cells with
    | nil => rfl
    | cons d cells => exact isLinebreak_of_isCode d.isCode
  | cons a ended =>
    rw [dropWhile_isSpace_weave_cons]
    rfl

theorem dropTrailing_gap (g : Gap) (ts : List Token) :
    Semicolons.dropTrailing (g.tokens eol ++ ts) =
      g.tokens eol ++ Semicolons.dropTrailing ts := by
  have hgap : ∀ b ∈ g.tokens eol, b.isLayout = true := fun b => Gap.isLayout_of_mem_tokens
  revert hgap
  induction g.tokens eol with
  | nil => exact fun _ => rfl
  | cons b bs ih =>
    intro hgap
    rw [List.cons_append, Relaid.dropTrailing_cons_of_isLayout (hgap b List.mem_cons_self),
      ih fun d hd => hgap d (List.mem_cons_of_mem _ hd), List.cons_append]

theorem read_dropTrailing_weave (g : Gap) (cells : List Cell) :
    read (Semicolons.dropTrailing (weave eol g cells)) = dropFrom g cells := by
  induction cells generalizing g with
  | nil =>
    have hgap : Semicolons.dropTrailing (g.tokens eol ++ []) = g.tokens eol ++ [] :=
      dropTrailing_gap g []
    rw [List.append_nil] at hgap
    rw [weave_nil, hgap, ← weave_nil, read_weave]
    rfl
  | cons c cells ih =>
    rw [weave_cons, dropTrailing_gap, Semicolons.dropTrailing, endsLine_weave_cell, dropFrom]
    split
    · rw [read_gap, ih]
    · rw [read_gap, read, cons_of_isCode c.isCode, ih, Gap.append_empty]

theorem mem_of_mem_dropTrailing {t : Token} {ts : List Token}
    (h : t ∈ Semicolons.dropTrailing ts) : t ∈ ts := by
  induction ts with
  | nil => exact h
  | cons u ts ih =>
    rw [Semicolons.dropTrailing] at h
    split at h
    · exact List.mem_cons_of_mem _ (ih h)
    · rcases List.mem_cons.1 h with rfl | h
      · exact List.mem_cons_self
      · exact List.mem_cons_of_mem _ (ih h)

/-- No semicolon at the end of a line, and the spaces around it joined. -/
theorem dropTrailing_tokens (p : Page) :
    Spacing.joinSpaces (Semicolons.dropTrailing (p.tokens eol)) =
      p.dropSemicolons.tokens eol := by
  have hread := tokens_read eol (Semicolons.dropTrailing (p.tokens eol))
  rw [unify_eq_self fun t ht => eq_of_mem_tokens (mem_of_mem_dropTrailing ht)] at hread
  rw [← hread]
  exact congrArg (Page.tokens eol) (read_dropTrailing_weave p.lead p.cells)

/-- A gap in which a line ends stays one. -/
theorem breaks_lead_dropFrom {g : Gap} (h : g.breaks = true) (cells : List Cell) :
    (dropFrom g cells).lead.breaks = true := by
  cases cells with
  | nil => exact h
  | cons c cells =>
    rw [dropFrom]
    split
    · rw [Gap.breaks_append, h, Bool.true_or]
    · exact h

/-- What holds of every gap holds after semicolons have gone, if it holds of every
gap in which a line or the text ends: these are the gaps that come about. -/
theorem Each.dropSemicolons {P : Option Token → Gap → Option Token → Prop} {p : Page}
    (hp : p.Each P) (hends : ∀ t g u, g.breaks = true ∨ u = none → P t g u) :
    p.dropSemicolons.Each P := by
  have hfrom : ∀ (cells : List Cell) (t : Option Token) (g : Gap), EachFrom P t g cells →
      EachFrom P t (dropFrom g cells).lead (dropFrom g cells).cells := by
    intro cells
    induction cells with
    | nil => exact fun t g h => h
    | cons c cells ih =>
      intro t g h
      have hrest := ih (some c.code) c.gap h.2
      rw [dropFrom]
      split
      · rename_i hdrop
        rw [Bool.and_eq_true, endsLine, Bool.or_eq_true] at hdrop
        have hhead : P t (g.append (dropFrom c.gap cells).lead)
            (next (dropFrom c.gap cells).cells) := by
          refine hends _ _ _ ?_
          rcases hdrop.2 with hbreaks | hempty
          · left
            rw [Gap.breaks_append, breaks_lead_dropFrom hbreaks, Bool.or_true]
          · right
            rw [List.isEmpty_iff.1 hempty]
            rfl
        revert hrest hhead
        cases (dropFrom c.gap cells).cells with
        | nil => exact fun _ hhead => hhead
        | cons d rest => exact fun hrest hhead => ⟨hhead, hrest.2⟩
      · exact ⟨h.1, hrest⟩
  exact hfrom p.cells none p.lead hp

/-! ## Outlines -/

/-- A code token, and whether it is the last one of its line. -/
structure Mark where
  /-- The code token. -/
  code : Token
  /-- Whether nothing else follows it on its line. -/
  ends : Bool
deriving Repr, DecidableEq

/-- The outline of some cells. -/
def marks : List Cell → List Mark
  | [] => []
  | c :: cells => ⟨c.code, endsLine c cells⟩ :: marks cells

@[simp] theorem marks_nil : marks [] = [] := rfl

@[simp] theorem marks_cons (c : Cell) (cells : List Cell) :
    marks (c :: cells) = ⟨c.code, endsLine c cells⟩ :: marks cells := rfl

/-- The code tokens of a page, each with whether it is the last one of its line. -/
def outline (p : Page) : List Mark := marks p.cells

namespace Mark

/-- A semicolon at the end of a line. -/
def drops (m : Mark) : Bool := Semicolons.isSemicolon m.code && m.ends

/-- Whether the first mark, if there is one, satisfies `q`. -/
def nextIs (q : Mark → Bool) : List Mark → Bool
  | [] => false
  | m :: _ => q m

@[simp] theorem nextIs_nil (q : Mark → Bool) : nextIs q [] = false := rfl

@[simp] theorem nextIs_cons (q : Mark → Bool) (m : Mark) (ms : List Mark) :
    nextIs q (m :: ms) = q m := rfl

/-- An opening brace. -/
def opens (m : Mark) : Bool := m.code.opens openBrace

/-- The outline without the semicolons that end a line. -/
def dropMarks : List Mark → List Mark
  | [] => []
  | m :: ms =>
    if m.drops then dropMarks ms else ⟨m.code, m.ends || nextIs drops ms⟩ :: dropMarks ms

/-- The outline with every brace on the line of its head. -/
def joinMarks : List Mark → List Mark
  | [] => []
  | m :: ms => ⟨m.code, m.ends && !(m.code.endsBlockHead && nextIs opens ms)⟩ :: joinMarks ms

/-- The outline with every brace on a line of its own that is the last token of its
line. -/
def wrapMarks : List Mark → List Mark
  | [] => []
  | m :: ms =>
    ⟨m.code, m.ends || (m.code.endsBlockHead && nextIs (fun n => n.opens && n.ends) ms)⟩ ::
      wrapMarks ms

end Mark

/-- A change of gaps under which lines end where they did. -/
theorem outline_regap {f : Option Token → Gap → List Cell → Gap}
    (h : ∀ t g c cells, (f (some t) g (c :: cells)).breaks = g.breaks) (p : Page) :
    (p.regap f).outline = p.outline := by
  have hmarks : ∀ cells : List Cell, marks (regapCells f cells) = marks cells := by
    intro cells
    induction cells with
    | nil => rfl
    | cons c cells ih =>
      rw [regapCells_cons, marks_cons, ih, marks_cons]
      cases cells with
      | nil => simp [endsLine]
      | cons d cells => simp [endsLine, h]
  exact hmarks p.cells

theorem outline_indent (i : Indent) (p : Page) : (p.indent i).outline = p.outline := by
  have hfrom : ∀ (cells : List Cell) (level : Nat) (scopes : List Nat) (t : Option Token) (g : Gap),
      (indentFrom i level scopes t g cells).lead.breaks = g.breaks ∧
        marks (indentFrom i level scopes t g cells).cells = marks cells ∧
        (indentFrom i level scopes t g cells).cells.isEmpty = cells.isEmpty := by
    intro cells
    induction cells with
    | nil => exact fun level scopes t g => ⟨rfl, rfl, rfl⟩
    | cons c cells ih =>
      intro level scopes t g
      rw [indentFrom]
      obtain ⟨hlead, hmarks, hempty⟩ := ih
        (if startsLine t g then Indentation.levelOf scopes c.code else level)
        (Indentation.scopesAfter
          (if startsLine t g then Indentation.levelOf scopes c.code else level) scopes [c.code])
        (some c.code) c.gap
      refine ⟨?_, ?_, rfl⟩
      · dsimp only
        split <;> rfl
      · rw [marks_cons, marks_cons, hmarks]
        simp only [endsLine, hlead, hempty]
  exact (hfrom p.cells 0 [] none p.lead).2.1

/-! ## Semicolons -/

/-- A line ends after the gap at which semicolons are dropped, if one ended there
before or a semicolon is dropped that ended one. -/
theorem breaks_dropFrom (g : Gap) (cells : List Cell) :
    ((dropFrom g cells).lead.breaks || (dropFrom g cells).cells.isEmpty) =
      ((g.breaks || cells.isEmpty) || Mark.nextIs Mark.drops (marks cells)) := by
  induction cells generalizing g with
  | nil => simp [dropFrom, Mark.nextIs]
  | cons c cells ih =>
    have hrest := ih c.gap
    rw [dropFrom, marks_cons, Mark.nextIs, Mark.drops]
    split
    · rename_i hdrop
      rw [Bool.and_eq_true, endsLine] at hdrop
      rw [hdrop.2, Bool.true_or] at hrest
      rw [Gap.breaks_append, Bool.or_assoc, hrest, endsLine, hdrop.1, hdrop.2]
      simp
    · rename_i hdrop
      simp [show (Semicolons.isSemicolon c.code && endsLine c cells) = false by simpa using hdrop]

theorem outline_dropSemicolons (p : Page) :
    p.dropSemicolons.outline = Mark.dropMarks p.outline := by
  have hfrom : ∀ (cells : List Cell) (g : Gap),
      marks (dropFrom g cells).cells = Mark.dropMarks (marks cells) := by
    intro cells
    induction cells with
    | nil => exact fun g => rfl
    | cons c cells ih =>
      intro g
      rw [dropFrom, marks_cons, Mark.dropMarks, Mark.drops]
      split
      · exact ih c.gap
      · rw [marks_cons, ih, endsLine, breaks_dropFrom]
        rfl
  exact hfrom p.cells p.lead

theorem Mark.length_dropMarks_le (ms : List Mark) : (dropMarks ms).length ≤ ms.length := by
  induction ms with
  | nil => exact Nat.le_refl _
  | cons m ms ih =>
    rw [dropMarks]
    split
    · exact Nat.le_succ_of_le ih
    · simpa using ih

/-- An outline that keeps its length has no semicolon to drop. -/
theorem Mark.dropMarks_cons_of_length {m : Mark} {ms : List Mark}
    (h : (dropMarks (m :: ms)).length = (m :: ms).length) :
    m.drops = false ∧ (dropMarks ms).length = ms.length := by
  have hle := length_dropMarks_le ms
  rw [dropMarks, List.length_cons] at h
  split at h
  · omega
  · rename_i hdrops
    exact ⟨by simpa using hdrops, by simpa using h⟩

theorem Mark.dropMarks_eq_self {ms : List Mark} (h : (dropMarks ms).length = ms.length) :
    dropMarks ms = ms := by
  induction ms with
  | nil => rfl
  | cons m ms ih =>
    obtain ⟨hm, hms⟩ := dropMarks_cons_of_length h
    have hnext : nextIs drops ms = false := by
      cases ms with
      | nil => rfl
      | cons n ms => exact (dropMarks_cons_of_length hms).1
    rw [dropMarks, hm, if_neg (by decide), hnext, Bool.or_false, ih hms]

theorem dropSemicolons_eq_self {p : Page} (h : Mark.dropMarks p.outline = p.outline) :
    p.dropSemicolons = p := by
  have hfrom : ∀ (cells : List Cell) (g : Gap),
      (Mark.dropMarks (marks cells)).length = (marks cells).length →
        dropFrom g cells = ⟨g, cells⟩ := by
    intro cells
    induction cells with
    | nil => exact fun g _ => rfl
    | cons c cells ih =>
      intro g hlength
      obtain ⟨hc, hcells⟩ := Mark.dropMarks_cons_of_length hlength
      have hdrop : (Semicolons.isSemicolon c.code && endsLine c cells) = false := hc
      rw [dropFrom, hdrop, if_neg (by decide), ih c.gap hcells]
  exact hfrom p.cells p.lead (congrArg List.length h)

/-! ## Braces -/

theorem nextIs_opens_marks (cells : List Cell) :
    Mark.nextIs Mark.opens (marks cells) =
      Spacing.thereIs (Token.opens openBrace) (next cells) := by
  cases cells <;> rfl

theorem breaks_joinGap (t : Token) (g : Gap) (cells : List Cell) :
    (joinGap (some t) g cells).breaks =
      (g.breaks && !(t.endsBlockHead && Spacing.thereIs (Token.opens openBrace) (next cells))) := by
  unfold joinGap atBrace
  rw [Spacing.thereIs]
  split <;> rename_i h
  · rw [Bool.and_eq_true] at h
    simp [h.1]
  · cases hg : g.breaks with
    | false => rfl
    | true =>
      rw [hg, Bool.and_true] at h
      simp [h]

theorem outline_join (p : Page) : (p.regap joinGap).outline = Mark.joinMarks p.outline := by
  have hmarks : ∀ cells : List Cell,
      marks (regapCells joinGap cells) = Mark.joinMarks (marks cells) := by
    intro cells
    induction cells with
    | nil => rfl
    | cons c cells ih =>
      rw [regapCells_cons, marks_cons, ih, marks_cons, Mark.joinMarks, nextIs_opens_marks]
      cases cells with
      | nil => simp [endsLine, Spacing.thereIs]
      | cons d cells => simp [endsLine, breaks_joinGap]
  exact hmarks p.cells

/-- No opening brace is the last code token. -/
def NoOpenEnd (p : Page) : Prop := ∀ c ∈ p.cells.getLast?, c.code.opens openBrace = false

theorem breaks_wrapGap (t : Token) (g : Gap) (cells : List Cell) :
    (wrapGap (some t) g cells).breaks =
      (g.breaks || (t.endsBlockHead &&
        (Spacing.thereIs (Token.opens openBrace) (next cells) && breaksNext cells))) := by
  unfold wrapGap atBrace
  rw [Spacing.thereIs]
  split <;> rename_i h
  · simp only [Bool.and_eq_true, Bool.not_eq_true'] at h
    simp [h]
  · cases hg : g.breaks with
    | true => rfl
    | false =>
      rw [hg, Bool.not_false, Bool.true_and, Bool.and_assoc] at h
      simp only [Bool.not_eq_true] at h
      rw [h, Bool.or_false]

theorem outline_wrap {p : Page} (hp : p.NoOpenEnd) :
    (p.regap wrapGap).outline = Mark.wrapMarks p.outline := by
  have hmarks : ∀ cells : List Cell, (∀ c ∈ cells.getLast?, c.code.opens openBrace = false) →
      marks (regapCells wrapGap cells) = Mark.wrapMarks (marks cells) := by
    intro cells
    induction cells with
    | nil => exact fun _ => rfl
    | cons c cells ih =>
      intro hlast
      rw [regapCells_cons, marks_cons, marks_cons, Mark.wrapMarks]
      cases cells with
      | nil => simp [endsLine, Mark.nextIs, Mark.wrapMarks]
      | cons d cells =>
        rw [List.getLast?_cons_cons] at hlast
        rw [ih hlast]
        -- a brace that is not the last token ends its line if its gap breaks
        have hd : d.code.opens openBrace = true → endsLine d cells = d.gap.breaks := by
          intro hopens
          cases cells with
          | nil => exact absurd (hlast d rfl) (by simp [hopens])
          | cons e cells => exact Bool.or_false _
        have hnext : Mark.nextIs (fun n => n.opens && n.ends) (marks (d :: cells)) =
            (d.code.opens openBrace && d.gap.breaks) := by
          cases hopens : d.code.opens openBrace with
          | false => simp [Mark.nextIs, Mark.opens, hopens]
          | true => simp [Mark.nextIs, Mark.opens, hopens, hd]
        rw [hnext, endsLine, breaks_wrapGap]
        simp [endsLine, Spacing.thereIs, breaksNext]
  exact hmarks p.cells hp

theorem regap_join_eq_self {p : Page} (h : Mark.joinMarks p.outline = p.outline) :
    p.regap joinGap = p := by
  have hcells : ∀ cells : List Cell, Mark.joinMarks (marks cells) = marks cells →
      regapCells joinGap cells = cells := by
    intro cells
    induction cells with
    | nil => exact fun _ => rfl
    | cons c cells ih =>
      intro hmarks
      rw [marks_cons, Mark.joinMarks, List.cons.injEq, Mark.mk.injEq, nextIs_opens_marks] at hmarks
      have hgap : joinGap (some c.code) c.gap cells = c.gap := by
        refine if_neg fun hmoves => ?_
        rw [Bool.and_eq_true, atBrace, Spacing.thereIs] at hmoves
        rw [endsLine, hmoves.1, hmoves.2] at hmarks
        exact absurd hmarks.1.2 (by simp)
      rw [regapCells_cons, hgap, ih hmarks.2]
  exact congrArg (Page.mk p.lead) (hcells p.cells h)

theorem regap_wrap_eq_self {p : Page} (h : Mark.wrapMarks p.outline = p.outline) :
    p.regap wrapGap = p := by
  have hcells : ∀ cells : List Cell, Mark.wrapMarks (marks cells) = marks cells →
      regapCells wrapGap cells = cells := by
    intro cells
    induction cells with
    | nil => exact fun _ => rfl
    | cons c cells ih =>
      intro hmarks
      rw [marks_cons, Mark.wrapMarks, List.cons.injEq, Mark.mk.injEq] at hmarks
      have hgap : wrapGap (some c.code) c.gap cells = c.gap := by
        refine if_neg fun hmoves => ?_
        cases cells with
        | nil => simp [atBrace, Spacing.thereIs] at hmoves
        | cons d cells =>
          simp only [atBrace, Spacing.thereIs, next_cons, breaksNext, Bool.and_eq_true,
            Bool.not_eq_true'] at hmoves
          obtain ⟨⟨hhead, hopens⟩, hbreaks, hnext⟩ := hmoves
          have hends := hmarks.1.2
          simp [endsLine, hbreaks, hhead, Mark.nextIs, Mark.opens, hopens, hnext] at hends
      rw [regapCells_cons, hgap, ih hmarks.2]
  exact congrArg (Page.mk p.lead) (hcells p.cells h)

end Page
end Restyle
