import Restyle.Proofs.Page.Lines

/-!
# From places in a text to gaps

The statements that a reader makes about a formatted text are about places in it:
about what stands before and after a token, or about the lines of the text.  The
statements that the rules bring about are about gaps.  This file leads from the
first to the second.

* `Token.lines` are the lines of a list of tokens; `exists_of_lines_eq_append` and
  `exists_of_lines_eq_cons` find them in the list.
* `Page.HasGap` is what it means to be a gap of a page.
* `exists_gap`: blanks that stand together in the tokens of a page lie in one gap.
-/

namespace Restyle

open Token

/-! ## Lines -/

namespace Token

/-- The lines of a list of tokens, without the linebreaks.  What follows the last
linebreak is a line too. -/
def lines (ts : List Token) : List (List Token) := ts.splitOnP isLinebreak

@[simp] theorem lines_nil : lines [] = [[]] := List.splitOnP_nil

theorem lines_ne_nil (ts : List Token) : lines ts ≠ [] := List.splitOnP_ne_nil _ ts

theorem lines_cons_of_isLinebreak {t : Token} (h : t.isLinebreak = true) (ts : List Token) :
    lines (t :: ts) = [] :: lines ts := by
  rw [lines, List.splitOnP_cons_eq_if_modifyHead, if_pos h, lines]

theorem lines_cons_of_not_isLinebreak {t : Token} (h : t.isLinebreak = false) (ts : List Token) :
    lines (t :: ts) = (lines ts).modifyHead (t :: ·) := by
  rw [lines, List.splitOnP_cons_eq_if_modifyHead, if_neg (by simp [h]), lines]

theorem length_lines (ts : List Token) : (lines ts).length = ts.countP isLinebreak + 1 := by
  induction ts with
  | nil => rfl
  | cons t ts ih =>
    cases h : t.isLinebreak with
    | true => rw [lines_cons_of_isLinebreak h, List.length_cons, ih, List.countP_cons_of_pos h]
    | false =>
      rw [lines_cons_of_not_isLinebreak h, List.length_modifyHead, ih,
        List.countP_cons_of_neg (by simp [h])]

/-- A token that is not a linebreak stands in a line. -/
theorem exists_mem_lines {t : Token} {ts : List Token} (ht : t ∈ ts)
    (hbreak : t.isLinebreak = false) : ∃ line ∈ lines ts, t ∈ line := by
  induction ts with
  | nil => exact absurd ht (by simp)
  | cons u ts ih =>
    cases hu : u.isLinebreak with
    | true =>
      rw [lines_cons_of_isLinebreak hu]
      rcases List.mem_cons.1 ht with rfl | ht
      · exact absurd hu (by simp [hbreak])
      · obtain ⟨line, hline, hmem⟩ := ih ht
        exact ⟨line, List.mem_cons_of_mem _ hline, hmem⟩
    | false =>
      rw [lines_cons_of_not_isLinebreak hu]
      obtain ⟨first, more, hlines⟩ := List.exists_cons_of_ne_nil (lines_ne_nil ts)
      rw [hlines, List.modifyHead_cons]
      rw [hlines] at ih
      rcases List.mem_cons.1 ht with rfl | ht
      · exact ⟨t :: first, List.mem_cons_self, List.mem_cons_self⟩
      · obtain ⟨line, hline, hmem⟩ := ih ht
        rcases List.mem_cons.1 hline with rfl | hline
        · exact ⟨u :: line, List.mem_cons_self, List.mem_cons_of_mem _ hmem⟩
        · exact ⟨line, List.mem_cons_of_mem _ hline, hmem⟩

/-- **The first line of a text** holds no linebreak, and one follows it if there are
more lines. -/
theorem exists_of_lines_eq_cons {ts line : List Token} {more : List (List Token)}
    (h : lines ts = line :: more) :
    (∀ t ∈ line, t.isLinebreak = false) ∧
      ((more = [] ∧ ts = line) ∨
        ∃ lb after, lb.isLinebreak = true ∧ ts = line ++ lb :: after ∧ lines after = more) := by
  induction ts generalizing line with
  | nil =>
    rw [lines_nil, List.cons.injEq] at h
    obtain ⟨rfl, rfl⟩ := h
    exact ⟨by simp, Or.inl ⟨rfl, rfl⟩⟩
  | cons t ts ih =>
    cases ht : t.isLinebreak with
    | true =>
      rw [lines_cons_of_isLinebreak ht, List.cons.injEq] at h
      obtain ⟨rfl, hmore⟩ := h
      exact ⟨by simp, Or.inr ⟨t, ts, ht, rfl, hmore⟩⟩
    | false =>
      rw [lines_cons_of_not_isLinebreak ht] at h
      obtain ⟨first, rest, hlines⟩ := List.exists_cons_of_ne_nil (lines_ne_nil ts)
      rw [hlines, List.modifyHead_cons, List.cons.injEq] at h
      obtain ⟨rfl, rfl⟩ := h
      obtain ⟨hfirst, hrest⟩ := ih hlines
      refine ⟨List.forall_mem_cons.2 ⟨ht, hfirst⟩, ?_⟩
      rcases hrest with ⟨hrest, rfl⟩ | ⟨lb, after, hlb, rfl, hafter⟩
      · exact Or.inl ⟨hrest, rfl⟩
      · exact Or.inr ⟨lb, after, hlb, rfl, hafter⟩

/-- **A text is cut between two of its lines.**  Each of the lines before the cut is
ended by a linebreak. -/
theorem exists_of_lines_eq_append {ts : List Token} {earlier later : List (List Token)}
    (h : lines ts = earlier ++ later) (hlater : later ≠ []) :
    ∃ before after, ts = before ++ after ∧ lines after = later ∧ lines before = earlier ++ [[]] ∧
      Spacing.isLineEdge before.getLast? = true := by
  induction earlier generalizing ts with
  | nil => exact ⟨[], ts, rfl, h, rfl, rfl⟩
  | cons line earlier ih =>
    rw [List.cons_append] at h
    obtain ⟨hline, ⟨hnil, -⟩ | ⟨lb, rest, hlb, rfl, hrest⟩⟩ := exists_of_lines_eq_cons h
    · exact absurd (List.append_eq_nil_iff.1 hnil).2 hlater
    · obtain ⟨before, after, rfl, hafter, hbefore, hedge⟩ := ih hrest
      refine ⟨line ++ lb :: before, after, by simp, hafter, ?_, ?_⟩
      · have hlines : lines (line ++ lb :: before) = lines line ++ lines before :=
          List.splitOnP_append_cons line before hlb
        rw [hlines, hbefore, lines, List.splitOnP_eq_singleton hline]
        rfl
      · rw [List.getLast?_append]
        cases before with
        | nil => simpa [Spacing.isLineEdge] using hlb
        | cons b before =>
          rw [List.getLast?_cons_cons]
          obtain ⟨last, hlast⟩ : ∃ last, (b :: before).getLast? = some last :=
            ⟨_, List.getLast?_eq_some_getLast (by simp)⟩
          rw [hlast] at hedge ⊢
          exact hedge

/-- A line of a text, with what stands before and after it. -/
theorem exists_of_mem_lines {ts line : List Token} (h : line ∈ lines ts) :
    ∃ before after, ts = before ++ (line ++ after) ∧ Spacing.isLineEdge before.getLast? = true ∧
      Spacing.isLineEdge after.head? = true ∧ ∀ t ∈ line, t.isLinebreak = false := by
  obtain ⟨earlier, later, hlines⟩ := List.append_of_mem h
  obtain ⟨before, rest, rfl, hrest, -, hedge⟩ := exists_of_lines_eq_append hlines (by simp)
  obtain ⟨hline, ⟨-, rfl⟩ | ⟨lb, after, hlb, rfl, -⟩⟩ := exists_of_lines_eq_cons hrest
  · exact ⟨before, [], by simp, hedge, rfl, hline⟩
  · exact ⟨before, lb :: after, rfl, hedge, hlb, hline⟩

/-- A line of a text and the next one, with what stands before and after them. -/
theorem exists_of_infix_lines {ts line next : List Token} (h : [line, next] <:+: lines ts) :
    ∃ before lb after, ts = before ++ (line ++ lb :: (next ++ after)) ∧ lb.isLinebreak = true ∧
      Spacing.isLineEdge before.getLast? = true ∧ Spacing.isLineEdge after.head? = true := by
  obtain ⟨earlier, later, hlines⟩ := h
  rw [List.append_assoc] at hlines
  obtain ⟨before, rest, rfl, hrest, -, hedge⟩ := exists_of_lines_eq_append hlines.symm (by simp)
  obtain ⟨-, ⟨hnil, -⟩ | ⟨lb, rest', hlb, rfl, hrest'⟩⟩ := exists_of_lines_eq_cons hrest
  · exact absurd hnil (by simp)
  · obtain ⟨-, ⟨-, rfl⟩ | ⟨lb', after, hlb', rfl, -⟩⟩ := exists_of_lines_eq_cons hrest'
    · exact ⟨before, lb, [], by simp, hlb, hedge, rfl⟩
    · exact ⟨before, lb, lb' :: after, rfl, hlb, hedge, hlb'⟩

/-- Lines that follow on each other, each ended by a linebreak, as tokens. -/
theorem exists_of_infix_dropLast {ts : List Token} {run : List (List Token)}
    (h : run <:+: (lines ts).dropLast) :
    ∃ before blanks after, ts = before ++ (blanks ++ after) ∧
      Spacing.isLineEdge before.getLast? = true ∧ lines blanks = run ++ [[]] := by
  obtain ⟨earlier, later, hrun⟩ := h
  have hlines : lines ts =
      earlier ++ (run ++ (later ++ [(lines ts).getLast (lines_ne_nil ts)])) := by
    rw [← List.append_assoc, ← List.append_assoc, hrun, List.dropLast_append_getLast]
  obtain ⟨before, rest, rfl, hrest, -, hedge⟩ := exists_of_lines_eq_append hlines (by simp)
  obtain ⟨blanks, after, rfl, -, hblanks, -⟩ := exists_of_lines_eq_append hrest (by simp)
  exact ⟨before, blanks, after, rfl, hedge, hblanks⟩

end Token

/-! ## Gaps of a page -/

namespace Gap

variable {eol : String} {g : Gap}

theorem countP_tokens (eol : String) (g : Gap) :
    (g.tokens eol).countP isLinebreak = g.ended.length := by
  have hspace : ∀ s : Option String, (space s).countP isLinebreak = 0 := by
    rintro (_ | s) <;> rfl
  obtain ⟨ended, s⟩ := g
  induction ended with
  | nil => exact hspace s
  | cons a ended ih =>
    rw [tokens_cons, List.countP_append, hspace, List.countP_cons_of_pos rfl, ih, Nat.zero_add]
    rfl

/-- **Where a space of a gap stands**: before a linebreak, or at the end. -/
theorem exists_of_tokens_eq_space {s : Token} {front back : List Token}
    (h : g.tokens eol = front ++ s :: back) (hs : s.isSpace = true) :
    (∃ earlier later, g.ended = earlier ++ some s.text :: later ∧
        front = tokens eol ⟨earlier, none⟩) ∨
      (g.last = some s.text ∧ front = tokens eol ⟨g.ended, none⟩ ∧ back = []) := by
  obtain ⟨ended, last⟩ := g
  induction ended generalizing front with
  | nil =>
    right
    cases last with
    | none => simp at h
    | some text =>
      rw [tokens_nil, space_some, List.singleton_eq_append_iff] at h
      rcases h with ⟨rfl, h⟩ | ⟨-, h⟩
      · rw [List.cons.injEq] at h
        obtain ⟨rfl, rfl⟩ := h
        exact ⟨rfl, rfl, rfl⟩
      · exact absurd h (by simp)
  | cons a ended ih =>
    have hrest : ∀ front', tokens eol ⟨ended, last⟩ = front' ++ s :: back →
        front = space a ++ ⟨.linebreak, eol⟩ :: front' →
        (∃ earlier later, a :: ended = earlier ++ some s.text :: later ∧
            front = tokens eol ⟨earlier, none⟩) ∨
          (last = some s.text ∧ front = tokens eol ⟨a :: ended, none⟩ ∧ back = []) := by
      rintro front' htokens rfl
      rcases ih htokens with ⟨earlier, later, hended, rfl⟩ | ⟨hlast, rfl, hback⟩
      · exact Or.inl ⟨a :: earlier, later, congrArg (a :: ·) hended, (tokens_cons ..).symm⟩
      · exact Or.inr ⟨hlast, (tokens_cons ..).symm, hback⟩
    have hne : (⟨.linebreak, eol⟩ : Token) ≠ s := by
      rintro rfl
      exact absurd hs (by simp)
    rw [tokens_cons] at h
    cases a with
    | none =>
      cases front with
      | nil => exact absurd (List.cons.inj h).1 hne
      | cons f front =>
        obtain ⟨rfl, htokens⟩ := List.cons.inj h
        exact hrest front htokens rfl
    | some text =>
      cases front with
      | nil =>
        obtain ⟨rfl, -⟩ := List.cons.inj h
        exact Or.inl ⟨[], ended, rfl, rfl⟩
      | cons f front =>
        obtain ⟨rfl, hbreak⟩ := List.cons.inj h
        cases front with
        | nil => exact absurd (List.cons.inj hbreak).1 hne
        | cons f front =>
          obtain ⟨rfl, htokens⟩ := List.cons.inj hbreak
          exact hrest front htokens rfl

/-- The last token of the lines that end in a gap, if there are any. -/
theorem isLineEdge_getLast?_tokens (eol : String) (earlier : List (Option String)) :
    Spacing.isLineEdge (tokens eol ⟨earlier, none⟩).getLast? = true := by
  rcases List.eq_nil_or_concat earlier with rfl | ⟨init, a, rfl⟩
  · rfl
  · simp [tokens, Spacing.isLineEdge, isLinebreak]

end Gap

namespace Page

variable {eol : String} {p : Page}

/-- The page has the gap `g`, with the code token `t` before it and the cells `cells`
after it. -/
inductive HasGap (p : Page) : Option Token → Gap → List Cell → Prop
  | lead : HasGap p none p.lead p.cells
  | after {t : Option Token} {g : Gap} {c : Cell} {cells : List Cell} :
    HasGap p t g (c :: cells) → HasGap p (some c.code) c.gap cells

namespace HasGap

variable {t : Option Token} {g : Gap} {cells : List Cell}

theorem each {P : Option Token → Gap → Option Token → Prop} (h : p.HasGap t g cells)
    (hp : p.Each P) : P t g (next cells) := by
  have hfrom : EachFrom P t g cells := by
    induction h with
    | lead => exact hp
    | after _ ih => exact ih.2
  cases cells with
  | nil => exact hfrom
  | cons c cells => exact hfrom.1

theorem regap {f : Option Token → Gap → List Cell → Gap} (h : p.HasGap t g cells)
    (hp : p.regap f = p) : f t g cells = g := by
  have hfrom : f t g cells = g ∧ regapCells f cells = cells := by
    induction h with
    | lead => exact ⟨congrArg Page.lead hp, congrArg Page.cells hp⟩
    | after _ ih =>
      obtain ⟨hc, hcells⟩ := List.cons.inj ih.2
      exact ⟨congrArg Cell.gap hc, hcells⟩
  exact hfrom.1

theorem isCode {t : Token} (h : p.HasGap (some t) g cells) : t.isCode = true := by
  cases h with
  | @after _ _ c => exact c.isCode

/-- A line that starts within a gap, after a code token, starts after a linebreak of
the gap. -/
theorem countP_pos {earlier front : List Token} (h : p.HasGap earlier.getLast? g cells)
    (hsome : earlier.getLast?.isSome = true)
    (hedge : Spacing.isLineEdge (earlier ++ front).getLast? = true) :
    0 < front.countP isLinebreak := by
  obtain ⟨t, ht⟩ := Option.isSome_iff_exists.1 hsome
  rw [ht] at h
  rw [List.getLast?_append, ht] at hedge
  rcases List.eq_nil_or_concat front with rfl | ⟨init, b, rfl⟩
  · exact absurd hedge (by simp [Spacing.isLineEdge, isLinebreak_of_isCode h.isCode])
  · rw [List.concat_eq_append, List.getLast?_concat, Option.some_or] at hedge
    exact List.countP_pos_iff.2 ⟨b, by simp, hedge⟩

/-- Only the first gap has no code token before it. -/
theorem eq_cells (h : p.HasGap none g cells) : cells = p.cells := by
  cases h
  rfl

/-- Only the last gap has no code token after it. -/
theorem mem_getLast? {t : Token} (h : p.HasGap (some t) g []) :
    ∃ c ∈ p.cells.getLast?, c.code = t := by
  have hlast : ∀ {t : Option Token} {g : Gap} {cells : List Cell}, p.HasGap t g cells →
      cells ≠ [] → cells.getLast? = p.cells.getLast? := by
    intro t g cells h
    induction h with
    | lead => exact fun _ => rfl
    | @after t g c cells _ ih =>
      intro hcells
      obtain ⟨d, ds, rfl⟩ := List.exists_cons_of_ne_nil hcells
      rw [← ih (by simp), List.getLast?_cons_cons]
  cases h with
  | @after t g c cells h => exact ⟨c, by rw [← hlast h (by simp)]; rfl, rfl⟩

end HasGap

/-- Blanks at the front are found among the blanks before the first code token. -/
theorem exists_of_append_eq_weave {blanks after bs : List Token} {cells : List Cell}
    (h : blanks ++ after = bs ++ weave eol .empty cells)
    (hblanks : ∀ b ∈ blanks, b.isLayout = true) :
    ∃ back, bs = blanks ++ back ∧ after = back ++ weave eol .empty cells := by
  rcases List.append_eq_append_iff.1 h with ⟨back, hbs, hafter⟩ | ⟨more, hmore, hcells⟩
  · exact ⟨back, hbs, hafter⟩
  · cases more with
    | nil => exact ⟨[], by simpa using hmore.symm, by simpa using hcells.symm⟩
    | cons b more =>
      have hb := hblanks b (by simp [hmore])
      cases cells with
      | nil => simp at hcells
      | cons c cells =>
        rw [weave_cons, Gap.tokens_empty, List.nil_append, List.cons_append,
          List.cons.injEq] at hcells
        rw [← hcells.1, isLayout_of_isCode c.isCode] at hb
        exact absurd hb (by decide)

theorem weave_eq (g : Gap) (cells : List Cell) :
    weave eol g cells = g.tokens eol ++ weave eol .empty cells := by
  cases cells <;> simp

/-- **Blanks that stand together lie in one gap.** -/
theorem exists_gap {before blanks after : List Token}
    (h : p.tokens eol = before ++ (blanks ++ after)) (hblanks : ∀ b ∈ blanks, b.isLayout = true) :
    ∃ g cells earlier front back, p.HasGap earlier.getLast? g cells ∧ before = earlier ++ front ∧
      g.tokens eol = front ++ (blanks ++ back) ∧ after = back ++ weave eol .empty cells := by
  -- the code token before the current gap is the last one that was passed by
  have hfrom : ∀ (cells : List Cell) (g : Gap) (earlier before : List Token),
      p.HasGap earlier.getLast? g cells → weave eol g cells = before ++ (blanks ++ after) →
      ∃ g' cells' earlier' front back, p.HasGap earlier'.getLast? g' cells' ∧
        earlier ++ before = earlier' ++ front ∧ g'.tokens eol = front ++ (blanks ++ back) ∧
        after = back ++ weave eol .empty cells' := by
    intro cells
    induction cells with
    | nil =>
      intro g earlier before hgap hweave
      exact ⟨g, [], earlier, before, after, hgap, rfl, hweave, by simp⟩
    | cons c cells ih =>
      intro g earlier before hgap hweave
      rw [weave_eq] at hweave
      rcases List.append_eq_append_iff.1 hweave with ⟨passed, hbefore, hrest⟩ | ⟨bs, hg, hrest⟩
      · cases passed with
        | nil =>
          have hnil : blanks ++ after = [] ++ weave eol .empty (c :: cells) := hrest.symm
          obtain ⟨back, hback, hafter⟩ := exists_of_append_eq_weave hnil hblanks
          refine ⟨g, c :: cells, earlier, before, back, hgap, rfl, ?_, hafter⟩
          rw [← hback, hbefore, List.append_nil, List.append_nil]
        | cons d passed =>
          rw [weave_cons, Gap.tokens_empty, List.nil_append, List.cons_append,
            List.cons.injEq] at hrest
          obtain ⟨rfl, hrest⟩ := hrest
          obtain ⟨g', cells', earlier', front, back, hgap', heq, hg', hafter⟩ :=
            ih c.gap (earlier ++ g.tokens eol ++ [c.code]) passed (by simpa using hgap.after) hrest
          refine ⟨g', cells', earlier', front, back, hgap', ?_, hg', hafter⟩
          rw [hbefore, ← heq]
          simp
      · obtain ⟨back, rfl, hafter⟩ := exists_of_append_eq_weave hrest hblanks
        exact ⟨g, c :: cells, earlier, before, back, hgap, rfl, hg, hafter⟩
  exact hfrom p.cells p.lead [] before .lead h

/-- Blanks after a code token lie in the gap after it. -/
theorem exists_gap_after {t : Token} {before blanks after : List Token}
    (h : p.tokens eol = before ++ t :: (blanks ++ after)) (ht : t.isCode = true)
    (hblanks : ∀ b ∈ blanks, b.isLayout = true) :
    ∃ g cells back, p.HasGap (some t) g cells ∧ g.tokens eol = blanks ++ back ∧
      after = back ++ weave eol .empty cells := by
  have hsplit : p.tokens eol = (before ++ [t]) ++ (blanks ++ after) := by simpa using h
  obtain ⟨g, cells, earlier, front, back, hgap, hbefore, hg, hafter⟩ := exists_gap hsplit hblanks
  -- the code token is not in the gap
  obtain rfl : front = [] := by
    rcases List.eq_nil_or_concat front with hnil | ⟨init, b, rfl⟩
    · exact hnil
    · have hb : b.isLayout = true := Gap.isLayout_of_mem_tokens (g := g) (by rw [hg]; simp)
      rw [List.concat_eq_append, ← List.append_assoc] at hbefore
      obtain rfl : t = b := List.cons.inj (List.append_inj' hbefore rfl).2 |>.1
      exact absurd hb (by simp [isLayout_of_isCode ht])
  rw [List.append_nil] at hbefore
  rw [← hbefore, List.getLast?_append, List.getLast?_singleton, Option.some_or] at hgap
  exact ⟨g, cells, back, hgap, hg, hafter⟩

/-- A code token after some blanks is the next one of the page. -/
theorem exists_cell_of_cons_eq {u : Token} {after back : List Token} {cells : List Cell}
    (h : u :: after = back ++ weave eol .empty cells) (hu : u.isCode = true)
    (hback : ∀ b ∈ back, b.isLayout = true) :
    back = [] ∧ ∃ c rest, cells = c :: rest ∧ c.code = u ∧ after = weave eol c.gap rest := by
  cases back with
  | cons b back =>
    obtain ⟨rfl, -⟩ := List.cons.inj h
    exact absurd (hback u List.mem_cons_self) (by simp [isLayout_of_isCode hu])
  | nil =>
    cases cells with
    | nil => simp at h
    | cons c rest =>
      obtain ⟨hc, hafter⟩ := List.cons.inj h
      exact ⟨rfl, c, rest, rfl, hc.symm, hafter⟩

/-- Blanks before a code token lie in the gap before it. -/
theorem exists_gap_before {u : Token} {before blanks after : List Token}
    (h : p.tokens eol = before ++ (blanks ++ u :: after)) (hu : u.isCode = true)
    (hblanks : ∀ b ∈ blanks, b.isLayout = true) :
    ∃ g c cells earlier front, p.HasGap earlier.getLast? g (c :: cells) ∧ c.code = u ∧
      before = earlier ++ front ∧ g.tokens eol = front ++ blanks ∧
      after = weave eol c.gap cells := by
  obtain ⟨g, cells, earlier, front, back, hgap, hbefore, hg, hafter⟩ := exists_gap h hblanks
  obtain ⟨rfl, c, rest, rfl, hc, hrest⟩ := exists_cell_of_cons_eq hafter hu fun b hb =>
    Gap.isLayout_of_mem_tokens (g := g) (by rw [hg]; simp [hb])
  exact ⟨g, c, rest, earlier, front, hgap, hc, hbefore, by simpa using hg, hrest⟩

/-- **Blanks between two code tokens are a gap.** -/
theorem exists_gap_between {t u : Token} {before blanks after : List Token}
    (h : p.tokens eol = before ++ t :: (blanks ++ u :: after)) (ht : t.isCode = true)
    (hu : u.isCode = true) (hblanks : ∀ b ∈ blanks, b.isLayout = true) :
    ∃ g c cells, p.HasGap (some t) g (c :: cells) ∧ c.code = u ∧ g.tokens eol = blanks ∧
      after = weave eol c.gap cells := by
  obtain ⟨g, cells, back, hgap, hg, hafter⟩ := exists_gap_after h ht hblanks
  obtain ⟨rfl, c, rest, rfl, hc, hrest⟩ := exists_cell_of_cons_eq hafter hu fun b hb =>
    Gap.isLayout_of_mem_tokens (g := g) (by rw [hg]; simp [hb])
  exact ⟨g, c, rest, hgap, hc, by simpa using hg, hrest⟩

/-- Before a space that is not the first token of its line stands a code token. -/
theorem isCode_of_space {b s : Token} {before after : List Token}
    (h : p.tokens eol = before ++ b :: s :: after) (hs : s.isSpace = true)
    (hb : b.isLinebreak = false) : b.isCode = true := by
  have hchain := isChain_joinSpaces (p.tokens eol)
  rw [joinSpaces_tokens, h] at hchain
  have hspaces := hchain.right_of_append.rel
  simpa [Token.isCode, isLayout, hb, hs] using hspaces

end Page
end Restyle
