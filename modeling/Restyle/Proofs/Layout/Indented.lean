import Restyle.Proofs.Formatting.Passes
import Restyle.Proofs.Lexing.WellFormed
import Restyle.Proofs.Page.Gaps

/-!
# Indentation and scopes

The rule on indentation goes through the lines of a text and carries from line to line the levels of
the lines on which the open scopes were opened.  A reader of the result sees neither levels nor the
stack, but lines that start with more blanks or fewer, and brackets.  This file says in these terms
where every line starts: level with the line of the bracket that it closes, one unit further in than
the line of the innermost bracket that is open, or at the margin.

* `Reaches ts before scopes`: the walk over the lines of `ts` comes to the line after `before` with
  the levels `scopes`.  It comes to every line (`exists_reaches`).
* `lineAt_of_reaches`: the line that is written then.
* `leaves_of_reaches`: the levels that the walk has with it are those of the brackets that are open.
  A level is told by the blanks with which the line of the bracket starts in the result.
* `indented_indent`: how the lines of a text are indented, for every text and every style.
-/

namespace Restyle

open Token

namespace Token

/-! ## Lines and their numbers -/

/-- The line with a number; the first line has the number zero. -/
def lineAt (ts : List Token) (n : Nat) : List Token := (lines ts).getD n []

/-- The number of the line in which a token stands, by what stands before it. -/
def lineNumber (before : List Token) : Nat := before.countP isLinebreak

/-- The blanks that a line starts with. -/
def leading (line : List Token) : String := source (line.takeWhile isSpace)

/-- A line of a text, with what stands before and after it. -/
structure IsLine (ts before line after : List Token) : Prop where
  /-- The text is put together from the three. -/
  eq : ts = before ++ (line ++ after)
  /-- The line starts the text or follows on a linebreak. -/
  start : Spacing.isLineEdge before.getLast? = true
  /-- It ends the text or comes before a linebreak. -/
  stop : Spacing.isLineEdge after.head? = true
  /-- There is no linebreak in it. -/
  unbroken : ∀ t ∈ line, t.isLinebreak = false

@[simp] theorem lineNumber_append (ts us : List Token) :
    lineNumber (ts ++ us) = lineNumber ts + lineNumber us := List.countP_append

theorem lineNumber_of_unbroken {line : List Token} (h : ∀ t ∈ line, t.isLinebreak = false) :
    lineNumber line = 0 := List.countP_eq_zero.2 fun t ht => by simp [h t ht]

theorem lines_of_unbroken {line : List Token} (h : ∀ t ∈ line, t.isLinebreak = false) :
    lines line = [line] := List.splitOnP_eq_singleton h

theorem lines_append_cons {line : List Token} {lb : Token} (h : ∀ t ∈ line, t.isLinebreak = false)
    (hlb : lb.isLinebreak = true) (rest : List Token) :
    lines (line ++ lb :: rest) = line :: lines rest := by
  rw [lines, List.splitOnP_append_cons line rest hlb, ← lines, lines_of_unbroken h]
  rfl

/-- What stands before the last line of a text, and the line. -/
theorem exists_last_line (ts : List Token) :
    ∃ before line, ts = before ++ line ∧ Spacing.isLineEdge before.getLast? = true ∧
      ∀ t ∈ line, t.isLinebreak = false := by
  induction ts using List.reverseRecOn with
  | nil => exact ⟨[], [], rfl, rfl, by simp⟩
  | append_singleton ts t ih =>
    cases ht : t.isLinebreak with
    | true => exact ⟨ts ++ [t], [], by simp, by simpa [Spacing.isLineEdge] using ht, by simp⟩
    | false =>
      obtain ⟨before, line, rfl, hedge, hline⟩ := ih
      refine ⟨before, line ++ [t], by simp, hedge, List.forall_mem_append.2 ⟨hline, ?_⟩⟩
      simpa using ht

theorem exists_isLine {ts : List Token} {n : Nat} (h : n < (lines ts).length) :
    ∃ before after, IsLine ts before (lineAt ts n) after ∧ lineNumber before = n := by
  have hlineAt : lineAt ts n = (lines ts)[n] := by rw [lineAt, List.getD_eq_getElem?_getD]; simp [h]
  have hlines : lines ts = (lines ts).take n ++ lineAt ts n :: (lines ts).drop (n + 1) := by
    rw [hlineAt, ← List.drop_eq_getElem_cons h, List.take_append_drop]
  obtain ⟨before, rest, hts, hrest, hbefore, hedge⟩ := exists_of_lines_eq_append hlines (by simp)
  have hnumber : lineNumber before = n := by
    have hlength := length_lines before
    rw [hbefore, List.length_append, List.length_take, List.length_singleton] at hlength
    rw [lineNumber]
    omega
  obtain ⟨hline, ⟨-, hend⟩ | ⟨lb, after, hlb, hend, -⟩⟩ := exists_of_lines_eq_cons hrest
  · exact ⟨before, [], ⟨by rwa [List.append_nil, ← hend], hedge, rfl, hline⟩, hnumber⟩
  · exact ⟨before, lb :: after, ⟨by rwa [← hend], hedge, hlb, hline⟩, hnumber⟩

/-- In the lines of a text, no two spaces stand side by side. -/
theorem IsLine.tidy {s : String} {before line after : List Token}
    (h : IsLine (scan s) before line after) : Tidy line := by
  have htidy := tidy_scan s
  rw [h.eq] at htidy
  exact htidy.right_of_append.left_of_append

end Token

namespace Indentation

variable {i : Indent} {scopes : List Nat} {ts before line after rest : List Token}
  {lb first : Token}

/-! ## One line -/

/-- A line at the level that the open scopes ask for. -/
def indentLine (i : Indent) (scopes : List Nat) (line : List Token) : List Token :=
  match line.find? (!·.isSpace) with
  | none => line
  | some first => withIndent (i.levels (levelOf scopes first)) line

/-- The levels of the scopes that are open after a line. -/
def scopesAfterLine (scopes : List Nat) (line : List Token) : List Nat :=
  match line.find? (!·.isSpace) with
  | none => scopes
  | some first => scopesAfter (levelOf scopes first) scopes line

theorem indentLines_append_cons (h : ∀ t ∈ line, t.isLinebreak = false)
    (hlb : lb.isLinebreak = true) (rest : List Token) :
    indentLines i scopes (line ++ lb :: rest) =
      indentLine i scopes line ++ lb :: indentLines i (scopesAfterLine scopes line) rest := by
  have htake : (line ++ lb :: rest).takeWhile (!·.isLinebreak) = line := by
    rw [List.takeWhile_append_of_pos (by simpa using h), List.takeWhile_cons_of_neg (by simp [hlb]),
      List.append_nil]
  have hdrop : (line ++ lb :: rest).dropWhile (!·.isLinebreak) = lb :: rest := by
    rw [List.dropWhile_append_of_pos (by simpa using h), List.dropWhile_cons_of_neg (by simp [hlb])]
  rw [Page.indentLines_eq, htake, hdrop, indentLine, scopesAfterLine]
  cases line.find? (!·.isSpace) <;> rfl

theorem indentLines_of_unbroken (h : ∀ t ∈ line, t.isLinebreak = false) :
    indentLines i scopes line = indentLine i scopes line := by
  have htake : line.takeWhile (!·.isLinebreak) = line :=
    List.takeWhile_eq_self_iff.2 (by simpa using h)
  have hdrop : line.dropWhile (!·.isLinebreak) = [] :=
    List.dropWhile_eq_nil_iff.2 (by simpa using h)
  rw [Page.indentLines_eq, htake, hdrop, indentLine]
  cases line.find? (!·.isSpace) <;> rfl

theorem unbroken_indentLine (h : ∀ t ∈ line, t.isLinebreak = false) :
    ∀ t ∈ indentLine i scopes line, t.isLinebreak = false := by
  unfold indentLine
  split
  · exact h
  · rename_i first hfirst
    have htail : ∀ t ∈ line.tail, t.isLinebreak = false := fun t ht => h t (List.mem_of_mem_tail ht)
    unfold withIndent
    cases line with
    | nil => exact absurd hfirst (by simp)
    | cons u line =>
      dsimp only
      split <;> split
      · exact htail
      · exact h
      · exact List.forall_mem_cons.2 ⟨rfl, htail⟩
      · exact List.forall_mem_cons.2 ⟨rfl, h⟩

/-- **One line more**: what becomes of it depends on the scopes that are open before it. -/
theorem lines_indentLines_append_cons (h : ∀ t ∈ line, t.isLinebreak = false)
    (hlb : lb.isLinebreak = true) (rest : List Token) :
    lines (indentLines i scopes (line ++ lb :: rest)) =
      indentLine i scopes line :: lines (indentLines i (scopesAfterLine scopes line) rest) := by
  rw [indentLines_append_cons h hlb, lines_append_cons (unbroken_indentLine h) hlb]

/-- The lines end as before. -/
theorem filter_isLinebreak_indentLines (i : Indent) (scopes : List Nat) (ts : List Token) :
    (indentLines i scopes ts).filter isLinebreak = ts.filter isLinebreak := by
  have hnone : ∀ {line : List Token}, (∀ t ∈ line, t.isLinebreak = false) →
      line.filter isLinebreak = [] := fun h => List.filter_eq_nil_iff.2 fun t ht => by simp [h t ht]
  induction hlength : ts.length using Nat.strong_induction_on generalizing ts scopes with
  | _ length ih =>
    obtain ⟨line, more, hmore⟩ := List.exists_cons_of_ne_nil (lines_ne_nil ts)
    obtain ⟨hline, ⟨-, rfl⟩ | ⟨lb, after, hlb, rfl, -⟩⟩ := exists_of_lines_eq_cons hmore
    · rw [indentLines_of_unbroken hline, hnone hline, hnone (unbroken_indentLine hline)]
    · rw [List.length_append, List.length_cons] at hlength
      rw [indentLines_append_cons hline hlb, List.filter_append, List.filter_append, hnone hline,
        hnone (unbroken_indentLine hline), List.filter_cons_of_pos hlb, List.filter_cons_of_pos hlb,
        ih after.length (by omega) _ after rfl]

/-! ### The blanks of a line -/

/-- A line that is not blank starts with at most one space. -/
theorem exists_eq_space_append (htidy : Tidy line) (hline : ∀ t ∈ line, t.isLinebreak = false)
    (hfirst : line.find? (!·.isSpace) = some first) :
    ∃ s rest, line = Gap.space s ++ first :: rest ∧ first.isCode = true := by
  have hcode : first.isCode = true := by
    have hspace := List.find?_some hfirst
    have hbreak := hline first (List.mem_of_find?_eq_some hfirst)
    simpa [isCode, isLayout, hbreak] using hspace
  cases line with
  | nil => exact absurd hfirst (by simp)
  | cons t line =>
    cases ht : t.isSpace with
    | false =>
      rw [List.find?_cons_of_pos (by simp [ht])] at hfirst
      obtain rfl := Option.some.inj hfirst
      exact ⟨none, line, rfl, hcode⟩
    | true =>
      rw [List.find?_cons_of_neg (by simp [ht])] at hfirst
      cases line with
      | nil => exact absurd hfirst (by simp)
      | cons u line =>
        have hu : u.isSpace = false := by
          have hapart := (List.isChain_cons_cons.1 htidy).1.1
          simpa [ht] using hapart
        rw [List.find?_cons_of_pos (by simp [hu])] at hfirst
        obtain rfl := Option.some.inj hfirst
        obtain ⟨kind, text⟩ := t
        obtain rfl : kind = .space := by simpa [isSpace] using ht
        exact ⟨some text, line, rfl, hcode⟩

theorem leading_space_append (s : Option String) (hfirst : first.isCode = true)
    (rest : List Token) : leading (Gap.space s ++ first :: rest) = s.getD "" := by
  have hnil : (first :: rest).takeWhile isSpace = [] :=
    List.takeWhile_cons_of_neg (by simp [Page.isSpace_of_isCode hfirst])
  cases s with
  | none =>
    rw [leading, Gap.space_none, List.nil_append, hnil]
    rfl
  | some text =>
    rw [leading, Gap.space_some, List.singleton_append, List.takeWhile_cons_of_pos rfl, hnil]
    simp [source]

/-- **What becomes of a line that is not blank**: it gets the blanks of its level. -/
theorem indentLine_of_find? (htidy : Tidy line) (hline : ∀ t ∈ line, t.isLinebreak = false)
    (hfirst : line.find? (!·.isSpace) = some first) :
    leading (indentLine i scopes line) = i.levels (levelOf scopes first) ∧
      (indentLine i scopes line).dropWhile isSpace = line.dropWhile isSpace := by
  have hindent : indentLine i scopes line = withIndent (i.levels (levelOf scopes first)) line := by
    rw [indentLine, hfirst]
  obtain ⟨s, rest, rfl, hcode⟩ := exists_eq_space_append htidy hline hfirst
  have hhead : ∀ t ∈ (first :: rest).head?, t.isSpace = false := by
    simpa using Page.isSpace_of_isCode hcode
  rw [hindent, Page.withIndent_code hcode, leading_space_append _ hcode,
    Gap.dropWhile_space _ hhead, Gap.dropWhile_space _ hhead]
  refine ⟨?_, rfl⟩
  unfold Page.margin
  split
  · rename_i hempty
    simpa using hempty.symm
  · rfl

/-- A blank line stays as it is. -/
theorem indentLine_of_blank (h : ∀ t ∈ line, t.isSpace = true) :
    indentLine i scopes line = line := by
  have hfind : line.find? (!·.isSpace) = none := List.find?_eq_none.2 (by simpa using h)
  rw [indentLine, hfind]

/-! ## All lines -/

/-- The walk over the lines of `ts` comes to the line after `before` with these levels of open
scopes. -/
inductive Reaches (ts : List Token) : List Token → List Nat → Prop
  /-- It starts at the first line. -/
  | start : Reaches ts [] []
  /-- It goes from a line to the next one. -/
  | next {before line after : List Token} {lb : Token} {scopes : List Nat}
      (h : Reaches ts before scopes) (hline : IsLine ts before line (lb :: after)) :
      Reaches ts (before ++ (line ++ [lb])) (scopesAfterLine scopes line)

/-- It comes to every line. -/
theorem exists_reaches (hts : ts = before ++ rest)
    (hedge : Spacing.isLineEdge before.getLast? = true) : ∃ scopes, Reaches ts before scopes := by
  induction hlength : before.length using Nat.strong_induction_on generalizing before rest with
  | _ length ih =>
    rcases List.eq_nil_or_concat before with rfl | ⟨init, lb, rfl⟩
    · exact ⟨[], .start⟩
    · -- the walk comes from the line that the last linebreak ends
      rw [List.concat_eq_append] at hts hedge hlength
      rw [List.getLast?_concat] at hedge
      obtain ⟨front, line, rfl, hfront, hline⟩ := exists_last_line init
      have hIsLine : IsLine ts front line (lb :: rest) :=
        ⟨by rw [hts]; simp, hfront, hedge, hline⟩
      simp only [List.length_append, List.length_singleton] at hlength
      obtain ⟨scopes, hscopes⟩ := ih front.length (by omega) hIsLine.eq hfront rfl
      exact ⟨_, by simpa using hscopes.next hIsLine⟩

/-- What the walk has still to write when it comes to a line. -/
theorem drop_lines_of_reaches (h : Reaches ts before scopes) (hts : ts = before ++ rest) :
    (lines (indentLines i [] ts)).drop (lineNumber before) = lines (indentLines i scopes rest) := by
  induction h generalizing rest with
  | start => rw [hts]; rfl
  | @next before line after lb scopes h hline ih =>
    have hrest : rest = after := by
      have heq := hline.eq.symm.trans hts
      simpa using heq.symm
    subst hrest
    have hlb : lineNumber [lb] = 1 := by
      have hstop : lb.isLinebreak = true := hline.stop
      simp [lineNumber, hstop]
    have hbefore := ih hline.eq
    rw [lines_indentLines_append_cons hline.unbroken hline.stop] at hbefore
    rw [lineNumber_append, lineNumber_append, lineNumber_of_unbroken hline.unbroken, hlb,
      Nat.zero_add, ← List.drop_drop, hbefore]
    rfl

/-- **The line that the walk writes.** -/
theorem lineAt_of_reaches (h : Reaches ts before scopes) (hline : IsLine ts before line after) :
    lineAt (indentLines i [] ts) (lineNumber before) = indentLine i scopes line := by
  have hdrop := drop_lines_of_reaches (i := i) h hline.eq
  have hhead : (lines (indentLines i scopes (line ++ after))).head? =
      some (indentLine i scopes line) := by
    cases after with
    | nil =>
      rw [List.append_nil, indentLines_of_unbroken hline.unbroken,
        lines_of_unbroken (unbroken_indentLine hline.unbroken)]
      rfl
    | cons lb after =>
      rw [lines_indentLines_append_cons hline.unbroken hline.stop]
      rfl
  rw [← hdrop, List.head?_drop] at hhead
  rw [lineAt, List.getD_eq_getElem?_getD, hhead]
  rfl

/-! ## Scopes -/

variable {s : String}

theorem scopesAfter_singleton (level : Nat) (scopes : List Nat) (t : Token) :
    scopesAfter level scopes [t] = restack level scopes t := by
  obtain ⟨kind, text⟩ := t
  cases kind <;> rfl

/-- A line that is not blank starts at the level that the open scopes ask for. -/
theorem leading_of_reaches (h : Reaches (scan s) before scopes)
    (hline : IsLine (scan s) before line after) (hfirst : line.find? (!·.isSpace) = some first) :
    leading (lineAt (indentLines i [] (scan s)) (lineNumber before)) =
      i.levels (levelOf scopes first) := by
  rw [lineAt_of_reaches h hline]
  exact (indentLine_of_find? hline.tidy hline.unbroken hfirst).1

/-- The stack of levels through a line, as long as the lines of the open brackets start at these
levels. -/
theorem leaves_scopesAfter (margin : Nat → String) {level : Nat} {front us : List Token}
    (hts : scan s = front ++ (us ++ after)) (hus : ∀ t ∈ us, t.isLinebreak = false)
    (hlevel : margin (lineNumber front) = i.levels level)
    (h : Leaves (fun before _ => margin (lineNumber before)) front (scopes.map i.levels)) :
    Leaves (fun before _ => margin (lineNumber before)) (front ++ us)
      ((scopesAfter level scopes us).map i.levels) := by
  induction us generalizing front scopes with
  | nil => simpa [scopesAfter] using h
  | cons t us ih =>
    obtain ⟨ht, hus⟩ := List.forall_mem_cons.1 hus
    have hnext := h.concat fun hkind => exists_innermost_of_scan (by simpa using hts) hkind
    rw [hlevel, ← map_restack, ← scopesAfter_singleton] at hnext
    rw [Page.scopesAfter_cons, List.append_cons]
    refine ih (by simpa using hts) hus ?_ hnext
    have hnumber : lineNumber [t] = 0 := lineNumber_of_unbroken (by simpa using ht)
    rw [lineNumber_append, hnumber, Nat.add_zero, hlevel]

/-- **The levels that the walk has with it** are those of the lines with the open brackets. -/
theorem leaves_of_reaches (h : Reaches (scan s) before scopes) :
    Leaves (fun front _ => leading (lineAt (indentLines i [] (scan s)) (lineNumber front))) before
      (scopes.map i.levels) := by
  induction h with
  | start => exact .closed .nil
  | @next before line after lb scopes h hline ih =>
    have hlb : lb.isLayout = true := by
      have hstop : lb.isLinebreak = true := hline.stop
      simp [isLayout, hstop]
    -- the linebreak itself opens and closes nothing
    rw [← List.append_assoc]
    refine Leaves.append ?_ (.plain (isBracket_of_isLayout hlb) .nil)
    unfold scopesAfterLine
    split
    · rename_i hblank
      refine ih.append (.of_not_isBracket fun t ht => isBracket_of_isLayout ?_)
      have hspace := List.find?_eq_none.1 hblank t ht
      simp only [isLayout, Bool.or_eq_true]
      exact Or.inl (by simpa using hspace)
    · -- the brackets of the line are marked with the level at which the line itself was written
      rename_i first hfirst
      exact leaves_scopesAfter (fun n => leading (lineAt (indentLines i [] (scan s)) n)) hline.eq
        hline.unbroken (leading_of_reaches h hline hfirst) ih

theorem levels_succ (i : Indent) (level : Nat) :
    i.levels (level + 1) = i.levels level ++ i.unit := by
  simp [Indent.levels, List.replicate_succ']

/-- **For every line that is not blank** there is a stack of levels for the open brackets, and the
line starts at the level that this stack asks for. -/
theorem exists_leaves_of_isLine (hline : IsLine (scan s) before line after)
    (hfirst : line.find? (!·.isSpace) = some first) :
    ∃ scopes : List Nat,
      Leaves (fun front _ => leading (lineAt (indentLines i [] (scan s)) (lineNumber front))) before
          (scopes.map i.levels) ∧
        leading (lineAt (indentLines i [] (scan s)) (lineNumber before)) =
          i.levels (levelOf scopes first) := by
  obtain ⟨scopes, hscopes⟩ := exists_reaches hline.eq hline.start
  exact ⟨scopes, leaves_of_reaches hscopes, leading_of_reaches hscopes hline hfirst⟩

/-- Everything but the blanks at the start of a line is kept, and blank lines are. -/
theorem lineAt_indentLines (i : Indent) (s : String) (n : Nat) :
    (lineAt (indentLines i [] (scan s)) n).dropWhile isSpace =
        (lineAt (scan s) n).dropWhile isSpace ∧
      ((∀ t ∈ lineAt (scan s) n, t.isSpace = true) →
        lineAt (indentLines i [] (scan s)) n = lineAt (scan s) n) := by
  by_cases hn : n < (lines (scan s)).length
  · obtain ⟨before, after, hline, hnumber⟩ := exists_isLine hn
    obtain ⟨scopes, hscopes⟩ := exists_reaches hline.eq hline.start
    have hlineAt := lineAt_of_reaches (i := i) hscopes hline
    rw [hnumber] at hlineAt
    rw [hlineAt]
    refine ⟨?_, indentLine_of_blank⟩
    cases hfirst : (lineAt (scan s) n).find? (!·.isSpace) with
    | none => rw [indentLine, hfirst]
    | some first => exact (indentLine_of_find? hline.tidy hline.unbroken hfirst).2
  · -- there is no such line, before or after
    have hlength : (lines (indentLines i [] (scan s))).length = (lines (scan s)).length := by
      rw [length_lines, length_lines, List.countP_eq_length_filter, List.countP_eq_length_filter,
        filter_isLinebreak_indentLines]
    have hnil : ∀ {ts : List Token}, (lines ts).length ≤ n → lineAt ts n = [] := by
      intro ts hts
      rw [lineAt, List.getD_eq_getElem?_getD, List.getElem?_eq_none hts]
      rfl
    rw [hnil (by omega), hnil (by omega)]
    exact ⟨rfl, fun _ => rfl⟩

/-- **A line that starts with a closing bracket** closes the innermost scope that is open where the
line starts. -/
theorem pair_of_isLine (hline : IsLine (scan s) before line after)
    (hfirst : line.find? (!·.isSpace) = some first) (hkind : first.kind = .endOfScope) :
    ¬ Balanced before ∧ ∀ front o, Innermost before front o → Pair o first := by
  obtain ⟨text, rest, rfl, -⟩ := exists_eq_space_append hline.tidy hline.unbroken hfirst
  have hspace : Balanced (Gap.space text) := by
    cases text with
    | none => exact .nil
    | some text => exact .plain rfl .nil
  have hscan : scan s = (before ++ Gap.space text) ++ first :: (rest ++ after) := by
    rw [hline.eq]
    simp
  obtain ⟨front', o', ho', hpair⟩ := exists_innermost_of_scan hscan hkind
  refine ⟨fun hbefore => (hbefore.append hspace).not_innermost ho', fun front o ho => ?_⟩
  obtain ⟨-, rfl⟩ := (ho.append hspace).unique ho'
  exact hpair

end Indentation

/-- **How the lines of a text are indented**, by the scopes that are open. -/
structure Indented (i : Indent) (ts out : List Token) : Prop where
  /-- The linebreaks are kept, and with them the number of lines. -/
  linebreaks : out.filter isLinebreak = ts.filter isLinebreak
  /-- So is all that follows on the blanks at the start of a line. -/
  code : ∀ n, (lineAt out n).dropWhile isSpace = (lineAt ts n).dropWhile isSpace
  /-- Blank lines stay as they are. -/
  blank : ∀ n, (∀ t ∈ lineAt ts n, t.isSpace = true) → lineAt out n = lineAt ts n
  /-- A line that starts with a closing bracket is level with the line of the bracket that it
  closes. -/
  closing : ∀ before line after, IsLine ts before line after →
    ∀ first ∈ line.find? (!·.isSpace), first.kind = .endOfScope →
    ∃ front o, Innermost before front o ∧ Pair o first ∧
      leading (lineAt out (lineNumber before)) = leading (lineAt out (lineNumber front))
  /-- Any other line is one unit further in than the line of the innermost open bracket. -/
  inside : ∀ before line after, IsLine ts before line after →
    ∀ first ∈ line.find? (!·.isSpace), first.kind ≠ .endOfScope →
    ∀ front o, Innermost before front o →
      leading (lineAt out (lineNumber before)) = leading (lineAt out (lineNumber front)) ++ i.unit
  /-- It starts without blanks if no bracket is open. -/
  outside : ∀ before line after, IsLine ts before line after →
    ∀ first ∈ line.find? (!·.isSpace), first.kind ≠ .endOfScope →
    (¬ ∃ front o, Innermost before front o) → leading (lineAt out (lineNumber before)) = ""

open Indentation in
/-- **Every text is indented by its scopes**, whatever the style. -/
theorem indented_indent (style : Style) (s : String) :
    Indented style.indent (scan s) (Rule.indent.run style (scan s)) := by
  have hrun : Rule.indent.run style (scan s) = indentLines style.indent [] (scan s) :=
    Rule.run_ofTransform ..
  rw [hrun]
  refine ⟨filter_isLinebreak_indentLines _ _ _, fun n => (lineAt_indentLines _ s n).1,
    fun n => (lineAt_indentLines _ s n).2, ?closing, ?inside, ?outside⟩
  case closing =>
    intro before line after hline first hfirst hkind
    obtain ⟨scopes, hleaves, hlead⟩ := exists_leaves_of_isLine (i := style.indent) hline hfirst
    cases scopes with
    | nil => exact absurd hleaves.balanced (pair_of_isLine hline hfirst hkind).1
    | cons level scopes =>
      obtain ⟨front, o, ho, hlevel⟩ := hleaves.exists_innermost
      refine ⟨front, o, ho, (pair_of_isLine hline hfirst hkind).2 front o ho, ?_⟩
      rw [hlead, hlevel, levelOf, if_pos (by simpa using hkind)]
  case inside =>
    intro before line after hline first hfirst hkind front o ho
    obtain ⟨scopes, hleaves, hlead⟩ := exists_leaves_of_isLine (i := style.indent) hline hfirst
    cases scopes with
    | nil => exact absurd ho hleaves.balanced.not_innermost
    | cons level scopes =>
      obtain ⟨front', o', ho', hlevel⟩ := hleaves.exists_innermost
      obtain ⟨rfl, rfl⟩ := ho'.unique ho
      rw [hlead, hlevel, ← levels_succ, levelOf, if_neg (by simpa using hkind)]
  case outside =>
    intro before line after hline first hfirst hkind hnone
    obtain ⟨scopes, hleaves, hlead⟩ := exists_leaves_of_isLine (i := style.indent) hline hfirst
    cases scopes with
    | nil => exact hlead
    | cons level scopes =>
      obtain ⟨front, o, ho, -⟩ := hleaves.exists_innermost
      exact absurd ⟨front, o, ho⟩ hnone

end Restyle
