import Restyle.Proofs.Formatting.AtWork
import Restyle.Proofs.Layout.Indented
import Restyle.Proofs.Page.Lines
import Restyle.Proofs.Stability.Spaces

/-!
# Every rule but one, applied twice

A rule on lines or braces looks further ahead than to the next token, and by what it removes or puts
in it may change what it sees the second time.  What it looks for is the first token of a line that
is not a space, and this token stays.

* `KeepsFirst`: a walk that does not touch the start of a line.
* `MovesBraces.rule_rule`, `trimBlockStarts_trimBlockStarts`, `trimBlockEnds_trimBlockEnds`,
  `limitBlankLines_limitBlankLines`, `indentLines_indentLines`, `endWithLinebreak_endWithLinebreak`:
  each rule for itself.
* `Faithful.apply_apply`: a rule that leaves its own tokens alone does not raise the flag either.
* `apply_apply_of_mem_catalog`: every rule there is but the one on semicolons.
-/

namespace Restyle

open Token

/-- Induction over the lines of a text: the last line, and one line more in front. -/
@[elab_as_elim]
theorem line_induction {motive : List Token → Prop} (ts : List Token)
    (last : ∀ line, (∀ t ∈ line, t.isLinebreak = false) → motive line)
    (next : ∀ line lb rest, (∀ t ∈ line, t.isLinebreak = false) → lb.isLinebreak = true →
      motive rest → motive (line ++ lb :: rest)) : motive ts := by
  induction hlength : ts.length using Nat.strong_induction_on generalizing ts with
  | _ length ih =>
    have hline : ∀ t ∈ ts.takeWhile (!·.isLinebreak), t.isLinebreak = false := fun t ht => by
      simpa using List.mem_takeWhile_imp ht
    cases hdrop : ts.dropWhile (!·.isLinebreak) with
    | nil =>
      rw [List.dropWhile_eq_nil_iff] at hdrop
      exact last ts fun t ht => by simpa using hdrop t ht
    | cons lb rest =>
      obtain ⟨hts, hlb⟩ := Relaid.eq_of_dropWhile_linebreak hdrop
      rw [hts] at hlength ⊢
      refine next _ lb rest hline hlb (ih rest.length ?_ rest rfl)
      simp only [List.length_append, List.length_cons] at hlength
      omega

/-! ## The start of a line -/

/-- The first token that is not a space. -/
def firstOnLine (ts : List Token) : Option Token := (ts.dropWhile isSpace).head?

theorem firstOnLine_cons_of_isSpace {t : Token} (h : t.isSpace = true) (rest : List Token) :
    firstOnLine (t :: rest) = firstOnLine rest := by
  rw [firstOnLine, List.dropWhile_cons_of_pos h, firstOnLine]

theorem firstOnLine_cons {t : Token} (h : t.isSpace = false) (rest : List Token) :
    firstOnLine (t :: rest) = some t := by
  rw [firstOnLine, List.dropWhile_cons_of_neg (by simp [h]), List.head?_cons]

theorem endsLine_eq (ts : List Token) :
    Braces.endsLine ts = Spacing.thereIs isLinebreak (firstOnLine ts) := by
  unfold Braces.endsLine firstOnLine
  cases ts.dropWhile isSpace <;> rfl

theorem closesBlock_eq (ts : List Token) :
    Linebreaks.closesBlock ts = Spacing.thereIs (closes closeBrace) (firstOnLine ts) := by
  unfold Linebreaks.closesBlock firstOnLine
  cases ts.dropWhile isSpace <;> rfl

theorem afterBlankLine?_eq_none_iff {ts : List Token} :
    Linebreaks.afterBlankLine? ts = none ↔
      Spacing.thereIs isLinebreak (firstOnLine ts) = false := by
  unfold Linebreaks.afterBlankLine? firstOnLine
  cases ts.dropWhile isSpace with
  | nil => exact iff_of_true rfl rfl
  | cons t rest => cases ht : t.isLinebreak <;> simp [Spacing.thereIs, ht]

/-- A walk over tokens that passes spaces by and leaves the token in front. -/
structure KeepsFirst (walk : List Token → List Token) : Prop where
  /-- There is nothing to do at the end. -/
  nil : walk [] = []
  /-- The token in front stays there. -/
  cons : ∀ t rest, (walk (t :: rest)).head? = some t
  /-- Spaces are passed by. -/
  space : ∀ t rest, t.isSpace = true → walk (t :: rest) = t :: walk rest

/-- **The first token that is not a space stays.** -/
theorem KeepsFirst.firstOnLine {walk : List Token → List Token} (h : KeepsFirst walk)
    (ts : List Token) : firstOnLine (walk ts) = firstOnLine ts := by
  induction ts with
  | nil => rw [h.nil]
  | cons t rest ih =>
    cases ht : t.isSpace with
    | true => rw [h.space t rest ht, firstOnLine_cons_of_isSpace ht, firstOnLine_cons_of_isSpace ht,
        ih]
    | false =>
      obtain ⟨more, hmore⟩ := List.head?_eq_some_iff.1 (h.cons t rest)
      rw [hmore, firstOnLine_cons ht, firstOnLine_cons ht]

theorem KeepsFirst.spaces_append {walk : List Token → List Token} (h : KeepsFirst walk)
    {spaces : List Token} (hspaces : ∀ t ∈ spaces, t.isSpace = true) (ts : List Token) :
    walk (spaces ++ ts) = spaces ++ walk ts := by
  induction spaces with
  | nil => rfl
  | cons t spaces ih =>
    rw [List.cons_append, h.space t _ (hspaces t List.mem_cons_self),
      ih fun u hu => hspaces u (List.mem_cons_of_mem _ hu), List.cons_append]

/-! ## Braces -/

namespace Page.MovesBraces

variable {rule : List Token → List Token} {mark : Token} {moves : Bool → Bool → Bool}

theorem keepsFirst (h : MovesBraces rule mark moves) : KeepsFirst rule where
  nil := h.nil
  cons := fun t rest => by rw [h.cons, List.head?_cons]
  space := fun t rest ht => by
    have hspace : ∀ b ∈ [t], b.isLayout = true := by simp [isLayout, ht]
    exact h.layout_append hspace rest

theorem cons_of_opens (h : MovesBraces rule mark moves) {brace : Token}
    (hopens : brace.opens openBrace = true) (rest : List Token) :
    rule (brace :: rest) = brace :: rule rest :=
  h.cons_of_not_head (by simp [endsBlockHead, kind_of_opens hopens]) rest

/-- The brace that comes next stays the next one, with the same blanks before it. -/
theorem brace?_rule (h : MovesBraces rule mark moves) (ts : List Token) :
    Braces.brace? (rule ts) =
      (Braces.brace? ts).map fun found => (found.1, found.2.1, rule found.2.2) := by
  have hgap : ∀ b ∈ ts.takeWhile isLayout, b.isLayout = true := fun b => List.mem_takeWhile_imp
  have hts := List.takeWhile_append_dropWhile (p := isLayout) (l := ts)
  cases hdrop : ts.dropWhile isLayout with
  | nil =>
    have hnil : rule ts = ts := by
      have happend := h.layout_append hgap []
      rwa [h.nil, ← hdrop, hts] at happend
    rw [hnil, Braces.brace?, hdrop]
    rfl
  | cons t rest =>
    have ht : t.isLayout = false := by
      have hnot := List.head?_dropWhile_not isLayout ts
      rw [hdrop] at hnot
      simpa using hnot
    rw [← hts, hdrop, h.layout_append hgap, brace?_append_cons hgap ht]
    cases hopens : t.opens openBrace with
    | true =>
      rw [h.cons_of_opens hopens, brace?_append_cons hgap ht, hopens]
      rfl
    | false =>
      rw [h.cons, brace?_append_cons hgap ht, hopens]
      rfl

/-- **Braces are put in place at once**, if the rule does not want to move the mark that it puts
before a brace. -/
theorem rule_rule (h : MovesBraces rule mark moves) (hmark : mark.isLayout = true)
    (hmoves : ∀ ends, moves mark.isLinebreak ends = false) (ts : List Token) :
    rule (rule ts) = rule ts := by
  induction hlength : ts.length using Nat.strong_induction_on generalizing ts with
  | _ length ih =>
    cases ts with
    | nil => rw [h.nil, h.nil]
    | cons t rest =>
      rw [List.length_cons] at hlength
      have hrest := ih rest.length (by omega) rest rfl
      rw [h.cons t rest]
      cases hbrace : Braces.brace? rest with
      | none =>
        rw [h.cons, h.brace?_rule, hbrace]
        exact congrArg (t :: ·) hrest
      | some found =>
        obtain ⟨gap, brace, after⟩ := found
        have hopens := (Relaid.eq_of_brace? hbrace).2.2
        have hlt := Braces.length_lt_of_brace? hbrace
        have hafter := ih after.length (by omega) after rfl
        dsimp only
        split
        · -- the brace has been moved, and is found behind the mark
          have hspace : ∀ b ∈ [mark], b.isLayout = true := by simpa using hmark
          have hcode : brace.isLayout = false := by
            simp [isLayout, isSpace, isLinebreak, kind_of_opens hopens]
          have hagain : Braces.brace? (mark :: brace :: rule after) =
              some ([mark], brace, rule after) :=
            (brace?_append_cons hspace hcode _).trans (if_pos hopens)
          have hrule : rule (mark :: brace :: rule after) = mark :: brace :: rule after := by
            have happend := h.layout_append hspace (brace :: rule after)
            rw [h.cons_of_opens hopens, hafter] at happend
            exact happend
          rw [h.cons, hagain]
          simp [hmoves, hrule]
        · -- the brace has not been moved, and there is no reason to move it now
          rename_i hstays
          rw [h.cons, h.brace?_rule, hbrace]
          simp only [Option.map_some, endsLine_eq, h.keepsFirst.firstOnLine]
          rw [endsLine_eq] at hstays
          rw [if_neg hstays, hrest]

end Page.MovesBraces

namespace Linebreaks

/-! ## Blank lines at the edges of a block -/

theorem firstOnLine_dropBlankLines (ts : List Token) :
    Spacing.thereIs isLinebreak (firstOnLine (dropBlankLines ts)) = false := by
  fun_induction dropBlankLines ts with
  | case1 tokens rest h ih => exact ih
  | case2 tokens h => exact afterBlankLine?_eq_none_iff.1 h

/-- Where no blank line stands in front, none is dropped. -/
theorem dropBlankLines_eq_self {ts : List Token}
    (h : Spacing.thereIs isLinebreak (firstOnLine ts) = false) : dropBlankLines ts = ts := by
  rw [dropBlankLines]
  split
  · rename_i rest hrest
    exact absurd (hrest.symm.trans (afterBlankLine?_eq_none_iff.2 h)) (by simp)
  · rfl

theorem dropBlankLines_append_cons {spaces : List Token} {lb : Token}
    (hspaces : ∀ t ∈ spaces, t.isSpace = true) (hlb : lb.isLinebreak = true) (ts : List Token) :
    dropBlankLines (spaces ++ lb :: ts) = dropBlankLines ts := by
  have hafter : afterBlankLine? (spaces ++ lb :: ts) = some ts := by
    rw [afterBlankLine?, List.dropWhile_append_of_pos hspaces,
      List.dropWhile_cons_of_neg (by simp [Relaid.isSpace_of_isLinebreak hlb])]
    exact if_pos hlb
  rw [dropBlankLines]
  split
  · rename_i rest hrest
    rw [Option.some.inj (hafter.symm.trans hrest)]
  · rename_i hnone
    exact absurd (hafter.symm.trans hnone) (by simp)

/-- A walk that keeps the start of a line brings no blank line about. -/
theorem dropBlankLines_walk {walk : List Token → List Token} (h : KeepsFirst walk)
    (ts : List Token) :
    dropBlankLines (walk (dropBlankLines ts)) = walk (dropBlankLines ts) :=
  dropBlankLines_eq_self (by rw [h.firstOnLine, firstOnLine_dropBlankLines])

theorem keepsFirst_trimBlockStarts (opened : Bool) : KeepsFirst (trimBlockStarts opened) where
  nil := by rw [trimBlockStarts]
  cons := fun t rest => by
    rw [trimBlockStarts]
    split
    · rfl
    · split <;> rfl
  space := fun t rest ht => by rw [trimBlockStarts, if_pos ht]

/-- **No blank line is left at the start of a block.** -/
theorem trimBlockStarts_trimBlockStarts (opened : Bool) (ts : List Token) :
    trimBlockStarts opened (trimBlockStarts opened ts) = trimBlockStarts opened ts := by
  fun_induction trimBlockStarts opened ts with
  | case1 opened => rw [trimBlockStarts]
  | case2 opened t rest hspace ih => rw [trimBlockStarts, if_pos hspace, ih]
  | case3 opened t rest hspace hcond ih =>
    rw [trimBlockStarts, if_neg hspace, if_pos hcond,
      dropBlankLines_walk (keepsFirst_trimBlockStarts false), ih]
  | case4 opened t rest hspace hcond ih =>
    rw [trimBlockStarts, if_neg hspace, if_neg hcond, ih]

theorem keepsFirst_trimBlockEnds : KeepsFirst trimBlockEnds where
  nil := by rw [trimBlockEnds]
  cons := fun t rest => by
    rw [trimBlockEnds]
    split <;> rfl
  space := fun t rest ht => by
    have hbreak : t.isLinebreak = false := by
      obtain ⟨text, rfl⟩ := exists_eq_space ht
      rfl
    exact Page.trimBlockEnds_cons hbreak rest

/-- The line with the closing brace stays, with or without blank lines before it. -/
theorem closesBlock_trimBlockEnds (ts : List Token) :
    closesBlock (dropBlankLines (trimBlockEnds ts)) = closesBlock (dropBlankLines ts) := by
  have hkeeps := keepsFirst_trimBlockEnds
  have hfirst : ∀ us, closesBlock (trimBlockEnds us) = closesBlock us := fun us => by
    rw [closesBlock_eq, hkeeps.firstOnLine, closesBlock_eq]
  fun_induction dropBlankLines ts with
  | case1 ts rest h ih =>
    obtain ⟨spaces, lb, rfl, hspaces, hlb⟩ := Relaid.exists_of_afterBlankLine? h
    rw [hkeeps.spaces_append hspaces, trimBlockEnds]
    split
    · rw [dropBlankLines_append_cons hspaces hlb, dropBlankLines_walk hkeeps, hfirst]
    · rw [dropBlankLines_append_cons hspaces hlb, ih]
  | case2 ts h =>
    have hnone : Spacing.thereIs isLinebreak (firstOnLine (trimBlockEnds ts)) = false := by
      rw [hkeeps.firstOnLine]
      exact afterBlankLine?_eq_none_iff.1 h
    rw [dropBlankLines_eq_self hnone, hfirst]

/-- **No blank line is left at the end of a block.** -/
theorem trimBlockEnds_trimBlockEnds (ts : List Token) :
    trimBlockEnds (trimBlockEnds ts) = trimBlockEnds ts := by
  fun_induction trimBlockEnds ts with
  | case1 => rw [trimBlockEnds]
  | case2 t rest hcond ih =>
    have hagain : (t.isLinebreak && closesBlock (dropBlankLines (trimBlockEnds
        (dropBlankLines rest)))) = true := by
      rw [dropBlankLines_walk keepsFirst_trimBlockEnds, closesBlock_eq,
        keepsFirst_trimBlockEnds.firstOnLine, ← closesBlock_eq]
      exact hcond
    rw [trimBlockEnds, if_pos hagain, dropBlankLines_walk keepsFirst_trimBlockEnds, ih]
  | case3 t rest hcond ih =>
    rw [trimBlockEnds, closesBlock_trimBlockEnds, if_neg hcond, ih]

/-! ## Runs of blank lines -/

/-- One line more. -/
theorem limitBlankLines_append_cons {line : List Token} {lb : Token}
    (hline : ∀ t ∈ line, t.isLinebreak = false) (hlb : lb.isLinebreak = true) (most before : Nat)
    (rest : List Token) :
    limitBlankLines most before (line ++ lb :: rest) =
      if line.all isSpace then
        if before < most then line ++ lb :: limitBlankLines most (before + 1) rest
        else limitBlankLines most (before + 1) rest
      else line ++ lb :: limitBlankLines most 0 rest := by
  have htake : (line ++ lb :: rest).takeWhile (!·.isLinebreak) = line := by
    rw [List.takeWhile_append_of_pos (by simpa using hline),
      List.takeWhile_cons_of_neg (by simp [hlb]), List.append_nil]
  have hdrop : (line ++ lb :: rest).dropWhile (!·.isLinebreak) = lb :: rest := by
    rw [List.dropWhile_append_of_pos (by simpa using hline),
      List.dropWhile_cons_of_neg (by simp [hlb])]
  rw [Page.limitBlankLines_eq, htake, hdrop]

theorem limitBlankLines_of_unbroken {line : List Token}
    (hline : ∀ t ∈ line, t.isLinebreak = false) (most before : Nat) :
    limitBlankLines most before line = line := by
  have hdrop : line.dropWhile (!·.isLinebreak) = [] :=
    List.dropWhile_eq_nil_iff.2 (by simpa using hline)
  rw [Page.limitBlankLines_eq, hdrop]

/-- Once there are too many blank lines, it does not matter how many there were. -/
theorem limitBlankLines_succ {most before : Nat} (h : most ≤ before) (ts : List Token) :
    limitBlankLines most before ts = limitBlankLines most (before + 1) ts := by
  induction ts using line_induction generalizing before with
  | last line hline =>
    rw [limitBlankLines_of_unbroken hline, limitBlankLines_of_unbroken hline]
  | next line lb rest hline hlb ih =>
    rw [limitBlankLines_append_cons hline hlb, limitBlankLines_append_cons hline hlb,
      if_neg (Nat.not_lt.2 h), if_neg (Nat.not_lt.2 (Nat.le_succ_of_le h)),
      ih (Nat.le_succ_of_le h)]

/-- **Not too many blank lines are left.** -/
theorem limitBlankLines_limitBlankLines (most before : Nat) (ts : List Token) :
    limitBlankLines most before (limitBlankLines most before ts) =
      limitBlankLines most before ts := by
  induction ts using line_induction generalizing before with
  | last line hline =>
    rw [limitBlankLines_of_unbroken hline, limitBlankLines_of_unbroken hline]
  | next line lb rest hline hlb ih =>
    rw [limitBlankLines_append_cons hline hlb]
    split
    · rename_i hblank
      split
      · rename_i hlt
        rw [limitBlankLines_append_cons hline hlb, if_pos hblank, if_pos hlt, ih]
      · -- the line goes, and the next one is counted as if it had not
        rename_i hge
        rw [limitBlankLines_succ (Nat.not_lt.1 hge), ih]
    · rename_i hblank
      rw [limitBlankLines_append_cons hline hlb, if_neg hblank, ih]

/-! ## The end of the text -/

/-- **The text ends with one linebreak the second time as well.** -/
theorem endWithLinebreak_endWithLinebreak {lb : Token} (hlb : lb.isLinebreak = true)
    (ts : List Token) :
    endWithLinebreak lb (endWithLinebreak lb ts) = endWithLinebreak lb ts := by
  rcases Relaid.layout_or_last_code ts with hall | ⟨init, t, gap, rfl, ht, hgap⟩
  · rw [Relaid.endWithLinebreak_of_isLayout lb hall, Relaid.endWithLinebreak_of_isLayout lb hall]
  · rw [Relaid.endWithLinebreak_append lb init ht hgap,
      Relaid.endWithLinebreak_append lb init ht (by simp [isLayout, hlb])]

end Linebreaks

/-! ## Indentation -/

namespace Indentation

variable {i : Indent} {scopes : List Nat} {line : List Token}

/-- Where no two spaces stand side by side, a line starts with a single space at most. -/
theorem exists_space_append (h : SpacesApart line) :
    ∃ s body, line = Gap.space s ++ body ∧ ∀ t ∈ body.head?, t.isSpace = false := by
  cases line with
  | nil => exact ⟨none, [], rfl, by simp⟩
  | cons t rest =>
    cases ht : t.isSpace with
    | false => exact ⟨none, t :: rest, rfl, by simpa using ht⟩
    | true =>
      have hhead := h.isSpace_head ht
      obtain ⟨text, rfl⟩ := exists_eq_space ht
      exact ⟨some text, rest, rfl, hhead⟩

theorem find?_space_append (s : Option String) (body : List Token) :
    (Gap.space s ++ body).find? (!·.isSpace) = body.find? (!·.isSpace) := by
  cases s <;> rfl

/-- **A line that is indented stays where it is**, and opens and closes the same scopes. -/
theorem indentLine_indentLine (h : SpacesApart line) :
    indentLine i scopes (indentLine i scopes line) = indentLine i scopes line ∧
      scopesAfterLine scopes (indentLine i scopes line) = scopesAfterLine scopes line := by
  obtain ⟨s, body, rfl, hbody⟩ := exists_space_append h
  unfold indentLine scopesAfterLine
  rw [find?_space_append]
  cases hfirst : body.find? (!·.isSpace) with
  | none =>
    dsimp only
    rw [find?_space_append, hfirst]
    exact ⟨rfl, rfl⟩
  | some first =>
    dsimp only
    rw [Page.withIndent_space_append _ _ _ hbody, find?_space_append, hfirst]
    dsimp only
    rw [Page.withIndent_space_append _ _ _ hbody, Page.scopesAfter_space, Page.scopesAfter_space]
    exact ⟨rfl, rfl⟩

/-- **Every line that is indented stays where it is.** -/
theorem indentLines_indentLines {ts : List Token} (hts : SpacesApart ts) :
    indentLines i scopes (indentLines i scopes ts) = indentLines i scopes ts := by
  induction ts using line_induction generalizing scopes with
  | last line hline =>
    rw [indentLines_of_unbroken hline, indentLines_of_unbroken (unbroken_indentLine hline),
      (indentLine_indentLine hts).1]
  | next line lb rest hline hlb ih =>
    obtain ⟨hfront, hback, -⟩ := List.isChain_append.1 hts
    obtain ⟨hagain, hscopes⟩ := @indentLine_indentLine i scopes line hfront
    rw [indentLines_append_cons hline hlb, indentLines_append_cons (unbroken_indentLine hline) hlb,
      hagain, hscopes, ih (SpacesApart.tail hback)]

end Indentation

/-! ## Every rule -/

namespace Rule

/-- **A faithful rule that leaves its own tokens alone leaves the buffer alone**: if it has changed
nothing, it does so again, and otherwise the flag is up already. -/
theorem Faithful.apply_apply {r : Rule} (h : r.Faithful) {style : Style} {b : Buffer}
    (htokens : (r.apply style (r.apply style b)).tokens = (r.apply style b).tokens) :
    r.apply style (r.apply style b) = r.apply style b := by
  have hext : ∀ c d : Buffer, c.tokens = d.tokens → c.edited = d.edited → c = d := by
    rintro ⟨cs, e⟩ ⟨ds, e'⟩ rfl rfl
    rfl
  obtain ⟨log, hlog⟩ := (h style b).exists_run
  obtain ⟨log', hlog'⟩ := (h style (r.apply style b)).exists_run
  cases hedited : (r.apply style b).edited with
  | true => exact hext _ _ htokens (by rw [hlog'.edited_iff.2 (Or.inl hedited), hedited])
  | false =>
    have hidle : ¬(b.edited = true ∨ Buffer.Effective log) := by
      rw [← hlog.edited_iff, hedited]
      decide
    have hsame : r.apply style b = b := by
      refine hext _ _ (hlog.tokens_eq fun heffective => hidle (Or.inr heffective)) ?_
      rw [hedited]
      exact (Bool.eq_false_iff.2 fun hb => hidle (Or.inl hb)).symm
    rw [hsame, hsame]

/-- The tokens after a transformation that has no effect on its own result. -/
theorem tokens_ofTransform {name help : String} {f : Style → List Token → List Token}
    {style : Style} {b : Buffer} (h : f style (f style b.tokens) = f style b.tokens) :
    ((ofTransform name help f).apply style ((ofTransform name help f).apply style b)).tokens =
      ((ofTransform name help f).apply style b).tokens := by
  simpa [ofTransform] using h

theorem tokens_apply_apply {r : Rule} (hr : r ∈ catalog) (hname : r.name ≠ "semicolons")
    (style : Style) {b : Buffer} (hb : SpacesApart b.tokens) :
    (r.apply style (r.apply style b)).tokens = (r.apply style b).tokens := by
  simp only [catalog, List.mem_cons, List.not_mem_nil, or_false] at hr
  rcases hr with rfl | rfl | rfl | rfl | rfl | rfl | rfl | rfl | rfl | rfl | rfl | rfl | rfl | rfl
  · exact tokens_ofTransform (Page.unify_unify _ _)
  · refine tokens_ofTransform ?_
    split
    · exact (Page.movesBraces_wrap _).rule_rule rfl (fun _ => rfl) _
    · exact Page.movesBraces_join.rule_rule rfl (fun _ => rfl) _
  · exact tokens_ofTransform (Page.inserts_aroundBraces.rule_rule none _)
  · exact tokens_ofTransform (Page.inserts_aroundOperators.rule_rule none _)
  · simpa [spaceAroundCommas] using Page.commas_commas hb none
  · exact tokens_ofTransform (Page.edits_insideBrackets.rule_rule_of_removes hb none)
  · exact absurd rfl hname
  · exact tokens_ofTransform (Page.singleSpaces_joinSpaces _ none)
  · exact tokens_ofTransform (Linebreaks.trimBlockStarts_trimBlockStarts false _)
  · exact tokens_ofTransform (Linebreaks.trimBlockEnds_trimBlockEnds _)
  · exact tokens_ofTransform (Linebreaks.limitBlankLines_limitBlankLines _ 0 _)
  · exact tokens_ofTransform (Indentation.indentLines_indentLines hb)
  · exact tokens_ofTransform ((Page.edits_trimLines _).rule_rule_of_removes hb none)
  · refine tokens_ofTransform ?_
    split
    · rfl
    · exact Linebreaks.endWithLinebreak_endWithLinebreak rfl _

/-- **Every rule but the one on semicolons is stable on its own.**  For every style and every buffer
in which no two spaces stand side by side, whether or not its tokens were ever read from a text:
applying the rule twice gives the same buffer as applying it once, with the same flag. -/
theorem apply_apply_of_mem_catalog {r : Rule} (hr : r ∈ catalog) (hname : r.name ≠ "semicolons")
    (style : Style) {b : Buffer} (hb : SpacesApart b.tokens) :
    r.apply style (r.apply style b) = r.apply style b :=
  (faithful_of_mem_catalog hr).apply_apply (tokens_apply_apply hr hname style hb)

/-- Two commas: the space that is put between them is taken out again, each time, and the flag is
up. -/
theorem apply_apply_of_mem_catalog_commas :
    spaceAroundCommas.apply {} ⟨[⟨.delimiter, ","⟩, ⟨.delimiter, ","⟩], false⟩ =
        ⟨[⟨.delimiter, ","⟩, ⟨.delimiter, ","⟩], true⟩ ∧
      spaceAroundCommas.apply {}
          (spaceAroundCommas.apply {} ⟨[⟨.delimiter, ","⟩, ⟨.delimiter, ","⟩], false⟩) =
        spaceAroundCommas.apply {} ⟨[⟨.delimiter, ","⟩, ⟨.delimiter, ","⟩], false⟩ := by
  have hb : SpacesApart [⟨.delimiter, ","⟩, ⟨.delimiter, ","⟩] :=
    .cons_cons (by decide) (.singleton _)
  exact ⟨by decide, apply_apply_of_mem_catalog (by simp [catalog]) (by decide) {} hb⟩

/-- Of two spaces that end a line, only the last one goes the first time. -/
example : trailingSpace.apply {} (trailingSpace.apply {} ⟨[oneSpace, oneSpace], false⟩) ≠
    trailingSpace.apply {} ⟨[oneSpace, oneSpace], false⟩ := by
  decide

end Rule
end Restyle
