import Restyle.Proofs.Formatting.Rest

/-!
# What a formatted text looks like

A text that is formatted as a file with the default rules is in a normal form, and
this file states it in the terms of a reader, without pages and gaps.

* `LaidOut` is about lines: their ends, the spaces in them and the blank ones among
  them.  `WellSpaced` is about neighbours: operators, commas, brackets and braces.
* `laidOut_of_applyRules` and `wellSpaced_of_applyRules`: what the default rules come
  to rest on is in normal form, for every text and every style.

Each clause is read off the gap in which it is decided.  No clause is about the work
of one rule only: a space that one rule puts in may be taken out by another, and a
line that one rule cleans up may be indented by the next.
-/

namespace Restyle

open Token

namespace Gap

variable {keep : Bool} {t u : Option Token} {g : Gap} {s : String}

/-- A space before a linebreak that is not cut off. -/
theorem keep_of_trim_ended {earlier later : List (Option String)} (h : g.trim keep t u = g)
    (hended : g.ended = earlier ++ some s :: later) :
    keep = true ∧ (earlier = [] → t = none) := by
  obtain ⟨ended, last⟩ := g
  subst hended
  have hended := congrArg Gap.ended h
  cases earlier with
  | nil => cases keep <;> cases t <;> simp [trim] at hended ⊢
  | cons a earlier =>
    cases keep with
    | true => simp
    | false =>
      have hmem : some s ∈ (earlier ++ some s :: later).map fun b => if false then b else none := by
        rw [show (earlier ++ some s :: later).map _ = _ from (List.cons.inj hended).2]
        simp
      simp at hmem

/-- A space at the end of the text that is not cut off. -/
theorem keep_of_trim_last (h : g.trim keep t none = g) (hlast : g.last = some s) :
    keep = true ∧ (g.ended = [] → t = none) := by
  obtain ⟨ended, last⟩ := g
  subst hlast
  have hlast := congrArg Gap.last h
  cases ended with
  | nil => cases keep <;> cases t <;> simp [trim] at hlast ⊢
  | cons a ended => cases keep <;> simp [trim] at hlast ⊢

end Gap

namespace Page

/-- The ends of lines are cleaned up where the text ends, too. -/
theorem trim_eq_self_of_edgeGap {keep fragment : Bool} {t u : Option Token} {g : Gap}
    (h : edgeGap keep fragment t g u = g) : g.trim keep t u = g := by
  unfold edgeGap at h
  split at h
  · subst h
    cases keep <;> cases t <;> cases u <;> rfl
  · exact h

theorem kind_of_isOpeningBracket {t : Token} (h : Spacing.isOpeningBracket t = true) :
    t.kind = .startOfScope := by
  rw [Spacing.isOpeningBracket, Bool.or_eq_true] at h
  exact h.elim kind_of_opens kind_of_opens

theorem kind_of_isClosingBracket {t : Token} (h : Spacing.isClosingBracket t = true) :
    t.kind = .endOfScope := by
  rw [Spacing.isClosingBracket, Bool.or_eq_true] at h
  exact h.elim kind_of_closes kind_of_closes

/-- Where a space between two code tokens is refused. -/
theorem refusesSpace_iff {t u : Token} (ht : t.isCode = true) (hu : u.isCode = true) :
    refusesSpace (some t) (some u) = true ↔ Spacing.isComma u = true ∨
      (Spacing.isOpeningBracket t = true ∧ u.isComment = false) ∨
      (Spacing.isClosingBracket u = true ∧ t.isComment = false) := by
  simp [refusesSpace, noSpaceBeforeComma, noSpaceInside, Spacing.thereIs, Spacing.isPlain,
    isLinebreak_of_isCode ht, isLinebreak_of_isCode hu]

namespace AtRest

variable {style : Style} {p : Page} {eol : String} {g : Gap} {cells : List Cell}

/-- The text ends with one linebreak after its last code token. -/
theorem eq_line {t : Token} (hp : p.AtRest style) (hfile : style.fragment = false)
    (h : p.HasGap (some t) g []) : g = .line := by
  have hedged := h.each hp.edged
  rw [hfile] at hedged
  exact hedged.symm

/-- **A space after a code token** is a single one, and the line goes on after it. -/
theorem eq_single {t s : Token} {back : List Token} (hp : p.AtRest style)
    (hfile : style.fragment = false) (h : p.HasGap (some t) g cells)
    (hg : g.tokens eol = s :: back) (hs : s.isSpace = true) :
    g = .single ∧ s = oneSpace ∧ (next cells).isSome = true := by
  cases cells with
  | nil =>
    rw [hp.eq_line hfile h, Gap.tokens_line, List.cons.injEq] at hg
    rw [← hg.1] at hs
    exact absurd hs (by simp)
  | cons c cells =>
    have htrim := trim_eq_self_of_edgeGap (h.each hp.edged)
    obtain ⟨ended, last⟩ := g
    cases ended with
    | nil =>
      cases last with
      | none => simp at hg
      | some text =>
        obtain ⟨rfl, -⟩ := List.cons.inj hg
        obtain hlast | hlast := (h.each hp.lined).inner rfl rfl rfl
        · exact absurd hlast (by simp)
        · obtain rfl : text = " " := Option.some.inj hlast
          exact ⟨rfl, rfl, rfl⟩
    | cons a ended =>
      -- the line of the code token ends without a space
      cases a with
      | some text =>
        have hfirst : some text :: ended = [] ++ some text :: ended := rfl
        exact absurd ((Gap.keep_of_trim_ended htrim hfirst).2 rfl) (by simp)
      | none =>
        rw [Gap.tokens_cons, Gap.space_none, List.nil_append, List.cons.injEq] at hg
        rw [← hg.1] at hs
        exact absurd hs (by simp)

/-- **A space at the end of a line** is all there is on its line, and the style keeps
such spaces. -/
theorem keeps_space {t : Option Token} {s : Token} {front back : List Token}
    (hp : p.AtRest style) (h : p.HasGap t g cells) (hg : g.tokens eol = front ++ s :: back)
    (hs : s.isSpace = true)
    (hend : Spacing.isLineEdge (back ++ weave eol .empty cells).head? = true) :
    style.trim = .nonblankLines ∧ Spacing.isLineEdge (front.getLast?.or t) = true := by
  have htrim := trim_eq_self_of_edgeGap (h.each hp.edged)
  have hkeep : (style.trim == .nonblankLines) = true → style.trim = .nonblankLines := by simp
  have hedge : ∀ earlier : List (Option String), (earlier = [] → t = none) →
      Spacing.isLineEdge ((Gap.tokens eol ⟨earlier, none⟩).getLast?.or t) = true := by
    intro earlier ht
    have hlast := Gap.isLineEdge_getLast?_tokens eol earlier
    cases hg : (Gap.tokens eol ⟨earlier, none⟩).getLast? with
    | some b => rwa [hg] at hlast
    | none =>
      have hempty := congrArg Gap.ended (Gap.eq_empty_of_tokens (List.getLast?_eq_none_iff.1 hg))
      rw [ht hempty]
      rfl
  rcases Gap.exists_of_tokens_eq_space hg hs with ⟨earlier, later, hended, rfl⟩ |
    ⟨hlast, rfl, rfl⟩
  · obtain ⟨htrue, ht⟩ := Gap.keep_of_trim_ended htrim hended
    exact ⟨hkeep htrue, hedge earlier ht⟩
  · -- no code token follows, so the text ends here
    cases cells with
    | cons c cells =>
      rw [List.nil_append, weave_cons, Gap.tokens_empty, List.nil_append, List.head?_cons] at hend
      exact absurd hend (by simp [Spacing.isLineEdge, isLinebreak_of_isCode c.isCode])
    | nil =>
      obtain ⟨htrue, ht⟩ := Gap.keep_of_trim_last htrim hlast
      exact ⟨hkeep htrue, hedge g.ended ht⟩

/-! ## Lines -/

/-- A space that is not the first token of its line is a single one. -/
theorem single_of_mem_tail {line : List Token} {s : Token} (hp : p.AtRest style)
    (hfile : style.fragment = false) (hline : line ∈ lines (p.tokens eol)) (hs : s ∈ line.tail)
    (hspace : s.isSpace = true) : s = oneSpace := by
  obtain ⟨before, after, hts, -, -, hbreak⟩ := exists_of_mem_lines hline
  obtain ⟨l, m, htail⟩ := List.append_of_mem hs
  obtain ⟨first, hfirst⟩ : ∃ first, line = first :: line.tail := by
    cases line with
    | nil => simp at hs
    | cons first rest => exact ⟨first, rfl⟩
  -- the token before the space
  obtain ⟨init, b, hinit⟩ : ∃ init b, first :: l = init ++ [b] :=
    ⟨_, _, (List.dropLast_append_getLast (List.cons_ne_nil first l)).symm⟩
  have hsplit : line = init ++ b :: s :: m := by
    rw [hfirst, htail, ← List.cons_append, hinit]
    simp
  have hplace : p.tokens eol = (before ++ init) ++ b :: ([s] ++ (m ++ after)) := by
    rw [hts, hsplit]
    simp
  have hcode : b.isCode = true := isCode_of_space hplace hspace (hbreak b (by simp [hsplit]))
  obtain ⟨g, cells, back, hgap, hg, -⟩ := exists_gap_after hplace hcode
    (by simp [isLayout, hspace])
  exact (hp.eq_single hfile hgap hg hspace).2.1

/-- A space at the end of a line is all there is on it, and the style keeps it. -/
theorem trimmed_of_mem_getLast? {line : List Token} {s : Token} (hp : p.AtRest style)
    (hline : line ∈ lines (p.tokens eol)) (hs : s ∈ line.getLast?) (hspace : s.isSpace = true) :
    style.trim = .nonblankLines ∧ line = [s] := by
  obtain ⟨before, after, hts, -, hafter, hbreak⟩ := exists_of_mem_lines hline
  obtain ⟨init, rfl⟩ := List.getLast?_eq_some_iff.1 hs
  have hplace : p.tokens eol = (before ++ init) ++ ([s] ++ after) := by
    rw [hts]
    simp
  obtain ⟨g, cells, earlier, front, back, hgap, hbefore, hg, rfl⟩ := exists_gap hplace
    (by simp [isLayout, hspace])
  obtain ⟨hkeep, hedge⟩ := hp.keeps_space hgap hg hspace hafter
  rw [← List.getLast?_append, ← hbefore, List.getLast?_append] at hedge
  refine ⟨hkeep, ?_⟩
  rcases List.eq_nil_or_concat init with rfl | ⟨init', b, rfl⟩
  · rfl
  · rw [List.concat_eq_append, List.getLast?_concat, Option.some_or] at hedge
    exact absurd hedge (by simp [Spacing.isLineEdge, hbreak b (by simp)])

/-- Blanks from the start of a line on are few. -/
theorem countP_le {before blanks after : List Token} (hp : p.AtRest style)
    (h : p.tokens eol = before ++ (blanks ++ after))
    (hedge : Spacing.isLineEdge before.getLast? = true)
    (hblanks : ∀ b ∈ blanks, b.isLayout = true) :
    blanks.countP isLinebreak ≤ style.maxBlankLines := by
  obtain ⟨g, cells, earlier, front, back, hgap, rfl, hg, -⟩ := exists_gap h hblanks
  have hfew := (hgap.each hp.lined).few
  rw [← Gap.countP_tokens eol, hg, List.countP_append, List.countP_append, limit] at hfew
  split at hfew
  · -- the line of the code token ends before the blanks
    have hpos := hgap.countP_pos ‹_› hedge
    omega
  · omega

/-- A line that does not go on after an opening brace is not followed by a blank
one. -/
theorem not_blank_after {before spaces next after : List Token} {brace lb : Token}
    (hp : p.AtRest style)
    (h : p.tokens eol = before ++ brace :: (spaces ++ lb :: (next ++ after)))
    (hopens : brace.opens openBrace = true) (hspaces : ∀ b ∈ spaces, b.isSpace = true)
    (hlb : lb.isLinebreak = true) (hafter : Spacing.isLineEdge after.head? = true) :
    ¬∀ b ∈ next, b.isSpace = true := by
  intro hnext
  have hcode : brace.isCode = true :=
    isCode_of_kind (by simp [kind_of_opens hopens]) (by simp [kind_of_opens hopens])
  cases after with
  | nil =>
    -- the text would end with the brace
    have hplace : p.tokens eol = before ++ brace :: ((spaces ++ lb :: next) ++ []) := by
      simpa using h
    obtain ⟨g, cells, back, hgap, -, hback⟩ := exists_gap_after hplace hcode (by
      simp only [List.mem_append, List.mem_cons]
      rintro b (hb | rfl | hb)
      · exact Relaid.isLayout_of_isSpace (hspaces b hb)
      · simp [isLayout, hlb]
      · exact Relaid.isLayout_of_isSpace (hnext b hb))
    cases cells with
    | cons c cells => simp at hback
    | nil =>
      obtain ⟨c, hc, rfl⟩ := hgap.mem_getLast?
      exact absurd hopens (by simp [hp.noOpenEnd c hc])
  | cons lb' after =>
    have hplace : p.tokens eol =
        before ++ brace :: ((spaces ++ lb :: (next ++ [lb'])) ++ after) := by
      simpa using h
    have hlb' : lb'.isLinebreak = true := hafter
    obtain ⟨g, cells, back, hgap, hg, -⟩ := exists_gap_after hplace hcode (by
      simp only [List.mem_append, List.mem_cons, List.not_mem_nil, or_false]
      rintro b (hb | rfl | hb | rfl)
      · exact Relaid.isLayout_of_isSpace (hspaces b hb)
      · simp [isLayout, hlb]
      · exact Relaid.isLayout_of_isSpace (hnext b hb)
      · simp [isLayout, hlb'])
    have hshort := (hgap.each hp.lined).opened hopens
    rw [← Gap.countP_tokens eol, hg] at hshort
    simp only [List.countP_append, List.countP_cons_of_pos hlb,
      List.countP_cons_of_pos hlb'] at hshort
    omega

/-- A line that starts with a closing brace does not follow on a blank one. -/
theorem not_blank_before {before line spaces after : List Token} {brace lb : Token}
    (hp : p.AtRest style)
    (h : p.tokens eol = before ++ (line ++ lb :: (spaces ++ brace :: after)))
    (hcloses : brace.closes closeBrace = true) (hspaces : ∀ b ∈ spaces, b.isSpace = true)
    (hlb : lb.isLinebreak = true) (hbefore : Spacing.isLineEdge before.getLast? = true) :
    ¬∀ b ∈ line, b.isSpace = true := by
  intro hline
  have hcode : brace.isCode = true :=
    isCode_of_kind (by simp [kind_of_closes hcloses]) (by simp [kind_of_closes hcloses])
  have hplace : p.tokens eol = before ++ ((line ++ lb :: spaces) ++ brace :: after) := by
    simpa using h
  obtain ⟨g, c, cells, earlier, front, hgap, rfl, rfl, hg, -⟩ := exists_gap_before hplace hcode (by
    simp only [List.mem_append, List.mem_cons]
    rintro b (hb | rfl | hb)
    · exact Relaid.isLayout_of_isSpace (hline b hb)
    · simp [isLayout, hlb]
    · exact Relaid.isLayout_of_isSpace (hspaces b hb))
  have hshort := (hgap.each hp.lined).closed hcloses
  rw [← Gap.countP_tokens eol, hg] at hshort
  simp only [List.countP_append, List.countP_cons_of_pos hlb] at hshort
  cases hlast : earlier.getLast? with
  | some t =>
    have hpos := hgap.countP_pos (by rw [hlast]; rfl) hbefore
    omega
  | none =>
    -- the text would start with the brace
    rw [hlast] at hgap
    have hfirst := hp.noClosedStart c.code (by rw [← hgap.eq_cells]; rfl)
    exact absurd hcloses (by simp [hfirst])

/-- A text with code in it ends with a single linebreak. -/
theorem exists_of_isCode {t : Token} (hp : p.AtRest style) (hfile : style.fragment = false)
    (ht : t ∈ p.tokens eol) (hcode : t.isCode = true) :
    ∃ init last, p.tokens eol = init ++ [last, ⟨.linebreak, eol⟩] ∧ last.isCode = true := by
  -- the last code token, and the blanks after it
  obtain ⟨last, hlast⟩ : ∃ last, (p.tokens eol).reverse.find? Token.isCode = some last :=
    Option.isSome_iff_exists.1 (List.find?_isSome.2 ⟨t, by simpa using ht, hcode⟩)
  obtain ⟨hcode', blanks, init, hreverse, hblanks⟩ := List.find?_eq_some_iff_append.1 hlast
  have hplace : p.tokens eol = init.reverse ++ last :: (blanks.reverse ++ []) := by
    rw [← List.reverse_reverse (p.tokens eol), hreverse]
    simp
  obtain ⟨g, cells, back, hgap, hg, hback⟩ := exists_gap_after hplace hcode' fun b hb => by
    simpa [Token.isCode] using hblanks b (List.mem_reverse.1 hb)
  obtain ⟨rfl, hcells⟩ := List.nil_eq_append_iff.1 hback
  cases cells with
  | cons c cells => simp at hcells
  | nil =>
    rw [hp.eq_line hfile hgap, Gap.tokens_line, List.append_nil] at hg
    exact ⟨init.reverse, last, by rw [hplace, ← hg]; rfl, hcode'⟩

/-! ## Neighbours -/

/-- Two code tokens stand side by side only where no space is wanted, or one is
refused. -/
theorem refuses_of_wants {before after : List Token} {t u : Token} (hp : p.AtRest style)
    (h : p.tokens eol = before ++ t :: u :: after) (ht : t.isCode = true) (hu : u.isCode = true)
    (hwants : wantsSpace (some t) (some u) = true) : refusesSpace (some t) (some u) = true := by
  have hplace : p.tokens eol = before ++ t :: ([] ++ u :: after) := h
  obtain ⟨g, c, cells, hgap, rfl, hg, -⟩ := exists_gap_between hplace ht hu (by simp)
  have hspaced := hgap.each hp.spaced
  rw [Gap.eq_empty_of_tokens hg, next_cons] at hspaced
  have hlast := hspaced rfl rfl rfl
  rw [hwants] at hlast
  simpa [Gap.empty] using hlast

/-- A space stands between two code tokens only where none is refused. -/
theorem refuses_eq_false {before after : List Token} {t s u : Token} (hp : p.AtRest style)
    (h : p.tokens eol = before ++ t :: s :: u :: after) (ht : t.isCode = true)
    (hs : s.isSpace = true) (hu : u.isCode = true) : refusesSpace (some t) (some u) = false := by
  have hplace : p.tokens eol = before ++ t :: ([s] ++ u :: after) := h
  obtain ⟨g, c, cells, hgap, rfl, hg, -⟩ :=
    exists_gap_between hplace ht hu (by simp [isLayout, hs])
  have hspaced := hgap.each hp.spaced
  have hbreaks : g.breaks = false := by
    rw [← Gap.any_isLinebreak_tokens eol, hg]
    cases hkind : s.kind <;> simp_all [isSpace, isLinebreak]
  obtain ⟨last, rfl⟩ := Gap.exists_of_not_breaks hbreaks
  cases last with
  | none => simp at hg
  | some text =>
    have hlast := hspaced rfl rfl rfl
    simpa using hlast

/-- A space that is not the first token of its line and stands before a code token has
a code token before it. -/
theorem refuses_before {before after : List Token} {s u : Token} (hp : p.AtRest style)
    (h : p.tokens eol = before ++ s :: u :: after) (hs : s.isSpace = true) (hu : u.isCode = true) :
    Spacing.isLineEdge before.getLast? = true ∨
      ∃ t ∈ before.getLast?, t.isCode = true ∧ refusesSpace (some t) (some u) = false := by
  rcases List.eq_nil_or_concat before with rfl | ⟨init, t, rfl⟩
  · exact Or.inl rfl
  · rw [List.concat_eq_append, List.getLast?_concat]
    have hplace : p.tokens eol = init ++ t :: s :: u :: after := by simpa using h
    cases hbreak : t.isLinebreak with
    | true => exact Or.inl hbreak
    | false =>
      have ht := isCode_of_space hplace hs hbreak
      exact Or.inr ⟨t, rfl, ht, hp.refuses_eq_false hplace ht hs hu⟩

/-- Where a space is wanted and the tokens stand side by side, the second one is a comma
or a closing bracket, or the first one is an opening bracket. -/
theorem cases_of_wants {before after : List Token} {t u : Token} (hp : p.AtRest style)
    (h : p.tokens eol = before ++ t :: u :: after) (ht : t.isCode = true) (hu : u.isCode = true)
    (hwants : wantsSpace (some t) (some u) = true) :
    Spacing.isComma u = true ∨ t.kind = .startOfScope ∨ u.kind = .endOfScope := by
  rcases (refusesSpace_iff ht hu).1 (hp.refuses_of_wants h ht hu hwants)
    with hcomma | ⟨hopens, -⟩ | ⟨hcloses, -⟩
  · exact Or.inl hcomma
  · exact Or.inr (Or.inl (kind_of_isOpeningBracket hopens))
  · exact Or.inr (Or.inr (kind_of_isClosingBracket hcloses))

/-- What an infix operator follows on. -/
theorem before_operator {before after : List Token} {t op : Token} (hp : p.AtRest style)
    (h : p.tokens eol = before ++ t :: op :: after) (hop : Spacing.isSpacedOperator op = true) :
    t.isLayout = true ∨ t.kind = .startOfScope := by
  have hkind := Relaid.kind_of_isSpacedOperator hop
  by_contra! hnot
  have hcode : t.isCode = true := by simpa [Token.isCode] using hnot.1
  have hwants : wantsSpace (some t) (some op) = true := by
    simp [wantsSpace, Inserts.apart, spaceBeforeOperator, hop, Spacing.needsSpaceBefore,
      Spacing.thereIs, hcode, hnot.2]
  rcases hp.cases_of_wants h hcode (isCode_of_kind (by simp [hkind]) (by simp [hkind])) hwants
    with hcomma | hopens | hcloses
  · exact absurd (kind_of_isDelimiter hcomma) (by simp [hkind])
  · exact hnot.2 hopens
  · exact absurd hcloses (by simp [hkind])

/-- What follows on an infix operator. -/
theorem after_operator {before after : List Token} {op u : Token} (hp : p.AtRest style)
    (h : p.tokens eol = before ++ op :: u :: after) (hop : Spacing.isSpacedOperator op = true) :
    u.isLayout = true ∨ u.kind = .endOfScope ∨ u.kind = .delimiter := by
  have hkind := Relaid.kind_of_isSpacedOperator hop
  by_contra! hnot
  have hcode : u.isCode = true := by simpa [Token.isCode] using hnot.1
  have hwants : wantsSpace (some op) (some u) = true := by
    simp [wantsSpace, Inserts.apart, spaceAfterOperator, hop, Spacing.needsSpaceAfter,
      Spacing.thereIs, hcode, hnot.2]
  rcases hp.cases_of_wants h (isCode_of_kind (by simp [hkind]) (by simp [hkind])) hcode hwants
    with hcomma | hopens | hcloses
  · exact hnot.2.2 (kind_of_isDelimiter hcomma)
  · exact absurd hopens (by simp [hkind])
  · exact hnot.2.1 hcloses

/-- What follows on a comma. -/
theorem after_comma {before after : List Token} {comma u : Token} (hp : p.AtRest style)
    (h : p.tokens eol = before ++ comma :: u :: after) (hcomma : Spacing.isComma comma = true) :
    u.isLayout = true ∨ u.kind = .endOfScope ∨ Spacing.isComma u = true := by
  have hkind := kind_of_isDelimiter hcomma
  by_contra! hnot
  have hcode : u.isCode = true := by simpa [Token.isCode] using hnot.1
  have hwants : wantsSpace (some comma) (some u) = true := by
    simp [wantsSpace, Inserts.apart, spaceAfterComma, hcomma, Spacing.needsSpaceAfterComma,
      Spacing.thereIs, hcode, hnot.2.1]
  rcases hp.cases_of_wants h (isCode_of_kind (by simp [hkind]) (by simp [hkind])) hcode hwants
    with hcomma' | hopens | hcloses
  · exact hnot.2.2 hcomma'
  · exact absurd hopens (by simp [hkind])
  · exact hnot.2.1 hcloses

/-- A space before a comma. -/
theorem before_comma {before after : List Token} {s comma : Token} (hp : p.AtRest style)
    (h : p.tokens eol = before ++ s :: comma :: after) (hs : s.isSpace = true)
    (hcomma : Spacing.isComma comma = true) : Spacing.isLineEdge before.getLast? = true := by
  have hkind := kind_of_isDelimiter hcomma
  have hcode : comma.isCode = true := isCode_of_kind (by simp [hkind]) (by simp [hkind])
  rcases hp.refuses_before h hs hcode with hedge | ⟨t, -, ht, hrefuses⟩
  · exact hedge
  · exact absurd ((refusesSpace_iff ht hcode).2 (Or.inl hcomma)) (by simp [hrefuses])

/-- A space before a closing round or square bracket. -/
theorem before_closing {before after : List Token} {s bracket : Token} (hp : p.AtRest style)
    (h : p.tokens eol = before ++ s :: bracket :: after) (hs : s.isSpace = true)
    (hcloses : Spacing.isClosingBracket bracket = true) :
    Spacing.isLineEdge before.getLast? = true ∨ ∃ t ∈ before.getLast?, t.isComment = true := by
  have hkind := kind_of_isClosingBracket hcloses
  have hcode : bracket.isCode = true := isCode_of_kind (by simp [hkind]) (by simp [hkind])
  rcases hp.refuses_before h hs hcode with hedge | ⟨t, ht, htcode, hrefuses⟩
  · exact Or.inl hedge
  · refine Or.inr ⟨t, ht, ?_⟩
    by_contra hplain
    have hcomment : t.isComment = false := by simpa using hplain
    exact absurd ((refusesSpace_iff htcode hcode).2 (Or.inr (Or.inr ⟨hcloses, hcomment⟩)))
      (by simp [hrefuses])

/-- A space after an opening round or square bracket. -/
theorem after_opening {before after : List Token} {bracket s : Token} (hp : p.AtRest style)
    (hfile : style.fragment = false) (h : p.tokens eol = before ++ bracket :: s :: after)
    (hopens : Spacing.isOpeningBracket bracket = true) (hs : s.isSpace = true) :
    ∃ u ∈ after.head?, u.isComment = true := by
  have hkind := kind_of_isOpeningBracket hopens
  have hcode : bracket.isCode = true := isCode_of_kind (by simp [hkind]) (by simp [hkind])
  have hplace : p.tokens eol = before ++ bracket :: ([s] ++ after) := h
  obtain ⟨g, cells, back, hgap, hg, hafter⟩ :=
    exists_gap_after hplace hcode (by simp [isLayout, hs])
  -- the line goes on after the space
  obtain ⟨rfl, rfl, hnext⟩ := hp.eq_single hfile hgap hg hs
  obtain rfl : back = [] := (List.cons.inj hg).2.symm
  cases cells with
  | nil => simp at hnext
  | cons c cells =>
    obtain rfl : after = c.code :: weave eol c.gap cells := hafter
    refine ⟨c.code, rfl, ?_⟩
    have hrefuses := hp.refuses_eq_false h hcode hs c.isCode
    by_contra hplain
    have hcomment : c.code.isComment = false := by simpa using hplain
    exact absurd ((refusesSpace_iff hcode c.isCode).2 (Or.inr (Or.inl ⟨hopens, hcomment⟩)))
      (by simp [hrefuses])

/-- Blanks between a head and its brace, where braces stand on the lines of their
heads. -/
theorem not_breaks_of_join {before blanks after : List Token} {head brace : Token}
    (hp : p.AtRest style) (hallman : style.allman = false)
    (h : p.tokens eol = before ++ head :: (blanks ++ brace :: after))
    (hhead : head.endsBlockHead = true) (hblanks : ∀ b ∈ blanks, b.isLayout = true)
    (hopens : brace.opens openBrace = true) : ∀ b ∈ blanks, b.isLinebreak = false := by
  have hkind := kind_of_opens hopens
  obtain ⟨g, c, cells, hgap, rfl, rfl, -⟩ := exists_gap_between h (isCode_of_endsBlockHead hhead)
    (isCode_of_kind (by simp [hkind]) (by simp [hkind])) hblanks
  have hjoined : joinGap (some head) g (c :: cells) = g := by
    have hbraced := hgap.regap hp.braced
    rwa [hallman] at hbraced
  have hbreaks : g.breaks = false := by
    by_contra hbreaks
    rw [joinGap, if_pos (by simp [atBrace, Spacing.thereIs, hhead, hopens, hbreaks])] at hjoined
    exact hbreaks (by rw [← hjoined]; rfl)
  rw [← Gap.any_isLinebreak_tokens eol, List.any_eq_false] at hbreaks
  simpa using hbreaks

/-- A head on the line of its brace, where braces stand on lines of their own. -/
theorem not_head_of_wrap {before blanks spaces after : List Token} {head brace lb : Token}
    (hp : p.AtRest style) (hallman : style.allman = true)
    (h : p.tokens eol = before ++ head :: (blanks ++ brace :: (spaces ++ lb :: after)))
    (hblanks : ∀ b ∈ blanks, b.isSpace = true) (hopens : brace.opens openBrace = true)
    (hspaces : ∀ b ∈ spaces, b.isSpace = true) (hlb : lb.isLinebreak = true) :
    head.endsBlockHead = false := by
  have hkind := kind_of_opens hopens
  by_contra hnot
  have hhead : head.endsBlockHead = true := by simpa using hnot
  obtain ⟨g, c, cells, hgap, rfl, rfl, hafter⟩ := exists_gap_between h
    (isCode_of_endsBlockHead hhead) (isCode_of_kind (by simp [hkind]) (by simp [hkind]))
    fun b hb => Relaid.isLayout_of_isSpace (hblanks b hb)
  have hwrapped : wrapGap (some head) g (c :: cells) = g := by
    have hbraced := hgap.regap hp.braced
    rwa [hallman] at hbraced
  have hbreaks : g.breaks = false := by
    rw [← Gap.any_isLinebreak_tokens eol, List.any_eq_false]
    intro b hb hbreak
    exact absurd (hblanks b hb) (by simp [Relaid.isSpace_of_isLinebreak hbreak])
  have hends : c.gap.breaks = true := by
    rw [← @endsLine_weave eol c.gap cells, ← hafter, Braces.endsLine,
      List.dropWhile_append_of_pos hspaces,
      List.dropWhile_cons_of_neg (by simp [Relaid.isSpace_of_isLinebreak hlb])]
    exact hlb
  rw [wrapGap, if_pos (by
    simp [atBrace, Spacing.thereIs, hhead, hopens, hbreaks, breaksNext, hends])] at hwrapped
  rw [← hwrapped] at hbreaks
  exact absurd hbreaks (by decide)

end AtRest
end Page

namespace Formatting

variable {style : Style} {source : String} {ts : List Token}

/-- A line that holds nothing but spaces. -/
def IsBlankLine (line : List Token) : Prop := ∀ t ∈ line, t.isSpace = true

/-- **The layout of a file**: its linebreaks, its spaces and its blank lines are as
the style wants them.  A line is what stands between two linebreaks, and all lines but
the last one are ended by a linebreak. -/
structure LaidOut (style : Style) (ts : List Token) : Prop where
  /-- Every linebreak is the one of the style. -/
  linebreaks : ∀ t ∈ ts, t.isLinebreak = true → t = ⟨.linebreak, style.linebreak.text⟩
  /-- A space that is not the first token of its line is a single one. -/
  single : ∀ line ∈ lines ts, ∀ s ∈ line.tail, s.isSpace = true → s = oneSpace
  /-- No line ends with a space, unless the style keeps blank lines and the space is
  all there is on its line. -/
  trimmed : ∀ line ∈ lines ts, ∀ s ∈ line.getLast?, s.isSpace = true →
    style.trim = .nonblankLines ∧ line = [s]
  /-- There are not too many blank lines in a row. -/
  few : ∀ run, run <:+: (lines ts).dropLast → (∀ line ∈ run, IsBlankLine line) →
    run.length ≤ style.maxBlankLines
  /-- No blank line follows on a line that ends with an opening brace. -/
  opened : ∀ line next, [line, next] <:+: lines ts →
    ∀ brace ∈ line.reverse.find? (!·.isSpace), brace.opens openBrace = true → ¬IsBlankLine next
  /-- No blank line stands before a line that starts with a closing brace. -/
  closed : ∀ line next, [line, next] <:+: lines ts →
    ∀ brace ∈ next.find? (!·.isSpace), brace.closes closeBrace = true → ¬IsBlankLine line
  /-- A text with code in it ends with one linebreak, right after a code token. -/
  ends : (∃ t ∈ ts, t.isCode = true) →
    ∃ init last, ts = init ++ [last, ⟨.linebreak, style.linebreak.text⟩] ∧ last.isCode = true

/-- **Layout normal form.**  For every text and every style that is not for fragments:
what the default rules come to rest on is laid out as the style wants it. -/
theorem laidOut_of_applyRules (hfile : style.fragment = false)
    (h : applyRules style (Rule.defaults style) (scan source) = .ok ts) : LaidOut style ts := by
  obtain ⟨p, hp, rfl⟩ := exists_atRest_of_applyRules h
  refine ⟨fun t => Page.eq_of_mem_tokens, fun line hline s => hp.single_of_mem_tail hfile hline,
    fun line hline s => hp.trimmed_of_mem_getLast? hline, ?few, ?opened, ?closed, ?ends⟩
  case few =>
    intro run hrun hblank
    obtain ⟨before, blanks, after, hts, hedge, hlines⟩ := exists_of_infix_dropLast hrun
    have hlayout : ∀ b ∈ blanks, b.isLayout = true := by
      intro b hb
      cases hbreak : b.isLinebreak with
      | true => simp [isLayout, hbreak]
      | false =>
        obtain ⟨line, hline, hmem⟩ := exists_mem_lines hb hbreak
        rw [hlines, List.mem_append, List.mem_singleton] at hline
        rcases hline with hline | rfl
        · exact Relaid.isLayout_of_isSpace (hblank line hline b hmem)
        · exact absurd hmem (by simp)
    have hcount := length_lines blanks
    rw [hlines, List.length_append, List.length_singleton] at hcount
    have hle := hp.countP_le hts hedge hlayout
    omega
  case opened =>
    intro line next hnext brace hbrace hopens
    obtain ⟨before, lb, after, hts, hlb, -, hafter⟩ := exists_of_infix_lines hnext
    obtain ⟨-, spaces, init, hline, hspaces⟩ := List.find?_eq_some_iff_append.1 hbrace
    have hplace : p.tokens style.linebreak.text =
        (before ++ init.reverse) ++ brace :: (spaces.reverse ++ lb :: (next ++ after)) := by
      rw [hts, ← List.reverse_reverse line, hline]
      simp
    exact hp.not_blank_after hplace hopens
      (fun b hb => by simpa using hspaces b (by simpa using hb)) hlb hafter
  case closed =>
    intro line next hnext brace hbrace hcloses
    obtain ⟨before, lb, after, hts, hlb, hbefore, -⟩ := exists_of_infix_lines hnext
    obtain ⟨-, spaces, rest, rfl, hspaces⟩ := List.find?_eq_some_iff_append.1 hbrace
    have hplace : p.tokens style.linebreak.text =
        before ++ (line ++ lb :: (spaces ++ brace :: (rest ++ after))) := by
      rw [hts]
      simp
    exact hp.not_blank_before hplace hcloses (fun b hb => by simpa using hspaces b hb) hlb hbefore
  case ends =>
    rintro ⟨t, ht, hcode⟩
    exact hp.exists_of_isCode hfile ht hcode

/-- A block that starts and ends with blank lines, in a style that keeps the spaces of
blank lines. -/
theorem laidOut_of_applyRules_block :
    applyRules { trim := .nonblankLines } (Rule.defaults { trim := .nonblankLines })
        (scan "f\x7b\n\na  =b \n  \n \nc\n\n\x7d") =
      .ok (scan "f \x7b\n    a = b\n  \n    c\n\x7d\n") ∧
      LaidOut { trim := .nonblankLines } (scan "f \x7b\n    a = b\n  \n    c\n\x7d\n") := by
  have h : applyRules { trim := .nonblankLines } (Rule.defaults { trim := .nonblankLines })
        (scan "f\x7b\n\na  =b \n  \n \nc\n\n\x7d") =
      .ok (scan "f \x7b\n    a = b\n  \n    c\n\x7d\n") := by decide +kernel
  exact ⟨h, laidOut_of_applyRules rfl h⟩

/-- **The neighbours of operators, commas, brackets and braces in a file**: there are
spaces where the rules want them and nowhere else, and braces are where the style wants
them. -/
structure WellSpaced (style : Style) (ts : List Token) : Prop where
  /-- An infix operator follows on a blank or an opening bracket, or on nothing. -/
  beforeOperator : ∀ before op after, ts = before ++ op :: after →
    Spacing.isSpacedOperator op = true →
      ∀ t ∈ before.getLast?, t.isLayout = true ∨ t.kind = .startOfScope
  /-- A blank, a closing bracket, a delimiter or nothing follows on an infix operator. -/
  afterOperator : ∀ before op after, ts = before ++ op :: after →
    Spacing.isSpacedOperator op = true →
      ∀ u ∈ after.head?, u.isLayout = true ∨ u.kind = .endOfScope ∨ u.kind = .delimiter
  /-- A space before a comma is the first token of its line. -/
  beforeComma : ∀ before s comma after, ts = before ++ s :: comma :: after →
    s.isSpace = true → Spacing.isComma comma = true →
      Spacing.isLineEdge before.getLast? = true
  /-- A blank, a closing bracket, another comma or nothing follows on a comma. -/
  afterComma : ∀ before comma after, ts = before ++ comma :: after →
    Spacing.isComma comma = true →
      ∀ u ∈ after.head?, u.isLayout = true ∨ u.kind = .endOfScope ∨ Spacing.isComma u = true
  /-- A comment follows on a space after an opening round or square bracket. -/
  insideOpening : ∀ before bracket s after, ts = before ++ bracket :: s :: after →
    Spacing.isOpeningBracket bracket = true → s.isSpace = true →
      ∃ u ∈ after.head?, u.isComment = true
  /-- A space before a closing round or square bracket is the first token of its line, or
  follows on a comment. -/
  insideClosing : ∀ before s bracket after, ts = before ++ s :: bracket :: after →
    s.isSpace = true → Spacing.isClosingBracket bracket = true →
      Spacing.isLineEdge before.getLast? = true ∨ ∃ t ∈ before.getLast?, t.isComment = true
  /-- If braces stand on the lines of their heads, no linebreak stands between the two. -/
  joined : style.allman = false → ∀ before head blanks brace after,
    ts = before ++ head :: (blanks ++ brace :: after) → head.endsBlockHead = true →
      (∀ b ∈ blanks, b.isLayout = true) → brace.opens openBrace = true →
        ∀ b ∈ blanks, b.isLinebreak = false
  /-- If braces stand on lines of their own, no brace that ends its line has its head on
  the same line. -/
  wrapped : style.allman = true → ∀ before head blanks brace spaces lb after,
    ts = before ++ head :: (blanks ++ brace :: (spaces ++ lb :: after)) →
      (∀ b ∈ blanks, b.isSpace = true) → brace.opens openBrace = true →
        (∀ b ∈ spaces, b.isSpace = true) → lb.isLinebreak = true → head.endsBlockHead = false

/-- **Spacing and brace normal form.**  For every text and every style that is not for
fragments: what the default rules come to rest on has its spaces and its braces in
place. -/
theorem wellSpaced_of_applyRules (hfile : style.fragment = false)
    (h : applyRules style (Rule.defaults style) (scan source) = .ok ts) : WellSpaced style ts := by
  obtain ⟨p, hp, rfl⟩ := exists_atRest_of_applyRules h
  refine ⟨?beforeOperator, ?afterOperator, fun before s comma after => hp.before_comma, ?afterComma,
    fun before bracket s after => hp.after_opening hfile,
    fun before s bracket after => hp.before_closing,
    fun hallman before head blanks brace after => hp.not_breaks_of_join hallman,
    fun hallman before head blanks brace spaces lb after => hp.not_head_of_wrap hallman⟩
  case beforeOperator =>
    intro before op after hts hop t ht
    obtain ⟨init, rfl⟩ := List.getLast?_eq_some_iff.1 ht
    exact hp.before_operator (by simpa using hts) hop
  case afterOperator =>
    intro before op after hts hop u hu
    obtain ⟨rest, rfl⟩ := List.head?_eq_some_iff.1 hu
    exact hp.after_operator hts hop
  case afterComma =>
    intro before comma after hts hcomma u hu
    obtain ⟨rest, rfl⟩ := List.head?_eq_some_iff.1 hu
    exact hp.after_comma hts hcomma

/-- A block in the style that puts braces on lines of their own. -/
theorem wellSpaced_of_applyRules_block :
    applyRules { allman := true, experimental := true }
        (Rule.defaults { allman := true, experimental := true })
        (scan "if( a==[ 1 ,2 ] ) \x7b\nb=c;;\n\x7d") =
      .ok (scan "if(a == [1, 2])\n\x7b\n    b = c\n\x7d\n") ∧
      WellSpaced { allman := true, experimental := true }
        (scan "if(a == [1, 2])\n\x7b\n    b = c\n\x7d\n") := by
  have h : applyRules { allman := true, experimental := true }
        (Rule.defaults { allman := true, experimental := true })
        (scan "if( a==[ 1 ,2 ] ) \x7b\nb=c;;\n\x7d") =
      .ok (scan "if(a == [1, 2])\n\x7b\n    b = c\n\x7d\n") := by decide +kernel
  exact ⟨h, wellSpaced_of_applyRules rfl h⟩

end Formatting
end Restyle
